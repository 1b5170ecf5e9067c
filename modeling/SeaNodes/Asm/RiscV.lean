import SeaNodes.Hex
import SeaNodes.Code.Piece

namespace SeaNodes.RiscV

/-- A hardware register number, as the instructions hold it. -/
abbrev Num := UInt32

def zero : Num := 0
def ra : Num := 1
def sp : Num := 2

/-- The register that sequences of several instructions may use. -/
def t0 : Num := 5

def names : Array String :=
  #["zero", "ra", "sp", "gp", "tp", "t0", "t1", "t2", "s0", "s1", "a0", "a1", "a2", "a3", "a4",
    "a5", "a6", "a7", "s2", "s3", "s4", "s5", "s6", "s7", "s8", "s9", "s10", "s11", "t3", "t4",
    "t5", "t6", "ft0", "ft1", "ft2", "ft3", "ft4", "ft5", "ft6", "ft7", "fs0", "fs1", "fa0", "fa1",
    "fa2", "fa3", "fa4", "fa5", "fa6", "fa7", "fs2", "fs3", "fs4", "fs5", "fs6", "fs7", "fs8",
    "fs9", "fs10", "fs11", "ft8", "ft9", "ft10", "ft11"]

/-- The name of an integer register. -/
def Num.name (r : Num) : String := names.getD r.toNat "?"

def field (r : Num) (shift : UInt32) : UInt32 := r <<< shift

def rType (funct7 funct3 opcode : UInt32) (d a b : Num) : UInt32 :=
  funct7 <<< 25 ||| field b 20 ||| field a 15 ||| funct3 <<< 12 ||| field d 7 ||| opcode

def iType (funct3 opcode : UInt32) (d a : Num) (imm : Int) : UInt32 :=
  (word32 imm &&& 0xfff) <<< 20 ||| field a 15 ||| funct3 <<< 12 ||| field d 7 ||| opcode

def sType (funct3 opcode : UInt32) (b a : Num) (imm : Int) : UInt32 :=
  let imm := word32 imm
  (imm >>> 5 &&& 0x7f) <<< 25 ||| field b 20 ||| field a 15 ||| funct3 <<< 12
    ||| (imm &&& 0x1f) <<< 7 ||| opcode

/-- Whether `v` is an immediate of 12 bits. -/
def fits12 (v : Int) : Bool := -2048 ≤ v && v ≤ 2047

inductive Op3 where
  | add | sub | sll | slt | sltu | xor | srl | sra | or | and | mul | div
  | fadd | fsub | fmul | fdiv | feq | flt | fle
deriving DecidableEq, Inhabited

namespace Op3

def name : Op3 → String
  | .add => "add"
  | .sub => "sub"
  | .sll => "sll"
  | .slt => "slt"
  | .sltu => "sltu"
  | .xor => "xor"
  | .srl => "srl"
  | .sra => "sra"
  | .or => "or"
  | .and => "and"
  | .mul => "mul"
  | .div => "div"
  | .fadd => "fadd"
  | .fsub => "fsub"
  | .fmul => "fmul"
  | .fdiv => "fdiv"
  | .feq => "feq"
  | .flt => "flt"
  | .fle => "fle"

def ofName? (s : String) : Option Op3 :=
  [.add, .sub, .sll, .slt, .sltu, .xor, .srl, .sra, .or, .and, .mul, .div, .fadd, .fsub, .fmul,
    .fdiv, .feq, .flt, .fle].find? (·.name == s)

/-- Float arithmetic rounds as the rounding mode register says. -/
def encode : Op3 → Num → Num → Num → UInt32
  | .add => rType 0 0 0x33
  | .sub => rType 0x20 0 0x33
  | .sll => rType 0 1 0x33
  | .slt => rType 0 2 0x33
  | .sltu => rType 0 3 0x33
  | .xor => rType 0 4 0x33
  | .srl => rType 0 5 0x33
  | .sra => rType 0x20 5 0x33
  | .or => rType 0 6 0x33
  | .and => rType 0 7 0x33
  | .mul => rType 1 0 0x33
  | .div => rType 1 4 0x33
  | .fadd => rType 0x01 7 0x53
  | .fsub => rType 0x05 7 0x53
  | .fmul => rType 0x09 7 0x53
  | .fdiv => rType 0x0d 7 0x53
  | .feq => rType 0x51 2 0x53
  | .flt => rType 0x51 1 0x53
  | .fle => rType 0x51 0 0x53

end Op3

def fmv (d a : Num) : UInt32 := rType 0x11 0 0x53 d a a

/-- From an integer register. -/
def fmvX (d a : Num) : UInt32 := rType 0x79 0 0x53 d a 0

/-- From a signed integer. -/
def fcvt (d a : Num) : UInt32 := rType 0x69 7 0x53 d a 2

inductive OpImm where
  | addi | addiw | sltiu | xori | ori | andi | slli | srli | srai | ld | fld | jalr | sd | fsd
deriving DecidableEq, Inhabited

namespace OpImm

def name : OpImm → String
  | .addi => "addi"
  | .addiw => "addiw"
  | .sltiu => "sltiu"
  | .xori => "xori"
  | .ori => "ori"
  | .andi => "andi"
  | .slli => "slli"
  | .srli => "srli"
  | .srai => "srai"
  | .ld => "ld"
  | .fld => "fld"
  | .jalr => "jalr"
  | .sd => "sd"
  | .fsd => "fsd"

def ofName? (s : String) : Option OpImm :=
  [.addi, .addiw, .sltiu, .xori, .ori, .andi, .slli, .srli, .srai, .ld, .fld, .jalr, .sd,
    .fsd].find? (·.name == s)

/-- On the register that is written, or stored, and the one that is read. -/
def encode : OpImm → Num → Num → Int → UInt32
  | .addi => iType 0 0x13
  | .addiw => iType 0 0x1b
  | .sltiu => iType 3 0x13
  | .xori => iType 4 0x13
  | .ori => iType 6 0x13
  | .andi => iType 7 0x13
  | .slli => fun d a s => iType 1 0x13 d a (s % 64)
  | .srli => fun d a s => iType 5 0x13 d a (s % 64)
  | .srai => fun d a s => iType 5 0x13 d a (0x400 + s % 64)
  | .ld => iType 3 0x03
  | .fld => iType 3 0x07
  | .jalr => iType 0 0x67
  | .sd => sType 3 0x23
  | .fsd => sType 3 0x27

end OpImm

def lui (d : Num) (imm : UInt32) : UInt32 := (imm &&& 0xfffff) <<< 12 ||| field d 7 ||| 0x37

def auipc (d : Num) : UInt32 := field d 7 ||| 0x17
def jal (d : Num) : UInt32 := field d 7 ||| 0x6f
def ret : UInt32 := 0x00008067

inductive Cond where
  | eq | ne | lt | ge
deriving DecidableEq, Inhabited

namespace Cond

/-- Holds exactly when this one fails. -/
def invert : Cond → Cond
  | .eq => .ne
  | .ne => .eq
  | .lt => .ge
  | .ge => .lt

def funct3 : Cond → UInt32
  | .eq => 0
  | .ne => 1
  | .lt => 4
  | .ge => 5

def name : Cond → String
  | .eq => "eq"
  | .ne => "ne"
  | .lt => "lt"
  | .ge => "ge"

def mnemonic (c : Cond) : String := "b" ++ c.name

def ofMnemonic? (s : String) : Option Cond := [.eq, .ne, .lt, .ge].find? (·.mnemonic == s)

end Cond

def branch (c : Cond) (a b : Num) (offset : Int) : UInt32 :=
  RelocKind.branchBits (word32 offset) ||| field b 20 ||| field a 15 ||| c.funct3 <<< 12 ||| 0x63

/-- The number of zero bits at the low end of `v`, which is below 52 bits. -/
def lowZeros (v : Int) : Nat := ((List.range 52).find? (v.natAbs.testBit ·)).getD 0

/-- What is left of a constant above its low 12 bits, once the zero bits at its low end are gone,
and the number of bits below it. -/
def upperPart (v : Int) : Int × Nat :=
  let hi := Int.bmod ((v + 0x800) / 0x1000) 0x10000000000000
  (hi / Int.pow 2 (lowZeros hi), 12 + lowZeros hi)

theorem natAbs_upperPart_lt (v : Int) (h : ¬ fitsSigned v 32) :
    (upperPart v).1.natAbs < v.natAbs := by
  have hv : ¬ (-2147483648 ≤ v ∧ v < 2147483648) := of_decide_eq_false (Bool.eq_false_iff.mpr h)
  have hd := Int.natAbs_ediv_le_natAbs (Int.bmod ((v + 0x800) / 0x1000) 0x10000000000000)
    (Int.pow 2 (lowZeros (Int.bmod ((v + 0x800) / 0x1000) 0x10000000000000)))
  have hb : (Int.bmod ((v + 0x800) / 0x1000) 0x10000000000000).natAbs < v.natAbs := by
    rw [Int.bmod]
    split <;> omega
  exact Nat.lt_of_le_of_lt hd hb

/-- The shortest sequence that loads a constant, with its lines in the listing: the part above the
low 12 bits first, then a shift, then the low 12 bits. -/
def loadConst (d : Num) (v : Int) : List (UInt32 × String) :=
  let r := d.name
  let lo := Int.bmod v 0x1000
  let add (op : OpImm) : List (UInt32 × String) :=
    if lo = 0 then []
    else [(op.encode d d lo, op.name ++ " " ++ r ++ ", " ++ r ++ ", " ++ toString lo)]
  if fits12 v then [(OpImm.addi.encode d zero v, "li " ++ r ++ ", " ++ toString v)]
  else if h : fitsSigned v 32 then
    let hi := word32 ((v + 0x800) / 0x1000) &&& 0xfffff
    (lui d hi, "lui " ++ r ++ ", " ++ Hex.marked hi.toNat) :: add .addiw
  else
    let up := upperPart v
    have : up.1.natAbs < v.natAbs := natAbs_upperPart_lt v h
    loadConst d up.1
      ++ (OpImm.slli.encode d d up.2, "slli " ++ r ++ ", " ++ r ++ ", " ++ toString up.2)
      :: add .addi
termination_by v.natAbs

end SeaNodes.RiscV
