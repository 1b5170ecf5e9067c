import SeaNodes.Hex
import SeaNodes.Code.Piece

namespace SeaNodes.Arm64

/-- A hardware register number, as the instructions hold it. -/
abbrev Num := UInt32

def sp : Num := 31
def zr : Num := 31
def framePointer : Num := 29

/-- The register that sequences of several instructions may use. -/
def scratch : Num := 16

def field (r : Num) (shift : UInt32) : UInt32 := r <<< shift

/-- Instructions on three registers. -/
inductive Op3 where
  | add | sub | and | orr | eor | mul | sdiv | lslv | lsrv | asrv
  | fadd | fsub | fmul | fdiv
  /-- Loads and stores at the sum of two registers. -/
  | ldr | str | ldrD | strD
deriving DecidableEq, Inhabited

namespace Op3

def name : Op3 → String
  | .add => "add"
  | .sub => "sub"
  | .and => "and"
  | .orr => "orr"
  | .eor => "eor"
  | .mul => "mul"
  | .sdiv => "sdiv"
  | .lslv => "lslv"
  | .lsrv => "lsrv"
  | .asrv => "asrv"
  | .fadd => "fadd"
  | .fsub => "fsub"
  | .fmul => "fmul"
  | .fdiv => "fdiv"
  | .ldr => "ldr"
  | .str => "str"
  | .ldrD => "ldr_d"
  | .strD => "str_d"

def ofName? (s : String) : Option Op3 :=
  [.add, .sub, .and, .orr, .eor, .mul, .sdiv, .lslv, .lsrv, .asrv, .fadd, .fsub, .fmul, .fdiv,
    .ldr, .str, .ldrD, .strD].find? (·.name == s)

def base : Op3 → UInt32
  | .add => 0x8b000000
  | .sub => 0xcb000000
  | .and => 0x8a000000
  | .orr => 0xaa000000
  | .eor => 0xca000000
  | .mul => 0x9b007c00
  | .sdiv => 0x9ac00c00
  | .lslv => 0x9ac02000
  | .lsrv => 0x9ac02400
  | .asrv => 0x9ac02800
  | .fadd => 0x1e602800
  | .fsub => 0x1e603800
  | .fmul => 0x1e600800
  | .fdiv => 0x1e601800
  | .ldr => 0xf8606800
  | .str => 0xf8206800
  | .ldrD => 0xfc606800
  | .strD => 0xfc206800

def encode (op : Op3) (d n m : Num) : UInt32 := op.base ||| field m 16 ||| field n 5 ||| field d 0

end Op3

def mov (d m : Num) : UInt32 := Op3.orr.encode d zr m
def cmp (n m : Num) : UInt32 := 0xeb00001f ||| field m 16 ||| field n 5
def fcmp (n m : Num) : UInt32 := 0x1e602000 ||| field m 16 ||| field n 5
def fmov (d n : Num) : UInt32 := 0x1e604000 ||| field n 5 ||| field d 0

/-- From an integer register. -/
def fmovX (d n : Num) : UInt32 := 0x9e670000 ||| field n 5 ||| field d 0

def scvtf (d n : Num) : UInt32 := 0x9e620000 ||| field n 5 ||| field d 0

/-- An instruction with an immediate of 12 bits. -/
def imm12 (base imm : UInt32) (d n : Num) : UInt32 :=
  base ||| (imm &&& 0xfff) <<< 10 ||| field n 5 ||| field d 0

/-- Adds an immediate, which may be shifted by 12 bits. -/
def addImm (d n : Num) (imm : UInt32) (shifted : Bool) : UInt32 :=
  imm12 (if shifted then 0x91400000 else 0x91000000) imm d n

def subImm (d n : Num) (imm : UInt32) (shifted : Bool) : UInt32 :=
  imm12 (if shifted then 0xd1400000 else 0xd1000000) imm d n

def cmpImm (n : Num) (imm : UInt32) : UInt32 := imm12 0xf1000000 imm zr n

/-- Compares with the negated immediate. -/
def cmnImm (n : Num) (imm : UInt32) : UInt32 := imm12 0xb1000000 imm zr n

/-- A move of a field of bits. -/
def bitfield (base : UInt32) (d n : Num) (immr imms : UInt32) : UInt32 :=
  base ||| (immr &&& 63) <<< 16 ||| (imms &&& 63) <<< 10 ||| field n 5 ||| field d 0

def lslImm (d n : Num) (s : UInt32) : UInt32 :=
  let s := s &&& 63
  bitfield 0xd3400000 d n (64 - s) (63 - s)

def lsrImm (d n : Num) (s : UInt32) : UInt32 := bitfield 0xd3400000 d n s 63
def asrImm (d n : Num) (s : UInt32) : UInt32 := bitfield 0x93400000 d n s 63

/-- Whether a load or store takes a constant offset. -/
def fitsScaled (offset : Int64) : Bool := 0 ≤ offset && offset % 8 == 0 && offset < 32768

/-- A load or store at an offset that fits. -/
def scaled (base : UInt32) (t n : Num) (offset : UInt32) : UInt32 := imm12 base (offset >>> 3) t n

def ldrImm : Num → Num → UInt32 → UInt32 := scaled 0xf9400000
def strImm : Num → Num → UInt32 → UInt32 := scaled 0xf9000000
def ldrDImm : Num → Num → UInt32 → UInt32 := scaled 0xfd400000
def strDImm : Num → Num → UInt32 → UInt32 := scaled 0xfd000000

/-- Half word `i` of a word. -/
def half (v : UInt64) (i : Nat) : UInt32 := (v >>> (16 * i).toUInt64).toUInt32 &&& 0xffff

def movHalf (base : UInt32) (d : Num) (imm : UInt32) (i : Nat) : UInt32 :=
  base ||| (i.toUInt32 &&& 3) <<< 21 ||| (imm &&& 0xffff) <<< 5 ||| field d 0

def halfText (mnemonic : String) (d : Num) (imm : UInt32) (i : Nat) : String :=
  mnemonic ++ " x" ++ toString d ++ ", #" ++ Hex.marked imm.toNat ++ ", lsl "
    ++ toString (16 * i)

/-- The shortest sequence of half-word moves of a constant, with its lines in the listing. The
first move clears or sets all other half words, whichever saves more. -/
def movImm (d : Num) (v : Int64) : List (UInt32 × String) :=
  let v := v.toUInt64
  let count (h : UInt32) : Nat := ((List.range 4).filter (half v · == h)).length
  let inverted := count 0 < count 0xffff
  let skip := if inverted then 0xffff else 0
  let first := ((List.range 4).find? (half v · != skip)).getD 0
  let start :=
    if inverted then
      let imm := ~~~(half v first) &&& 0xffff
      (movHalf 0x92800000 d imm first, halfText "movn" d imm first)
    else (movHalf 0xd2800000 d (half v first) first, halfText "movz" d (half v first) first)
  let rest := (List.range 4).filter fun i => first < i && half v i != skip
  start :: rest.map fun i =>
    (movHalf 0xf2800000 d (half v i) i, halfText "movk" d (half v i) i)

def ldrLit (t : Num) : UInt32 := 0x58000000 ||| field t 0
def ldrDLit (t : Num) : UInt32 := 0x5c000000 ||| field t 0
def adrp (d : Num) : UInt32 := 0x90000000 ||| field d 0
def b : UInt32 := 0x14000000
def bl : UInt32 := 0x94000000
def blr (n : Num) : UInt32 := 0xd63f0000 ||| field n 5
def ret : UInt32 := 0xd65f03c0

def pushFrame : UInt32 := 0xa9bf7bfd
def popFrame : UInt32 := 0xa8c17bfd

inductive Cond where
  | eq | ne | hs | lo | mi | pl | hi | ls | ge | lt | gt | le
deriving DecidableEq, Inhabited

namespace Cond

def name : Cond → String
  | .eq => "eq"
  | .ne => "ne"
  | .hs => "hs"
  | .lo => "lo"
  | .mi => "mi"
  | .pl => "pl"
  | .hi => "hi"
  | .ls => "ls"
  | .ge => "ge"
  | .lt => "lt"
  | .gt => "gt"
  | .le => "le"

def code : Cond → UInt32
  | .eq => 0
  | .ne => 1
  | .hs => 2
  | .lo => 3
  | .mi => 4
  | .pl => 5
  | .hi => 8
  | .ls => 9
  | .ge => 10
  | .lt => 11
  | .gt => 12
  | .le => 13

/-- Holds exactly when this one fails. -/
def invert : Cond → Cond
  | .eq => .ne
  | .ne => .eq
  | .hs => .lo
  | .lo => .hs
  | .mi => .pl
  | .pl => .mi
  | .hi => .ls
  | .ls => .hi
  | .ge => .lt
  | .lt => .ge
  | .gt => .le
  | .le => .gt

/-- The condition for the operands in the other order. -/
def swap : Cond → Cond
  | .ge => .le
  | .le => .ge
  | .gt => .lt
  | .lt => .gt
  | .hi => .lo
  | .lo => .hi
  | .hs => .ls
  | .ls => .hs
  | c => c

def ofName? (s : String) : Option Cond :=
  [.eq, .ne, .hs, .lo, .mi, .pl, .hi, .ls, .ge, .lt, .gt, .le].find? (·.name == s)

end Cond

/-- 1 if the condition holds, else 0. -/
def cset (d : Num) (c : Cond) : UInt32 :=
  (0x9a9f07e0 : UInt32) ||| c.invert.code <<< 12 ||| field d 0

def bCond (c : Cond) (words : Int) : UInt32 :=
  (0x54000000 : UInt32) ||| (word32 words &&& 0x7ffff) <<< 5 ||| c.code

end SeaNodes.Arm64
