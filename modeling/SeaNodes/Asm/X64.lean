import SeaNodes.Code.Reloc

namespace SeaNodes.X64

/-- A general-purpose register by its hardware number. -/
abbrev Gpr := Fin 16

/-- A vector register by its hardware number. -/
abbrev Xmm := Fin 16

def rax : Gpr := 0
def rcx : Gpr := 1
def rdx : Gpr := 2
def rsp : Gpr := 4
def r11 : Gpr := 11

def gprNames : Array String :=
  #["rax", "rcx", "rdx", "rbx", "rsp", "rbp", "rsi", "rdi", "r8", "r9", "r10", "r11", "r12",
    "r13", "r14", "r15"]

def gprNames32 : Array String :=
  #["eax", "ecx", "edx", "ebx", "esp", "ebp", "esi", "edi", "r8d", "r9d", "r10d", "r11d", "r12d",
    "r13d", "r14d", "r15d"]

def gprNames8 : Array String :=
  #["al", "cl", "dl", "bl", "spl", "bpl", "sil", "dil", "r8b", "r9b", "r10b", "r11b", "r12b",
    "r13b", "r14b", "r15b"]

def Gpr.name (r : Gpr) : String := gprNames.getD r "?"
def Gpr.name32 (r : Gpr) : String := gprNames32.getD r "?"
def Gpr.name8 (r : Gpr) : String := gprNames8.getD r "?"
def Xmm.name (r : Xmm) : String := "xmm" ++ toString r.val

/-- The three bits of a register number that stand in a ModR/M or SIB byte. -/
def low (r : Fin 16) : UInt8 := (r.val % 8).toUInt8

/-- The bit of a register number that stands in the REX byte. -/
def high (r : Fin 16) : Bool := 8 ≤ r.val

/-- The base registers that are only encoded with a SIB byte. -/
def needsSib (r : Gpr) : Bool := low r == 4

/-- The base registers that are only encoded with a displacement. -/
def needsDisp (r : Gpr) : Bool := low r == 5

/-- The registers whose low byte is only reached with a REX byte. -/
def byteNeedsRex (r : Gpr) : Bool := 4 ≤ r.val

def rexByte (w r x b : Bool) : UInt8 :=
  (0x40 : UInt8) ||| w.toUInt8 <<< 3 ||| r.toUInt8 <<< 2 ||| x.toUInt8 <<< 1 ||| b.toUInt8

/-- The REX byte, left out when no field of it is set. -/
def rex (w r x b : Bool) : List UInt8 := if w || r || x || b then [rexByte w r x b] else []

def modrm (mode reg rm : UInt8) : UInt8 := mode <<< 6 ||| (reg &&& 7) <<< 3 ||| rm &&& 7

def sib (scale index base : UInt8) : UInt8 := scale <<< 6 ||| (index &&& 7) <<< 3 ||| base &&& 7

def imm8 (v : Int32) : List UInt8 := [v.toUInt32.toUInt8]

def imm32 (v : Int32) : List UInt8 := bytes32 v.toUInt32

def fitsByte (v : Int32) : Bool := -128 ≤ v && v ≤ 127

/-- An instruction on two registers, of which `reg` stands in the register field. -/
def direct (w : Bool) (opcode : List UInt8) (reg rm : Fin 16) : List UInt8 :=
  rex w (high reg) false (high rm) ++ opcode ++ [modrm 3 (low reg) (low rm)]

def directByte (opcode : List UInt8) (reg rm : Gpr) : List UInt8 :=
  (if byteNeedsRex reg || byteNeedsRex rm then [rexByte false (high reg) false (high rm)] else [])
    ++ opcode ++ [modrm 3 (low reg) (low rm)]

/-- The operand `[base + index * 2 ^ scale + disp]`; without a base it is relative to the next
instruction. -/
structure Mem where
  base : Option Gpr := none
  index : Option Gpr := none
  scale : Fin 4 := 0
  disp : Int32 := 0
deriving DecidableEq, Inhabited

namespace Mem

def atReg (base : Gpr) (disp : Int32) : Mem := { base := some base, disp }

def indexed (base index : Gpr) : Mem := { base := some base, index := some index }

/-- Relative to the next instruction. -/
def relative : Mem := {}

def text (m : Mem) : String :=
  let times := "*" ++ toString (Nat.pow 2 m.scale.val)
  let place := match m.base, m.index with
    | none, none => "rip+"
    | some b, none => b.name
    | some b, some i => b.name ++ "+" ++ i.name ++ times
    | none, some i => i.name ++ times
  let disp :=
    if m.disp = 0 ∧ m.base.isSome then ""
    else if m.disp < 0 then "-" ++ toString (-m.disp.toInt)
    else if m.base.isNone ∧ m.index.isNone then toString m.disp
    else "+" ++ toString m.disp
  "[" ++ place ++ disp ++ "]"

/-- The two bits of the ModR/M byte that give the width of the displacement. -/
def mode (base : Gpr) (disp : Int32) : UInt8 :=
  if disp == 0 && !needsDisp base then 0 else if fitsByte disp then 1 else 2

def dispBytes (mode : UInt8) (disp : Int32) : List UInt8 :=
  if mode == 1 then imm8 disp else if mode == 2 then imm32 disp else []

def operandBytes (reg : Fin 16) (m : Mem) : List UInt8 :=
  match m.base, m.index with
  | none, _ => modrm 0 (low reg) 5 :: imm32 m.disp
  | some base, none =>
    let mode := mode base m.disp
    (if needsSib base then [modrm mode (low reg) 4, sib 0 4 (low base)]
      else [modrm mode (low reg) (low base)]) ++ dispBytes mode m.disp
  | some base, some index =>
    let mode := mode base m.disp
    modrm mode (low reg) 4 :: sib m.scale.val.toUInt8 (low index) (low base)
      :: dispBytes mode m.disp

end Mem

def memory (before : List UInt8) (w : Bool) (opcode : List UInt8) (reg : Fin 16) (m : Mem) :
    List UInt8 :=
  before ++ rex w (high reg) (m.index.any high) (m.base.any high) ++ opcode ++ m.operandBytes reg

/-- The operations that share one group of opcodes. -/
inductive Alu where
  | add | or | and | sub | xor | cmp
deriving DecidableEq, Inhabited

namespace Alu

def name : Alu → String
  | .add => "add"
  | .or => "or"
  | .and => "and"
  | .sub => "sub"
  | .xor => "xor"
  | .cmp => "cmp"

/-- The place in the group. -/
def digit : Alu → Fin 16
  | .add => 0
  | .or => 1
  | .and => 4
  | .sub => 5
  | .xor => 6
  | .cmp => 7

def ofName? (s : String) : Option Alu :=
  [.add, .or, .and, .sub, .xor, .cmp].find? (·.name == s)

def regs (op : Alu) (dst src : Gpr) : List UInt8 :=
  direct true [8 * op.digit.val.toUInt8 + 1] src dst

/-- On 32 bits, which clears the upper half. -/
def regs32 (op : Alu) (dst src : Gpr) : List UInt8 :=
  direct false [8 * op.digit.val.toUInt8 + 1] src dst

def lowBytes (op : Alu) (dst src : Gpr) : List UInt8 :=
  directByte [8 * op.digit.val.toUInt8] src dst

def imm (op : Alu) (dst : Gpr) (v : Int32) : List UInt8 :=
  if fitsByte v then direct true [0x83] op.digit dst ++ imm8 v
  else direct true [0x81] op.digit dst ++ imm32 v

end Alu

def testRegs (a b : Gpr) : List UInt8 := direct true [0x85] b a
def movRegs (dst src : Gpr) : List UInt8 := direct true [0x89] src dst
def imulRegs (dst src : Gpr) : List UInt8 := direct true [0x0f, 0xaf] dst src
def movzxByte (dst src : Gpr) : List UInt8 := direct true [0x0f, 0xb6] dst src

def imulImm (dst src : Gpr) (v : Int32) : List UInt8 :=
  if fitsByte v then direct true [0x6b] dst src ++ imm8 v
  else direct true [0x69] dst src ++ imm32 v

def negReg (r : Gpr) : List UInt8 := direct true [0xf7] 3 r

/-- Divides `rdx:rax`. -/
def idivReg (r : Gpr) : List UInt8 := direct true [0xf7] 7 r

/-- Extends the sign of `rax` into `rdx`. -/
def cqo : List UInt8 := [0x48, 0x99]

inductive Shift where
  | shl | shr | sar
deriving DecidableEq, Inhabited

namespace Shift

def name : Shift → String
  | .shl => "shl"
  | .shr => "shr"
  | .sar => "sar"

def digit : Shift → Fin 16
  | .shl => 4
  | .shr => 5
  | .sar => 7

def ofName? (s : String) : Option Shift := [.shl, .shr, .sar].find? (·.name == s)

/-- By a constant; a shift by one has a form of its own. -/
def imm (k : Shift) (r : Gpr) (count : UInt8) : List UInt8 :=
  if count == 1 then direct true [0xd1] k.digit r else direct true [0xc1] k.digit r ++ [count]

def byCl (k : Shift) (r : Gpr) : List UInt8 := direct true [0xd3] k.digit r

end Shift

def movLoad (dst : Gpr) (m : Mem) : List UInt8 := memory [] true [0x8b] dst m
def movStore (m : Mem) (src : Gpr) : List UInt8 := memory [] true [0x89] src m

def movImm64 (dst : Gpr) (v : Int64) : List UInt8 :=
  rex true false false (high dst) ++ [0xb8 + low dst] ++ wordBytes v.toUInt64

/-- Clears the upper half. -/
def movImm32 (dst : Gpr) (v : UInt32) : List UInt8 :=
  rex false false false (high dst) ++ [0xb8 + low dst] ++ bytes32 v

def movImmSigned (dst : Gpr) (v : Int32) : List UInt8 := direct true [0xc7] 0 dst ++ imm32 v

/-- The shortest move of a constant that leaves the flags alone. -/
def movImm (dst : Gpr) (v : Int64) : List UInt8 :=
  if 0 ≤ v && v < 0x100000000 then movImm32 dst v.toUInt64.toUInt32
  else if -0x80000000 ≤ v && v < 0x80000000 then movImmSigned dst v.toInt32
  else movImm64 dst v

inductive Cond where
  | below | aboveEqual | equal | notEqual | belowEqual | above | parity | noParity
  | less | greaterEqual | lessEqual | greater
deriving DecidableEq, Inhabited

namespace Cond

def code : Cond → UInt8
  | .below => 0x2
  | .aboveEqual => 0x3
  | .equal => 0x4
  | .notEqual => 0x5
  | .belowEqual => 0x6
  | .above => 0x7
  | .parity => 0xa
  | .noParity => 0xb
  | .less => 0xc
  | .greaterEqual => 0xd
  | .lessEqual => 0xe
  | .greater => 0xf

def suffix : Cond → String
  | .below => "b"
  | .aboveEqual => "ae"
  | .equal => "e"
  | .notEqual => "ne"
  | .belowEqual => "be"
  | .above => "a"
  | .parity => "p"
  | .noParity => "np"
  | .less => "l"
  | .greaterEqual => "ge"
  | .lessEqual => "le"
  | .greater => "g"

/-- The spelling in dumps. -/
def word : Cond → String
  | .below => "Below"
  | .aboveEqual => "AboveEqual"
  | .equal => "Equal"
  | .notEqual => "NotEqual"
  | .belowEqual => "BelowEqual"
  | .above => "Above"
  | .parity => "Parity"
  | .noParity => "NoParity"
  | .less => "Less"
  | .greaterEqual => "GreaterEqual"
  | .lessEqual => "LessEqual"
  | .greater => "Greater"

/-- Holds exactly when this one fails. -/
def invert : Cond → Cond
  | .below => .aboveEqual
  | .aboveEqual => .below
  | .equal => .notEqual
  | .notEqual => .equal
  | .belowEqual => .above
  | .above => .belowEqual
  | .parity => .noParity
  | .noParity => .parity
  | .less => .greaterEqual
  | .greaterEqual => .less
  | .lessEqual => .greater
  | .greater => .lessEqual

/-- The condition for the operands in the other order. -/
def swap : Cond → Cond
  | .below => .above
  | .above => .below
  | .aboveEqual => .belowEqual
  | .belowEqual => .aboveEqual
  | .less => .greater
  | .greater => .less
  | .lessEqual => .greaterEqual
  | .greaterEqual => .lessEqual
  | c => c

def ofSuffix? (s : String) : Option Cond :=
  [.below, .aboveEqual, .equal, .notEqual, .belowEqual, .above, .parity, .noParity, .less,
    .greaterEqual, .lessEqual, .greater].find? (·.suffix == s)

end Cond

def setIf (c : Cond) (r : Gpr) : List UInt8 :=
  (if byteNeedsRex r then [rexByte false false false (high r)] else [])
    ++ [0x0f, 0x90 + c.code, modrm 3 0 (low r)]

def jumpShort : List UInt8 := [0xeb, 0]
def jumpLong : List UInt8 := 0xe9 :: imm32 0
def jumpIfShort (c : Cond) : List UInt8 := [0x70 + c.code, 0]
def jumpIfLong (c : Cond) : List UInt8 := 0x0f :: (0x80 + c.code) :: imm32 0
def callNear : List UInt8 := 0xe8 :: imm32 0
def callMem (m : Mem) : List UInt8 := memory [] false [0xff] 2 m
def ret : List UInt8 := [0xc3]

def sseRegs (before opcode : UInt8) (w : Bool) (dst src : Fin 16) : List UInt8 :=
  before :: direct w [0x0f, opcode] dst src

/-- Instructions on two vector registers. -/
inductive Sse where
  | movsd | addsd | subsd | mulsd | divsd | ucomisd | xorpd
deriving DecidableEq, Inhabited

namespace Sse

def name : Sse → String
  | .movsd => "movsd"
  | .addsd => "addsd"
  | .subsd => "subsd"
  | .mulsd => "mulsd"
  | .divsd => "divsd"
  | .ucomisd => "ucomisd"
  | .xorpd => "xorpd"

def ofName? (s : String) : Option Sse :=
  [.movsd, .addsd, .subsd, .mulsd, .divsd, .ucomisd, .xorpd].find? (·.name == s)

def regs (op : Sse) (dst src : Xmm) : List UInt8 :=
  match op with
  | .movsd => sseRegs 0xf2 0x10 false dst src
  | .addsd => sseRegs 0xf2 0x58 false dst src
  | .subsd => sseRegs 0xf2 0x5c false dst src
  | .mulsd => sseRegs 0xf2 0x59 false dst src
  | .divsd => sseRegs 0xf2 0x5e false dst src
  | .ucomisd => sseRegs 0x66 0x2e false dst src
  | .xorpd => sseRegs 0x66 0x57 false dst src

end Sse

def movsdLoad (dst : Xmm) (m : Mem) : List UInt8 := memory [0xf2] false [0x0f, 0x10] dst m
def movsdStore (m : Mem) (src : Xmm) : List UInt8 := memory [0xf2] false [0x0f, 0x11] src m
def cvtsi2sd (dst : Xmm) (src : Gpr) : List UInt8 := sseRegs 0xf2 0x2a true dst src

end SeaNodes.X64
