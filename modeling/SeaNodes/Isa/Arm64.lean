import SeaNodes.Asm.Arm64
import SeaNodes.Isa.Basic

namespace SeaNodes.Arm64

/-- The number of the first float register. -/
def floatBase : Reg := 32

def flagsReg : Reg := 64

def regNames : Array String :=
  ((List.range 31).map fun i => "x" ++ toString i).toArray ++ #["sp"]
    ++ ((List.range 32).map fun i => "d" ++ toString i).toArray ++ #["nzcv"]

def int? (r : Reg) : Option Num := if r < 31 then some (.ofNat r) else none

def float? (r : Reg) : Option Num :=
  if floatBase ≤ r ∧ r < floatBase + 32 then some (.ofNat (r - floatBase)) else none

/-- The float registers that a call may change. -/
def volatileFloat : RegMask :=
  (RegMask.range floatBase (floatBase + 8)).union (.range (floatBase + 16) (floatBase + 32))

def file : RegFile where
  names := regNames
  int := .range 0 16
  float := volatileFloat
  scratch := .range 16 18
  flags := some flagsReg

def conv : CallConv where
  intArgs := List.range 8
  floatArgs := List.range' floatBase 8
  positional := false
  intRet := 0
  floatRet := floatBase
  shadow := 0
  clobbers := (((RegMask.range 0 19).insert 30).union volatileFloat).insert flagsReg

/-- How the flags are set. -/
inductive Compare where
  /-- `cmp u0, u1` -/
  | regs
  /-- `cmp u0, #imm`, or `cmn` for a negative one. -/
  | imm (v : Int64)
  /-- `fcmp u0, u1` -/
  | float
deriving DecidableEq, Inhabited

structure Test where
  compare : Compare
  cond : Cond
deriving DecidableEq, Inhabited

def condOf : CmpOp → Cond
  | .eq => .eq
  | .ne => .ne
  | .lt => .lt
  | .le => .le

/-- Constants that additions and comparisons take; a negative one is taken by the opposite
instruction. -/
def fitsImmediate (v : Int64) : Bool := -4095 ≤ v && v ≤ 4095

def intTest (op : CmpOp) (a b : Option Int64) : Test × List Side :=
  match a.filter fitsImmediate, b.filter fitsImmediate with
  | _, some v => (⟨.imm v, condOf op⟩, [.left])
  | some v, none => (⟨.imm v, (condOf op).swap⟩, [.right])
  | none, none => (⟨.regs, condOf op⟩, [.left, .right])

/-- The conditions for orders fail on unordered operands. -/
def floatTest (op : CmpOp) : Test × List Side :=
  let cond := match op with
    | .eq => .eq
    | .ne => .ne
    | .lt => .mi
    | .le => .ls
  (⟨.float, cond⟩, [.left, .right])

def immediate? (op : AluOp) (v : Int64) : Option (AluOp × Int64) :=
  match op with
  | .add => if fitsImmediate v then some (.add, v) else none
  | .sub => if fitsImmediate v then some (.add, -v) else none
  | .shl | .shr | .sar => some (op, v &&& 63)
  | _ => none

def constrain (i : Inst Test) : Inst Test :=
  match i.op with
  | .setIf _ | .branch .. => { i with kill := file.flagMask }
  | _ => i

def aluName : AluOp → String
  | .add => "add"
  | .sub => "sub"
  | .mul => "mul"
  | .div => "sdiv"
  | .and => "and"
  | .or => "orr"
  | .xor => "eor"
  | .shl => "lsl"
  | .shr => "lsr"
  | .sar => "asr"

def opText (op : MachOp Test) : String :=
  op.sharedText?.getD <|
    match op with
    | .const v => "mov #" ++ toString v
    | .loadPool e => "ldr " ++ e.text
    | .zeroFloat => "fmov 0"
    | .alu o => aluName o
    | .aluImm o v => aluName o ++ " #" ++ toString v
    | .setIf t => "cset " ++ t.cond.name
    | .floatArith o => "f" ++ o.name
    | .toFloat => "scvtf"
    | .load _ d => "ldr " ++ dispText d
    | .store _ d => "str " ++ dispText d
    | .branch t a b => "b." ++ t.cond.name ++ " " ++ targetsText a b
    | .jump b => "b " ++ blockLabel b
    | .call i => "bl " ++ (RelocTarget.function i).text
    | .callSymbol s => "blr " ++ s
    | _ => ""

def frame? (slots outgoing : UInt32) (calls : Bool) : Option Frame := do
  let body := Frame.align16 (← Frame.body? slots outgoing)
  guard (body < 0x1000000)
  let size := if calls then body + 16 else body
  return { size, spillBase := outgoing, incoming := size, savesLink := calls }

/-- The bytes below the frame pointer and the return address. -/
def bodySize (f : Frame) : UInt32 := if f.savesLink then f.size - 16 else f.size

/-- Moves the stack pointer by up to 24 bits. -/
def moveSp (mnemonic : String) (encode : Num → Num → UInt32 → Bool → UInt32) (bytes : UInt32) :
    List Item :=
  let hi := bytes >>> 12
  let lo := bytes &&& 0xfff
  let text (v : UInt32) : String := mnemonic ++ " sp, sp, #" ++ toString v
  (if hi = 0 then [] else [.word (encode sp sp hi true) (text hi ++ ", lsl #12")])
    ++ (if lo = 0 then [] else [.word (encode sp sp lo false) (text lo)])

def prologue (f : Frame) : List Item :=
  (if f.savesLink then
      [.word pushFrame "stp x29, x30, [sp, #-16]!",
        .word (addImm framePointer sp 0 false) "mov x29, sp"]
    else [])
    ++ moveSp "sub" subImm (bodySize f)

def int (r : Reg) : Except Fault Num :=
  match int? r with
  | some n => .ok n
  | none => .error (.internal .encode none (.wrongBank r "an integer register"))

def float (r : Reg) : Except Fault Num :=
  match float? r with
  | some n => .ok n
  | none => .error (.internal .encode none (.wrongBank r "an FP register"))

def listText (mnemonic : String) (operands : List String) : String :=
  mnemonic ++ " " ++ ", ".intercalate operands

def rname (r : Reg) : String := file.name r

def baseName (n : Num) : String := if n = sp then "sp" else "x" ++ toString n

def number (c : RegClass) (r : Reg) : Except Fault Num :=
  match c with
  | .int => int r
  | .float => float r

/-- A load or store. -/
structure Access where
  mnemonic : String
  /-- The word for a constant offset. -/
  scaled : RegClass → Num → Num → UInt32 → UInt32
  /-- The instruction for an offset in a register. -/
  summed : RegClass → Op3

def loading : Access where
  mnemonic := "ldr"
  scaled
    | .int => ldrImm
    | .float => ldrDImm
  summed
    | .int => .ldr
    | .float => .ldrD

def storing : Access where
  mnemonic := "str"
  scaled
    | .int => strImm
    | .float => strDImm
  summed
    | .int => .str
    | .float => .strD

namespace Access

def text (k : Access) (t : Reg) (base : Num) (offset : String) : String :=
  listText k.mnemonic [rname t, "[" ++ baseName base, offset ++ "]"]

/-- At the sum of two registers. -/
def indexed (k : Access) (c : RegClass) (t : Reg) (base index : Num) : Except Fault Item := do
  let n ← number c t
  return .word ((k.summed c).encode n base index) (k.text t base ("x" ++ toString index))

/-- At a constant offset, by way of the scratch register if it is too large. -/
def atOffset (k : Access) (c : RegClass) (t : Reg) (base : Num) (offset : Int64) :
    Except Fault (List Item) := do
  if fitsScaled offset then
    let n ← number c t
    return [.word (k.scaled c n base offset.toUInt64.toUInt32)
      (k.text t base ("#" ++ toString offset))]
  else
    let address := (movImm scratch offset).map fun (w, text) => Item.word w text
    return address ++ [← k.indexed c t base scratch]

end Access

/-- Sets the flags. -/
def compareItem (c : Compare) (regs : OperandRegs) : Except Fault Item := do
  let a := rname (regs.u 0)
  let b := rname (regs.u 1)
  match c with
  | .regs =>
    let n ← int (regs.u 0)
    return .word (cmp n (← int (regs.u 1))) (listText "cmp" [a, b])
  | .imm v =>
    let n ← int (regs.u 0)
    if 0 ≤ v then
      return .word (cmpImm n v.toUInt64.toUInt32) (listText "cmp" [a, "#" ++ toString v])
    else return .word (cmnImm n (-v).toUInt64.toUInt32) (listText "cmn" [a, "#" ++ toString (-v)])
  | .float =>
    let n ← float (regs.u 0)
    return .word (fcmp n (← float (regs.u 1))) (listText "fcmp" [a, b])

def jumpItem (target : Nat) : Item :=
  .relocated .a64Branch26 (.block target) b ("b " ++ blockLabel target)

def branchPiece (c : Cond) (target : Nat) : Piece :=
  .sized
    [.relocated .a64Branch19 (.block target) (bCond c 0)
      ("b." ++ c.name ++ " " ++ blockLabel target)]
    [.word (bCond c.invert 2) ("b." ++ c.invert.name ++ " .+8"), jumpItem target]

/-- Goes to `b`, by a jump unless it comes next. -/
def reach (s : Surroundings) (b : Nat) : List Piece :=
  if s.fallsTo b then [] else [.fixed (jumpItem b)]

def branchPieces (s : Surroundings) (c : Cond) (t f : Nat) : List Piece :=
  if s.fallsTo t then [branchPiece c.invert f] else branchPiece c t :: reach s f

/-- Loads a pool word, by way of its page if it is out of reach. -/
def poolPiece (e : PoolEntry) (literal low : UInt32) (dst : String) : Piece :=
  .sized
    [.relocated .a64Branch19 (.pool e) literal (listText "ldr" [dst, e.text])]
    [.relocated (.a64AdrpLo12 3) (.pool e) (adrp scratch) (listText "adrp" ["x16", e.text]),
      .word low (listText "ldr" [dst, "[x16", ":lo12:" ++ e.text ++ "]"])]

def op3Of : AluOp → Op3
  | .add => .add
  | .sub => .sub
  | .mul => .mul
  | .div => .sdiv
  | .and => .and
  | .or => .orr
  | .xor => .eor
  | .shl => .lslv
  | .shr => .lsrv
  | .sar => .asrv

def floatOp3Of : ArithOp → Op3
  | .add => .fadd
  | .sub => .fsub
  | .mul => .fmul
  | .div => .fdiv

def aluImmItem (op : AluOp) (v : Int64) (regs : OperandRegs) : Except Fault Item := do
  let d ← int (regs.d 0)
  let n ← int (regs.u 0)
  let text (mnemonic : String) (v : Int64) : String :=
    listText mnemonic [rname (regs.d 0), rname (regs.u 0), "#" ++ toString v]
  let imm := v.toUInt64.toUInt32
  match op with
  | .add =>
    if 0 ≤ v then return .word (addImm d n imm false) (text "add" v)
    else return .word (subImm d n (-v).toUInt64.toUInt32 false) (text "sub" (-v))
  | .shl => return .word (lslImm d n imm) (text "lsl" v)
  | .shr => return .word (lsrImm d n imm) (text "lsr" v)
  | .sar => return .word (asrImm d n imm) (text "asr" v)
  | op => throw (.internal .encode none (.noInstruction (opText (.aluImm op v))))

def expand (s : Surroundings) (op : MachOp Test) (regs : OperandRegs) :
    Except Fault (List Piece) := do
  let fixed (l : List Item) : List Piece := l.map .fixed
  let one (w : UInt32) (mnemonic : String) (operands : List String) : List Piece :=
    [.fixed (.word w (listText mnemonic operands))]
  let d := rname (regs.d 0)
  let u := rname (regs.u 0)
  let u' := rname (regs.u 1)
  match op with
  | .params => return []
  | .copy .int =>
    let n ← int (regs.d 0)
    return one (mov n (← int (regs.u 0))) "mov" [d, u]
  | .copy .float =>
    let n ← float (regs.d 0)
    return one (fmov n (← float (regs.u 0))) "fmov" [d, u]
  | .spill c slot =>
    return fixed (← storing.atOffset c (regs.u 0) sp (.ofNat (s.frame.slot slot).toNat))
  | .reload c slot =>
    return fixed (← loading.atOffset c (regs.d 0) sp (.ofNat (s.frame.slot slot).toNat))
  | .loadParam c o =>
    return fixed (← loading.atOffset c (regs.d 0) sp (.ofNat (s.frame.incoming + o).toNat))
  | .storeArg c o => return fixed (← storing.atOffset c (regs.u 0) sp (.ofNat o.toNat))
  | .const v => return (movImm (← int (regs.d 0)) v).map fun (w, text) => .fixed (.word w text)
  | .loadPool e =>
    let t ← float (regs.d 0)
    return [poolPiece e (ldrDLit t) (ldrDImm t scratch 0) d]
  | .zeroFloat => return one (fmovX (← float (regs.d 0)) zr) "fmov" [d, "xzr"]
  | .alu o =>
    let rd ← int (regs.d 0)
    let rn ← int (regs.u 0)
    return one ((op3Of o).encode rd rn (← int (regs.u 1))) (aluName o) [d, u, u']
  | .aluImm o v => return fixed [← aluImmItem o v regs]
  | .neg =>
    let rd ← int (regs.d 0)
    return one (Op3.sub.encode rd zr (← int (regs.u 0))) "neg" [d, u]
  | .setIf t =>
    let c ← compareItem t.compare regs
    return .fixed c :: one (cset (← int (regs.d 0)) t.cond) "cset" [d, t.cond.name]
  | .floatArith o =>
    let rd ← float (regs.d 0)
    let rn ← float (regs.u 0)
    return one ((floatOp3Of o).encode rd rn (← float (regs.u 1))) ("f" ++ o.name) [d, u, u']
  | .toFloat =>
    let rd ← float (regs.d 0)
    return one (scvtf rd (← int (regs.u 0))) "scvtf" [d, u]
  | .load c disp =>
    let base ← int (regs.u 0)
    match disp with
    | some o => return fixed (← loading.atOffset c (regs.d 0) base o)
    | none => return fixed [← loading.indexed c (regs.d 0) base (← int (regs.u 1))]
  | .store c disp =>
    let base ← int (regs.u 0)
    match disp with
    | some o => return fixed (← storing.atOffset c (regs.u 1) base o)
    | none => return fixed [← storing.indexed c (regs.u 2) base (← int (regs.u 1))]
  | .branch t a b =>
    let c ← compareItem t.compare regs
    return .fixed c :: branchPieces s t.cond a b
  | .jump b => return reach s b
  | .ret =>
    let link : List Item :=
      if s.frame.savesLink then [.word popFrame "ldp x29, x30, [sp], #16"] else []
    return fixed (moveSp "add" addImm (bodySize s.frame) ++ link ++ [.word ret "ret"])
  | .call i =>
    return fixed [.relocated .a64Branch26 (.function i) bl ("bl " ++ s.callee i)]
  | .callSymbol name =>
    return [poolPiece (.symbol name) (ldrLit scratch) (ldrImm scratch scratch 0) "x16",
      .fixed (.word (blr scratch) "blr x16")]

/-- AArch64 with its one convention. -/
def isa : Isa Test where
  target := ⟨.arm64, .aapcs64⟩
  file := file
  conv := conv
  immediate? := immediate?
  fitsOffset := fitsScaled
  intTest := intTest
  floatTest := floatTest
  constrain := constrain
  opText := opText
  frame? := frame?
  prologue := prologue
  expand := expand

end SeaNodes.Arm64
