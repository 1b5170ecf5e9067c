import SeaNodes.Asm.X64
import SeaNodes.Isa.Basic

namespace SeaNodes.X64

/-- The number of the first vector register. -/
def xmmBase : Reg := 16

def flagsReg : Reg := 32

def regNames : Array String :=
  gprNames ++ ((List.range 16).map fun i => "xmm" ++ toString i).toArray ++ #["flags"]

def gpr? (r : Reg) : Option Gpr := if h : r < 16 then some ⟨r, h⟩ else none

def xmm? (r : Reg) : Option Xmm := if r < xmmBase then none else gpr? (r - xmmBase)

/-- The vector registers from `lo` up to below `hi`. -/
def xmms (lo hi : Nat) : RegMask := .range (xmmBase + lo) (xmmBase + hi)

/-- The integer registers that a call may change. -/
def volatile : Abi → RegMask
  | .win64 => .ofList [0, 1, 2, 8, 9, 10, 11]
  | _ => .ofList [0, 1, 2, 6, 7, 8, 9, 10, 11]

/-- Only registers that a call may change are given to values, so none has to be saved. -/
def file (abi : Abi) : RegFile where
  names := regNames
  int := (volatile abi).erase r11
  float := match abi with
    | .win64 => xmms 0 6
    | _ => xmms 0 15
  scratch := .ofList [r11, xmmBase + 15]
  flags := some flagsReg

def conv : Abi → CallConv
  | .win64 => {
      intArgs := [1, 2, 8, 9]
      floatArgs := [16, 17, 18, 19]
      positional := true
      intRet := 0
      floatRet := xmmBase
      shadow := 32
      clobbers := ((volatile .win64).union (xmms 0 6)).insert flagsReg }
  | abi => {
      intArgs := [7, 6, 2, 1, 8, 9]
      floatArgs := [16, 17, 18, 19, 20, 21, 22, 23]
      positional := false
      intRet := 0
      floatRet := xmmBase
      shadow := 0
      clobbers := ((volatile abi).union (xmms 0 16)).insert flagsReg }

/-- How the flags are set. -/
inductive Compare where
  /-- `cmp u0, u1` -/
  | regs
  /-- `cmp u0, imm` -/
  | imm (v : Int32)
  /-- `test u0, u0` -/
  | zero
  /-- `ucomisd u0, u1` -/
  | float
deriving DecidableEq, Inhabited

/-- What is read from the flags. -/
inductive Outcome where
  | flags (c : Cond)
  /-- Equal and ordered. -/
  | floatEq
  /-- Not equal or not ordered. -/
  | floatNe
deriving DecidableEq, Inhabited

structure Test where
  compare : Compare
  outcome : Outcome
deriving DecidableEq, Inhabited

def Outcome.text : Outcome → String
  | .flags c => "Flags(" ++ c.word ++ ")"
  | .floatEq => "FloatEq"
  | .floatNe => "FloatNe"

def condOf : CmpOp → Cond
  | .eq => .equal
  | .ne => .notEqual
  | .lt => .less
  | .le => .lessEqual

def immediate32? (v : Int64) : Option Int32 :=
  if fitsSigned v.toInt 32 then some v.toInt32 else none

def intTest (op : CmpOp) (a b : Option Int64) : Test × List Side :=
  match a.bind immediate32?, b.bind immediate32? with
  | _, some v =>
    if v = 0 ∧ op.isCommutative then (⟨.zero, .flags (condOf op)⟩, [.left])
    else (⟨.imm v, .flags (condOf op)⟩, [.left])
  | some v, none => (⟨.imm v, .flags (condOf op).swap⟩, [.right])
  | none, none => (⟨.regs, .flags (condOf op)⟩, [.left, .right])

/-- An order is tested with the operands exchanged, so that it fails on unordered ones. -/
def floatTest : CmpOp → Test × List Side
  | .eq => (⟨.float, .floatEq⟩, [.left, .right])
  | .ne => (⟨.float, .floatNe⟩, [.left, .right])
  | .lt => (⟨.float, .flags .above⟩, [.right, .left])
  | .le => (⟨.float, .flags .aboveEqual⟩, [.right, .left])

def immediate? (op : AluOp) (v : Int64) : Option (AluOp × Int64) :=
  if op = .div then none
  else if op.isShift then some (op, v &&& 63)
  else if fitsSigned v.toInt 32 then some (op, v)
  else none

def withMasks (i : Inst Test) (defs uses : List RegMask) : Inst Test :=
  { i with
    defs := i.defs.zipWith (fun o m => { o with mask := m }) defs
    uses := i.uses.zipWith (fun o m => { o with mask := m }) uses }

def constrain (abi : Abi) (i : Inst Test) : Inst Test :=
  let int := (file abi).int
  let float := (file abi).float
  let flags := (file abi).flagMask
  let only (r : Gpr) : RegMask := .single r
  match i.op with
  | .alu .div =>
    { withMasks i [only rax] [only rax, (int.diff (only rax)).diff (only rdx)] with
      tied := some 0
      kill := (only rdx).union flags }
  | .alu .shl | .alu .shr | .alu .sar =>
    let free := int.diff (only rcx)
    { withMasks i [free] [free, only rcx] with tied := some 0, kill := flags }
  | .alu _ => { withMasks i [int] [int, int] with tied := some 0, kill := flags }
  | .aluImm .mul _ => { withMasks i [int] [int] with kill := flags }
  | .aluImm .. | .neg => { withMasks i [int] [int] with tied := some 0, kill := flags }
  | .floatArith _ => { withMasks i [float] [float, float] with tied := some 0 }
  | .toFloat => withMasks i [float] [int]
  | .setIf _ | .branch .. => { i with kill := flags }
  | _ => i

def aluName : AluOp → String
  | .add => "add"
  | .sub => "sub"
  | .mul => "imul"
  | .div => "idiv"
  | .and => "and"
  | .or => "or"
  | .xor => "xor"
  | .shl => "shl"
  | .shr => "shr"
  | .sar => "sar"

def opText (op : MachOp Test) : String :=
  op.sharedText?.getD <|
    match op with
    | .const v => "mov " ++ toString v
    | .loadPool e => "movsd " ++ e.text
    | .zeroFloat => "xorpd"
    | .alu o => aluName o ++ (if o.isShift then " cl" else "")
    | .aluImm o v => aluName o ++ " " ++ toString v
    | .setIf t => "set " ++ t.outcome.text
    | .floatArith o => o.name ++ "sd"
    | .toFloat => "cvtsi2sd"
    | .load _ d => "load " ++ dispText d
    | .store _ d => "store " ++ dispText d
    | .branch t a b => "br " ++ t.outcome.text ++ " " ++ targetsText a b
    | .jump b => "jmp " ++ blockLabel b
    | .call i => "call " ++ (RelocTarget.function i).text
    | .callSymbol s => "call " ++ s
    | _ => ""

/-- A function without calls and spill slots needs no frame. -/
def frame? (slots outgoing : UInt32) (calls : Bool) : Option Frame :=
  if !calls && slots == 0 then some { incoming := 8 }
  else do
    let body ← Frame.body? slots outgoing
    guard (body < 0x3fffffff)
    let size := Frame.align16 (body + 8) - 8
    return { size, spillBase := outgoing, incoming := size + 8 }

def prologue (f : Frame) : List Item :=
  if f.size = 0 then []
  else [{ bytes := Alu.sub.imm rsp f.size.toInt32, text := "sub rsp, " ++ toString f.size }]

def wrongBank {α : Type} (r : Reg) (bank : String) : Except Fault α :=
  .error (.internal .encode none (.wrongBank r bank))

def gpr (r : Reg) : Except Fault Gpr :=
  match gpr? r with
  | some g => .ok g
  | none => wrongBank r "a GPR"

def xmm (r : Reg) : Except Fault Xmm :=
  match xmm? r with
  | some x => .ok x
  | none => wrongBank r "an XMM register"

def load (c : RegClass) (d : Reg) (m : Mem) : Except Fault Item := do
  match c with
  | .int =>
    let d ← gpr d
    return { bytes := movLoad d m, text := "mov " ++ d.name ++ ", qword " ++ m.text }
  | .float =>
    let d ← xmm d
    return { bytes := movsdLoad d m, text := "movsd " ++ Xmm.name d ++ ", qword " ++ m.text }

def store (c : RegClass) (m : Mem) (s : Reg) : Except Fault Item := do
  match c with
  | .int =>
    let s ← gpr s
    return { bytes := movStore m s, text := "mov qword " ++ m.text ++ ", " ++ s.name }
  | .float =>
    let s ← xmm s
    return { bytes := movsdStore m s, text := "movsd qword " ++ m.text ++ ", " ++ Xmm.name s }

/-- The operand of a load or store. -/
def address (regs : OperandRegs) : Option Int64 → Except Fault Mem
  | some d => return .atReg (← gpr (regs.u 0)) d.toInt32
  | none => do
    let base ← gpr (regs.u 0)
    return .indexed base (← gpr (regs.u 1))

def stackSlot (offset : UInt32) : Mem := .atReg rsp offset.toInt32

/-- The text of an instruction on two operands. -/
def text2 (mnemonic a b : String) : String := mnemonic ++ " " ++ a ++ ", " ++ b

/-- Sets the flags. -/
def compareItem (c : Compare) (regs : OperandRegs) : Except Fault Item := do
  match c with
  | .regs =>
    let a ← gpr (regs.u 0)
    let b ← gpr (regs.u 1)
    return { bytes := Alu.cmp.regs a b, text := text2 "cmp" a.name b.name }
  | .imm v =>
    let a ← gpr (regs.u 0)
    return { bytes := Alu.cmp.imm a v, text := text2 "cmp" a.name (toString v) }
  | .zero =>
    let a ← gpr (regs.u 0)
    return { bytes := testRegs a a, text := text2 "test" a.name a.name }
  | .float =>
    let a ← xmm (regs.u 0)
    let b ← xmm (regs.u 1)
    return { bytes := Sse.ucomisd.regs a b, text := text2 "ucomisd" (Xmm.name a) (Xmm.name b) }

def setItem (c : Cond) (d : Gpr) : Item :=
  { bytes := setIf c d, text := "set" ++ c.suffix ++ " " ++ d.name8 }

/-- Puts 1 into `d` if the outcome is on the flags, else 0. -/
def setItems (o : Outcome) (d : Gpr) : List Item :=
  let both (c c' : Cond) (op : Alu) : List Item :=
    [setItem c d, setItem c' r11,
      { bytes := op.lowBytes d r11, text := text2 op.name d.name8 (Gpr.name8 r11) }]
  (match o with
    | .flags c => [setItem c d]
    | .floatEq => both .equal .noParity .and
    | .floatNe => both .notEqual .parity .or)
    ++ [{ bytes := movzxByte d d, text := text2 "movzx" d.name d.name8 }]

def jumpPiece (c : Option Cond) (target : Nat) : Piece :=
  let text := "j" ++ (match c with | some c => c.suffix | none => "mp") ++ " " ++ blockLabel target
  let item (bytes : List UInt8) (kind : RelocKind) : Item :=
    { bytes, text, fixup := some ⟨bytes.length - kind.width, kind, .block target⟩ }
  match c with
  | some c => .sized [item (jumpIfShort c) .x86Rel8] [item (jumpIfLong c) .x86Rel32]
  | none => .sized [item jumpShort .x86Rel8] [item jumpLong .x86Rel32]

/-- Goes to `b`, by a jump unless it comes next. -/
def reach (s : Surroundings) (b : Nat) : List Piece :=
  if s.fallsTo b then [] else [jumpPiece none b]

def branchPieces (s : Surroundings) (o : Outcome) (t f : Nat) : List Piece :=
  let decide (c : Cond) : List Piece :=
    if s.fallsTo t then [jumpPiece (some c.invert) f] else jumpPiece (some c) t :: reach s f
  match o with
  | .flags c => decide c
  | .floatEq => jumpPiece (some .parity) f :: decide .equal
  | .floatNe => jumpPiece (some .parity) t :: jumpPiece (some .notEqual) t :: reach s f

/-- An instruction that ends in a displacement to `target`. -/
def relocated (bytes : List UInt8) (text : String) (target : RelocTarget) : Item :=
  { bytes, text, fixup := some ⟨bytes.length - 4, .x86Rel32, target⟩ }

def noInstruction {α : Type} (op : MachOp Test) : Except Fault α :=
  .error (.internal .encode none (.noInstruction (opText op)))

def groupOf? : AluOp → Option Alu
  | .add => some .add
  | .sub => some .sub
  | .and => some .and
  | .or => some .or
  | .xor => some .xor
  | _ => none

def shiftOf? : AluOp → Option Shift
  | .shl => some .shl
  | .shr => some .shr
  | .sar => some .sar
  | _ => none

def aluItems (op : AluOp) (regs : OperandRegs) : Except Fault (List Item) := do
  match op with
  | .div =>
    let s ← gpr (regs.u 1)
    return [{ bytes := cqo, text := "cqo" }, { bytes := idivReg s, text := "idiv " ++ s.name }]
  | .mul =>
    let d ← gpr (regs.d 0)
    let s ← gpr (regs.u 1)
    return [{ bytes := imulRegs d s, text := text2 "imul" d.name s.name }]
  | op =>
    match groupOf? op, shiftOf? op with
    | some o, _ =>
      let d ← gpr (regs.d 0)
      let s ← gpr (regs.u 1)
      return [{ bytes := o.regs d s, text := text2 o.name d.name s.name }]
    | none, some k =>
      let d ← gpr (regs.d 0)
      return [{ bytes := k.byCl d, text := text2 k.name d.name "cl" }]
    | none, none => noInstruction (.alu op)

def aluImmItem (op : AluOp) (v : Int64) (regs : OperandRegs) : Except Fault Item := do
  let d ← gpr (regs.d 0)
  match op, groupOf? op, shiftOf? op with
  | .mul, _, _ =>
    let s ← gpr (regs.u 0)
    return { bytes := imulImm d s v.toInt32
             text := text2 "imul" d.name (s.name ++ ", " ++ toString v) }
  | _, some o, _ => return { bytes := o.imm d v.toInt32, text := text2 o.name d.name (toString v) }
  | _, none, some k =>
    return { bytes := k.imm d v.toUInt64.toUInt8, text := text2 k.name d.name (toString v) }
  | op, none, none => noInstruction (.aluImm op v)

def sseOf : ArithOp → Sse
  | .add => .addsd
  | .sub => .subsd
  | .mul => .mulsd
  | .div => .divsd

def expand (s : Surroundings) (op : MachOp Test) (regs : OperandRegs) :
    Except Fault (List Piece) := do
  let one (i : Item) : List Piece := [.fixed i]
  match op with
  | .params => return []
  | .copy .int =>
    let d ← gpr (regs.d 0)
    let u ← gpr (regs.u 0)
    return one { bytes := movRegs d u, text := text2 "mov" d.name u.name }
  | .copy .float =>
    let d ← xmm (regs.d 0)
    let u ← xmm (regs.u 0)
    return one { bytes := Sse.movsd.regs d u, text := text2 "movsd" (Xmm.name d) (Xmm.name u) }
  | .spill c slot => return one (← store c (stackSlot (s.frame.slot slot)) (regs.u 0))
  | .reload c slot => return one (← load c (regs.d 0) (stackSlot (s.frame.slot slot)))
  | .loadParam c o => return one (← load c (regs.d 0) (stackSlot (s.frame.incoming + o)))
  | .storeArg c o => return one (← store c (stackSlot o) (regs.u 0))
  | .const v =>
    let d ← gpr (regs.d 0)
    return one { bytes := movImm d v, text := text2 "mov" d.name (toString v) }
  | .loadPool e =>
    let d ← xmm (regs.d 0)
    return one (relocated (movsdLoad d .relative)
      (text2 "movsd" (Xmm.name d) ("[rip+" ++ e.text ++ "]")) (.pool e))
  | .zeroFloat =>
    let d ← xmm (regs.d 0)
    return one { bytes := Sse.xorpd.regs d d, text := text2 "xorpd" (Xmm.name d) (Xmm.name d) }
  | .alu o => return (← aluItems o regs).map .fixed
  | .aluImm o v => return one (← aluImmItem o v regs)
  | .neg =>
    let d ← gpr (regs.d 0)
    return one { bytes := negReg d, text := "neg " ++ d.name }
  | .setIf t =>
    let c ← compareItem t.compare regs
    let d ← gpr (regs.d 0)
    return (c :: setItems t.outcome d).map .fixed
  | .floatArith o =>
    let d ← xmm (regs.d 0)
    let u ← xmm (regs.u 1)
    let o := sseOf o
    return one { bytes := o.regs d u, text := text2 o.name (Xmm.name d) (Xmm.name u) }
  | .toFloat =>
    let d ← xmm (regs.d 0)
    let u ← gpr (regs.u 0)
    return one { bytes := cvtsi2sd d u, text := text2 "cvtsi2sd" (Xmm.name d) u.name }
  | .load c disp =>
    let m ← address regs disp
    return one (← load c (regs.d 0) m)
  | .store c disp =>
    let m ← address regs disp
    return one (← store c m (regs.u (if disp.isSome then 1 else 2)))
  | .branch t a b =>
    let c ← compareItem t.compare regs
    return .fixed c :: branchPieces s t.outcome a b
  | .jump b => return reach s b
  | .ret =>
    let size := s.frame.size
    let free : List Item :=
      if size = 0 then []
      else [{ bytes := Alu.add.imm rsp size.toInt32, text := "add rsp, " ++ toString size }]
    let leave : Item := { bytes := ret, text := "ret" }
    return (free ++ [leave]).map .fixed
  | .call i => return one (relocated callNear ("call " ++ s.callee i) (.function i))
  | .callSymbol name =>
    let e := PoolEntry.symbol name
    return one (relocated (callMem .relative) ("call [rip+" ++ e.text ++ "]") (.pool e))

/-- x86-64 with one of its two conventions. -/
def isa (abi : Abi) : Isa Test where
  target := ⟨.x64, if abi = .win64 then .win64 else .systemV⟩
  file := file abi
  conv := conv abi
  immediate? := immediate?
  fitsOffset v := fitsSigned v.toInt 32
  intTest := intTest
  floatTest := floatTest
  constrain := constrain abi
  opText := opText
  frame? := frame?
  prologue := prologue
  expand := expand

end SeaNodes.X64
