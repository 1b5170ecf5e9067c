import SeaNodes.Asm.RiscV
import SeaNodes.Isa.Basic

namespace SeaNodes.RiscV

/-- The number of the first float register. -/
def floatBase : Reg := 32

def int? (r : Reg) : Option Num := if r < floatBase then some (.ofNat r) else none

def float? (r : Reg) : Option Num :=
  if floatBase ≤ r ∧ r < floatBase + 32 then some (.ofNat (r - floatBase)) else none

def intRegs : RegMask := ((RegMask.range 10 18).union (.range 6 8)).union (.range 28 32)

def floatRegs : RegMask :=
  ((RegMask.range floatBase (floatBase + 8)).union
    (.range (floatBase + 10) (floatBase + 18))).union (.range (floatBase + 28) (floatBase + 32))

def file : RegFile where
  names := names
  int := intRegs
  float := floatRegs
  scratch := .single t0.toNat
  flags := none

def conv : CallConv where
  intArgs := List.range' 10 8
  floatArgs := List.range' (floatBase + 10) 8
  positional := false
  intRet := 10
  floatRet := floatBase + 10
  shadow := 0
  clobbers := ((intRegs.insert ra.toNat).insert t0.toNat).union floatRegs

/-- A side of an integer comparison. -/
inductive Src where
  | use (i : Nat)
  | zero
deriving DecidableEq, Inhabited

inductive Test where
  | int (cond : Cond) (lhs rhs : Src)
  | float (op : CmpOp)
deriving DecidableEq, Inhabited

/-- A comparison by `≤` is one by `≥` with the sides exchanged. -/
def intTest (op : CmpOp) (a b : Option Int64) : Test × List Side :=
  let (lhs, rhs, uses) := match a == some 0, b == some 0 with
    | true, true => (Src.zero, Src.zero, [])
    | true, false => (.zero, .use 0, [.right])
    | false, true => (.use 0, .zero, [.left])
    | false, false => (.use 0, .use 1, [.left, .right])
  match op with
  | .eq => (.int .eq lhs rhs, uses)
  | .ne => (.int .ne lhs rhs, uses)
  | .lt => (.int .lt lhs rhs, uses)
  | .le => (.int .ge rhs lhs, uses)

def floatTest (op : CmpOp) : Test × List Side := (.float op, [.left, .right])

def immediate? (op : AluOp) (v : Int64) : Option (AluOp × Int64) :=
  match op with
  | .add | .and | .or | .xor => if fits12 v.toInt then some (op, v) else none
  | .sub => if fits12 (-v.toInt) then some (.add, -v) else none
  | .shl | .shr | .sar => some (op, v &&& 63)
  | .mul | .div => none

def aluName : AluOp → String
  | .add => "add"
  | .sub => "sub"
  | .mul => "mul"
  | .div => "div"
  | .and => "and"
  | .or => "or"
  | .xor => "xor"
  | .shl => "sll"
  | .shr => "srl"
  | .sar => "sra"

def immName (op : AluOp) : String := aluName op ++ "i"

def loadName : RegClass → String
  | .int => "ld"
  | .float => "fld"

def storeName : RegClass → String
  | .int => "sd"
  | .float => "fsd"

def opText (op : MachOp Test) : String :=
  op.sharedText?.getD <|
    match op with
    | .const v => "li " ++ toString v
    | .loadPool e => "fld " ++ e.text
    | .zeroFloat => "fmv.d.x zero"
    | .alu o => aluName o
    | .aluImm o v => immName o ++ " " ++ toString v
    | .setIf (.int c _ _) => "set" ++ c.name
    | .setIf (.float o) => "f" ++ o.name
    | .floatArith o => "f" ++ o.name ++ ".d"
    | .toFloat => "fcvt.d.l"
    | .load c d => loadName c ++ " " ++ dispText d
    | .store c d => storeName c ++ " " ++ dispText d
    | .branch (.int c _ _) a b => c.mnemonic ++ " " ++ targetsText a b
    | .branch (.float o) a b => "fb" ++ o.name ++ " " ++ targetsText a b
    | .jump b => "j " ++ blockLabel b
    | .call i => "call " ++ (RelocTarget.function i).text
    | .callSymbol s => "call " ++ s
    | _ => ""

def int (r : Reg) : Except Fault Num :=
  match int? r with
  | some n => .ok n
  | none => .error (.internal .encode none (.wrongBank r "an integer register"))

def float (r : Reg) : Except Fault Num :=
  match float? r with
  | some n => .ok n
  | none => .error (.internal .encode none (.wrongBank r "an FP register"))

def number (c : RegClass) (r : Reg) : Except Fault Num :=
  match c with
  | .int => int r
  | .float => float r

def listText (mnemonic : String) (operands : List String) : String :=
  mnemonic ++ " " ++ ", ".intercalate operands

def rname (r : Reg) : String := file.name r

def op3Item (op : Op3) (d a b : Num) : Item :=
  .word (op.encode d a b) (listText op.name [d.name, a.name, b.name])

def constItems (d : Num) (v : Int) : List Item :=
  (loadConst d v).map fun (w, text) => .word w text

def loadOp : RegClass → OpImm
  | .int => .ld
  | .float => .fld

def storeOp : RegClass → OpImm
  | .int => .sd
  | .float => .fsd

/-- A load or store at a constant offset, by way of the scratch register if it is too large. -/
def access (op : OpImm) (r : Num) (name : String) (base : Num) (offset : Int) : List Item :=
  let item (base : Num) (offset : Int) : Item :=
    .word (op.encode r base offset)
      (listText op.name [name, toString offset ++ "(" ++ base.name ++ ")"])
  if fits12 offset then [item base offset]
  else constItems t0 offset ++ [op3Item .add t0 base t0, item t0 0]

def loadItems (c : RegClass) (d : Reg) (base : Num) (offset : Int) : Except Fault (List Item) :=
  return access (loadOp c) (← number c d) (rname d) base offset

def storeItems (c : RegClass) (u : Reg) (base : Num) (offset : Int) : Except Fault (List Item) :=
  return access (storeOp c) (← number c u) (rname u) base offset

def frame? (slots outgoing : UInt32) (calls : Bool) : Option Frame := do
  let size := Frame.align16 (← Frame.body? slots (outgoing + if calls then 8 else 0))
  guard (size < 0x40000000)
  return { size, spillBase := outgoing, incoming := size, savesLink := calls }

/-- Moves the stack pointer. -/
def moveSp (delta : Int) : List Item :=
  if delta = 0 then []
  else if fits12 delta then
    [.word (OpImm.addi.encode sp sp delta) (listText "addi" ["sp", "sp", toString delta])]
  else constItems t0 delta ++ [op3Item .add sp sp t0]

/-- Where the return address is kept. -/
def linkOffset (f : Frame) : Int := f.size.toNat - 8

def prologue (f : Frame) : List Item :=
  moveSp (-f.size.toNat)
    ++ (if f.savesLink then access .sd ra ra.name sp (linkOffset f) else [])

/-- A displacement split over two instructions, through a register. -/
def farItems (target : RelocTarget) (name : String) (via : Num) (second : UInt32) (text : String) :
    List Item :=
  [.relocated .rvPcrelHiLo target (auipc via)
      (listText "auipc" [via.name, "%pcrel_hi(" ++ name ++ ")"]),
    .word second (text ++ "%pcrel_lo(" ++ name ++ ")(" ++ via.name ++ ")")]

def farJump (target : Nat) : List Item :=
  farItems (.block target) (blockLabel target) t0 (OpImm.jalr.encode zero t0 0) "jr "

def jumpPiece (target : Nat) : Piece :=
  .sized [.relocated .rvJal (.block target) (jal zero) ("j " ++ blockLabel target)]
    (farJump target)

def branchPiece (c : Cond) (a b : Num) (target : Nat) : Piece :=
  let item (c : Cond) (offset : Int) (place : String) : UInt32 × String :=
    (branch c a b offset, listText c.mnemonic [a.name, b.name, place])
  let near := item c 0 (blockLabel target)
  let around := item c.invert 12 ".+12"
  .sized [.relocated .rvBranch (.block target) near.1 near.2]
    (.word around.1 around.2 :: farJump target)

/-- Goes to `b`, by a jump unless it comes next. -/
def reach (s : Surroundings) (b : Nat) : List Piece := if s.fallsTo b then [] else [jumpPiece b]

def branchPieces (s : Surroundings) (c : Cond) (a b : Num) (t f : Nat) : List Piece :=
  if s.fallsTo t then [branchPiece c.invert a b f] else branchPiece c a b t :: reach s f

def src (regs : OperandRegs) : Src → Except Fault Num
  | .use i => int (regs.u i)
  | .zero => .ok zero

/-- Compares two float registers; inequality is what the caller makes of equality. -/
def floatCompare (op : CmpOp) (d : Num) (regs : OperandRegs) (a b : Num) : Item :=
  let o : Op3 := match op with
    | .eq | .ne => .feq
    | .lt => .flt
    | .le => .fle
  .word (o.encode d a b) (listText (o.name ++ ".d") [d.name, rname (regs.u 0), rname (regs.u 1)])

/-- Inverts 0 and 1. -/
def flip (d : Num) : Item :=
  .word (OpImm.xori.encode d d 1) (listText "xori" [d.name, d.name, "1"])

/-- Puts 1 into `d` if the comparison holds, else 0. Equality is tested on the difference. -/
def setItems (c : Cond) (d a b : Num) : List Item :=
  let zeroTest (diff : Num) : Item :=
    if c = .eq then .word (OpImm.sltiu.encode d diff 1) (listText "seqz" [d.name, diff.name])
    else .word (Op3.sltu.encode d zero diff) (listText "snez" [d.name, diff.name])
  match c with
  | .eq | .ne =>
    if b = zero then [zeroTest a]
    else if a = zero then [zeroTest b]
    else [op3Item .sub d a b, zeroTest d]
  | .lt => [op3Item .slt d a b]
  | .ge => [op3Item .slt d a b, flip d]

def op3Of : AluOp → Op3
  | .add => .add
  | .sub => .sub
  | .mul => .mul
  | .div => .div
  | .and => .and
  | .or => .or
  | .xor => .xor
  | .shl => .sll
  | .shr => .srl
  | .sar => .sra

def opImmOf? : AluOp → Option OpImm
  | .add => some .addi
  | .and => some .andi
  | .or => some .ori
  | .xor => some .xori
  | .shl => some .slli
  | .shr => some .srli
  | .sar => some .srai
  | .sub | .mul | .div => none

def floatOp3Of : ArithOp → Op3
  | .add => .fadd
  | .sub => .fsub
  | .mul => .fmul
  | .div => .fdiv

def expand (s : Surroundings) (op : MachOp Test) (regs : OperandRegs) :
    Except Fault (List Piece) := do
  let fixed (l : List Item) : List Piece := l.map .fixed
  let one (w : UInt32) (mnemonic : String) (operands : List String) : List Piece :=
    [.fixed (.word w (listText mnemonic operands))]
  let d := rname (regs.d 0)
  let u := rname (regs.u 0)
  let u' := rname (regs.u 1)
  match op with
  | .params => return []
  | .copy .int =>
    let n ← int (regs.d 0)
    return one (OpImm.addi.encode n (← int (regs.u 0)) 0) "mv" [d, u]
  | .copy .float =>
    let n ← float (regs.d 0)
    return one (fmv n (← float (regs.u 0))) "fmv.d" [d, u]
  | .spill c slot => return fixed (← storeItems c (regs.u 0) sp (s.frame.slot slot).toNat)
  | .reload c slot => return fixed (← loadItems c (regs.d 0) sp (s.frame.slot slot).toNat)
  | .loadParam c o => return fixed (← loadItems c (regs.d 0) sp (s.frame.incoming + o).toNat)
  | .storeArg c o => return fixed (← storeItems c (regs.u 0) sp o.toNat)
  | .const v => return fixed (constItems (← int (regs.d 0)) v.toInt)
  | .loadPool e =>
    let n ← float (regs.d 0)
    return fixed (farItems (.pool e) e.text t0 (OpImm.fld.encode n t0 0) ("fld " ++ d ++ ", "))
  | .zeroFloat => return one (fmvX (← float (regs.d 0)) zero) "fmv.d.x" [d, "zero"]
  | .alu o =>
    let rd ← int (regs.d 0)
    let a ← int (regs.u 0)
    return one ((op3Of o).encode rd a (← int (regs.u 1))) (aluName o) [d, u, u']
  | .aluImm o v =>
    let rd ← int (regs.d 0)
    let a ← int (regs.u 0)
    match opImmOf? o with
    | some k => return one (k.encode rd a v.toInt) (immName o) [d, u, toString v]
    | none => throw (.internal .encode none (.noInstruction (opText op)))
  | .neg =>
    let rd ← int (regs.d 0)
    return one (Op3.sub.encode rd zero (← int (regs.u 0))) "neg" [d, u]
  | .setIf (.int c l r) =>
    let rd ← int (regs.d 0)
    let a ← src regs l
    return fixed (setItems c rd a (← src regs r))
  | .setIf (.float o) =>
    let rd ← int (regs.d 0)
    let a ← float (regs.u 0)
    let b ← float (regs.u 1)
    return fixed (floatCompare o rd regs a b :: if o = .ne then [flip rd] else [])
  | .floatArith o =>
    let rd ← float (regs.d 0)
    let a ← float (regs.u 0)
    let k := floatOp3Of o
    return one (k.encode rd a (← float (regs.u 1))) (k.name ++ ".d") [d, u, u']
  | .toFloat =>
    let rd ← float (regs.d 0)
    return one (fcvt rd (← int (regs.u 0))) "fcvt.d.l" [d, u]
  | .load c disp =>
    let base ← int (regs.u 0)
    match disp with
    | some o => return fixed (← loadItems c (regs.d 0) base o.toInt)
    | none =>
      let sum := op3Item .add t0 base (← int (regs.u 1))
      return fixed (sum :: (← loadItems c (regs.d 0) t0 0))
  | .store c disp =>
    let base ← int (regs.u 0)
    match disp with
    | some o => return fixed (← storeItems c (regs.u 1) base o.toInt)
    | none =>
      let sum := op3Item .add t0 base (← int (regs.u 1))
      return fixed (sum :: (← storeItems c (regs.u 2) t0 0))
  | .branch (.int c l r) t f =>
    let a ← src regs l
    return branchPieces s c a (← src regs r) t f
  | .branch (.float o) t f =>
    let a ← float (regs.u 0)
    let b ← float (regs.u 1)
    let c : Cond := if o = .ne then .eq else .ne
    return .fixed (floatCompare o t0 regs a b) :: branchPieces s c t0 zero t f
  | .jump b => return reach s b
  | .ret =>
    let size := s.frame.size.toNat
    let link :=
      if s.frame.savesLink then access .ld ra ra.name sp (linkOffset s.frame) else []
    return fixed (link ++ moveSp size ++ [.word ret "ret"])
  | .call i =>
    let name := s.callee i
    return [.sized [.relocated .rvJal (.function i) (jal ra) ("jal ra, " ++ name)]
      (farItems (.function i) name ra (OpImm.jalr.encode ra ra 0) "jalr ra, ")]
  | .callSymbol name =>
    let e := PoolEntry.symbol name
    return fixed (farItems (.pool e) e.text t0 (OpImm.ld.encode t0 t0 0) "ld t0, "
      ++ [.word (OpImm.jalr.encode ra t0 0) "jalr ra, 0(t0)"])

def isa : Isa Test where
  target := ⟨.riscv64, .lp64d⟩
  file := file
  conv := conv
  immediate? := immediate?
  fitsOffset v := fits12 v.toInt
  intTest := intTest
  floatTest := floatTest
  constrain i := i
  opText := opText
  frame? := frame?
  prologue := prologue
  expand := expand

end SeaNodes.RiscV
