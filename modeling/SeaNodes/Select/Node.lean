import SeaNodes.Source.Context
import SeaNodes.Select.Value

namespace SeaNodes

/-- A comparison that only branches read. -/
def Graph.isFused (g : Graph) (n : NodeId) : Bool :=
  match g.op n with
  | .cmp _ | .floatCmp _ => !(g.usesOf n).isEmpty && (g.usesOf n).all (g.op · == .fork)
  | _ => false

def Graph.callResult? (g : Graph) (call : NodeId) : Option NodeId := do
  let e ← (g.usesOf call).find? (g.op · == .callEnd)
  (g.usesOf e).find? fun u => g.op u == .proj 1 && !g.isDead u

def Graph.returned? (g : Graph) (ret : NodeId) : Option NodeId :=
  (g.input ret 2).filter fun v => (g.ty (some v)).isValue || (g.decl v).isValue

namespace Select

variable {τ : Type} (isa : Isa τ) (g : Graph)

/-- An instruction with one result. -/
def emitValue (n : NodeId) (op : MachOp τ) (inputs : List Edge) : SelectM τ Unit := do
  let uses ← inputs.mapM (value isa g)
  let d ← define g n
  emitOp isa op n [d] uses

/-- An integer operation; a constant operand becomes an immediate where the target has one. -/
def selectAlu (n : NodeId) (op : AluOp) : SelectM τ Unit :=
  let a := g.input n 1
  let b := g.input n 2
  let immediate (e : Edge) : Option (AluOp × Int64) := (g.intConst? e).bind (isa.immediate? op)
  match immediate b with
  | some (op, v) => emitValue isa g n (.aluImm op v) [a]
  | none =>
    match if op.isCommutative then immediate a else none with
    | some (op, v) => emitValue isa g n (.aluImm op v) [b]
    | none => emitValue isa g n (.alu op) [a, b]

def testOperands (a b : Edge) (sides : List Side) : SelectM τ (List VReg) := do
  let load (s : Side) (e : Edge) : SelectM τ (Option VReg) :=
    if sides.contains s then some <$> value isa g e else pure none
  let x ← load .left a
  let y ← load .right b
  return sides.filterMap fun s => match s with
    | .left => x
    | .right => y

/-- The test for the truth of a value, and the registers it reads. -/
def selectTest (e : Edge) : SelectM τ (τ × List VReg) := do
  match g.op? e with
  | some (.cmp op) =>
    let a := g.inputOf e 1
    let b := g.inputOf e 2
    let (test, sides) := isa.intTest op (g.intConst? a) (g.intConst? b)
    return (test, ← testOperands isa g a b sides)
  | some (.floatCmp op) =>
    let (test, sides) := isa.floatTest op
    return (test, ← testOperands isa g (g.inputOf e 1) (g.inputOf e 2) sides)
  | _ =>
    let (test, sides) := isa.intTest .ne none (some 0)
    return (test, ← testOperands isa g e none sides)

/-- A comparison as a value, which is an integer. -/
def emitSet (n : NodeId) (test : τ) (uses : List VReg) : SelectM τ Unit := do
  let d ← define g n
  let uses ← uses.mapM (anywhere isa)
  emit (isa.constrain { op := .setIf test, defs := [⟨d, isa.file.int⟩], uses, node := some n })

/-- The displacement of a load or store, and the registers of its address. -/
def selectAddress (n : NodeId) : SelectM τ (Option Int64 × List VReg) := do
  let base ← value isa g (g.input n 2)
  let offset := g.input n 3
  match (g.intConst? offset).filter isa.fitsOffset with
  | some o => return (some o, [base])
  | none => return (none, [base, ← value isa g offset])

/-- A call of `op` with arguments in the places of the convention. -/
def emitCall (n : NodeId) (op : MachOp τ) (args : List (VReg × RegClass))
    (result : Option NodeId) : SelectM τ Unit := do
  let (locs, area) := isa.conv.assign (args.map (·.2))
  modify fun s => { s with
    func := { s.func with hasCalls := true, outgoing := max s.func.outgoing area } }
  let mut uses : Array Operand := #[]
  for ((v, c), loc) in args.zip locs do
    match loc with
    | .reg r => uses := uses.push ⟨v, .single r⟩
    | .stack o => emit { op := .storeArg c o, uses := [⟨v, isa.file.ofClass c⟩], node := some n }
  let defs ← match result with
    | some r => do
      let d ← define g r
      pure [⟨d, .single (isa.conv.ret (g.classOf r))⟩]
    | none => pure []
  emit { op, defs, uses := uses.toList, kill := isa.conv.clobbers, node := some n }

def selectCall (n : NodeId) : SelectM τ Unit := do
  match g.ty (g.input n 2) with
  | .fn (some i) =>
    let args ← ((g.inputs n).toList.drop 3).mapM fun e => do
      return (← value isa g e, (e.map g.classOf).getD .int)
    emitCall isa g n (.call i) args (g.callResult? n)
  | _ => fail n .unknownCallee

/-- The function that hands out zeroed memory, for a count and a size. -/
def allocator : String := "calloc"

def selectAlloc (n : NodeId) : SelectM τ Unit := do
  let one ← loadConst isa (.int 1 1) n
  let size ← value isa g (g.input n 2)
  emitCall isa g n (.callSymbol allocator) [(one, .int), (size, .int)] (some n)

def selectReturn (n : NodeId) : SelectM τ Unit := do
  let uses ← match g.returned? n with
    | some v => do
      let r ← value isa g (some v)
      pure [⟨r, .single (isa.conv.ret (g.classOf v))⟩]
    | none => pure []
  emit { op := .ret, uses, node := some n }

/-- The instructions of a node, in a block with the given successors. -/
def selectNode (succs : List Nat) (n : NodeId) : SelectM τ Unit := do
  let input := g.input n 1
  match g.op n with
  | .start | .stop | .region | .loop | .ctrlProj _ | .dead | .callEnd | .startMem | .param _
  | .const _ | .proj _ | .scope => return
  | .phi => if g.ty (some n) ≠ .mem then let _ ← define g n
  | .cast => bind n (← value isa g input)
  | .arith op => selectAlu isa g n (.ofArith op)
  | .bit op => selectAlu isa g n (.ofBit op)
  | .floatArith op => emitValue isa g n (.floatArith op) [input, g.input n 2]
  | .neg => emitValue isa g n .neg [input]
  | .toFloat => emitValue isa g n .toFloat [input]
  | .not =>
    let (test, sides) := isa.intTest .eq none (some 0)
    let uses ← testOperands isa g input none sides
    emitSet isa g n test uses
  | .cmp _ | .floatCmp _ =>
    if !g.isFused n then
      let (test, uses) ← selectTest isa g (some n)
      emitSet isa g n test uses
  | .load =>
    let (disp, uses) ← selectAddress isa g n
    let d ← define g n
    emitOp isa (.load (g.classOf n) disp) n [d] uses
  | .store =>
    let (disp, uses) ← selectAddress isa g n
    let v ← value isa g (g.input n 4)
    emitOp isa (.store ((← get).func.classOf v) disp) n [] (uses ++ [v])
  | .fork =>
    match succs with
    | [t, f] =>
      let (test, uses) ← selectTest isa g input
      emitOp isa (.branch test t f) n [] uses
    | _ => fail n .branchArity
  | .ret => selectReturn isa g n
  | .call => selectCall isa g n
  | .alloc => selectAlloc isa g n

end Select

end SeaNodes
