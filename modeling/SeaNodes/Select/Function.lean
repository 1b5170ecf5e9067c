import SeaNodes.Select.Node

namespace SeaNodes

namespace Select

variable {τ : Type} (isa : Isa τ) (g : Graph)

def outline (s : Schedule) : Array (MachBlock τ) :=
  let index (b : BlockId) : Option Nat := s.layout.idxOf? b
  (s.layout.map fun b =>
    let block := s.cfg.block b
    { preds := block.preds.filterMap index
      succs := block.succs.filterMap index
      loopDepth := block.loopDepth.toUInt32 }).toArray

def paramNodes : List (Nat × NodeId) :=
  let all := g.live.filterMap fun n => match g.op n with
    | .param i => some (i, n)
    | _ => none
  all.mergeSort fun a b => a.1 < b.1 || (a.1 == b.1 && a.2 ≤ b.2)

def selectParams (params : List Ty) : SelectM τ Unit := do
  let classes := params.map fun t => if t.isFloat then RegClass.float else .int
  let locs := (isa.conv.assign classes).1
  let mut defs : Array Operand := #[]
  let mut stack : Array (NodeId × UInt32) := #[]
  for (i, n) in paramNodes g do
    match locs[i]? with
    | some (.reg r) => defs := defs.push ⟨← define g n, .single r⟩
    | some (.stack o) => stack := stack.push (n, o)
    | none => pure ()
  if !defs.isEmpty then
    emit { op := .params, defs := defs.toList, node := some Graph.start }
  for (n, o) in stack do
    let d ← define g n
    emitOp isa (.loadParam (g.classOf n) o) n [d] []

/-- Moves the instructions made since the last call into a block. -/
def place (put : List (Inst τ) → MachBlock τ → MachBlock τ) (b : Nat) : SelectM τ Unit :=
  modify fun s => { s with
    func := s.func.modifyBlock b (put s.out.toList)
    out := #[] }

def selectBlock (s : Schedule) (params : List Ty) (b : BlockId) (i : Nat) : SelectM τ Unit := do
  if i = 0 then selectParams isa g params
  let succs := ((← get).func.block i).succs
  (s.nodes b).forM (selectNode isa g succs)
  match (s.cfg.block b).terminator, succs with
  | none, t :: _ => emit { op := .jump t }
  | _, _ => pure ()
  place (fun insts b => { b with insts }) i

/-- Gives a phi of block `i` its arguments. -/
def selectPhi (i : Nat) (n : NodeId) : SelectM τ Unit := do
  let mut args : Array VReg := #[]
  for (p, k) in ((← get).func.block i).preds.zipIdx do
    match g.input n (k + 1) with
    | none => fail n .phiShort
    | some e =>
      args := args.push (← value isa g (some e))
      place (fun insts b => b.insertAtEnd insts) p
  match (← get).values.get n with
  | some dst =>
    modify fun s => { s with func := s.func.modifyBlock i fun b =>
      { b with phis := b.phis ++ [⟨dst, args.toList, some n⟩] } }
  | none => fail n .usedTooEarly

def valuePhis (s : Schedule) (b : BlockId) : List NodeId :=
  (s.nodes b).filter fun n => g.op n == .phi && g.ty (some n) != .mem

def selectAll (s : Schedule) (params : List Ty) : SelectM τ Unit := do
  let blocks := s.layout.zipIdx
  blocks.forM fun (b, i) => selectBlock isa g s params b i
  blocks.forM fun (b, i) => (valuePhis g s b).forM (selectPhi isa g i)

end Select

def Isa.select {τ : Type} (isa : Isa τ) (sig : Signature) (g : Graph) (s : Schedule) :
    Except Fault (MachFunction τ) := do
  let start : MachFunction τ := { name := sig.name, blocks := Select.outline s }
  let (_, done) ← (Select.selectAll isa g s sig.params).run { func := start }
  return done.func

end SeaNodes
