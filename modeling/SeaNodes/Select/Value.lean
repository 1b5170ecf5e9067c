import SeaNodes.Schedule.Basic
import SeaNodes.Isa.Basic

namespace SeaNodes

def Graph.classOf (g : Graph) (n : NodeId) : RegClass :=
  let ty := match g.ty (some n) with
    | .top => g.decl n
    | t => t
  if ty.isFloat then .float else .int

/-- The integer that a constant node stands for; null is zero. -/
def Graph.intConst? (g : Graph) (e : Edge) : Option Int64 :=
  match g.op? e with
  | some (.const (.int lo hi)) => if lo = hi then some lo else none
  | some (.const (.ptr _ .null)) => some 0
  | _ => none

def Ty.loadOp? {τ : Type} : Ty → Option (MachOp τ × RegClass)
  | .int lo hi => if lo = hi then some (.const lo, .int) else none
  | .ptr _ .null => some (.const 0, .int)
  | .float (some x) =>
    if x = .zero then some (.zeroFloat, .float) else some (.loadPool (.float x), .float)
  | _ => none

namespace Select

structure State (τ : Type) where
  func : MachFunction τ
  /-- The register of every node that has one. -/
  values : SideTable (Option VReg) := {}
  /-- The instructions of the current block. -/
  out : Array (Inst τ) := #[]

abbrev SelectM (τ : Type) := StateT (State τ) (Except Fault)

variable {τ : Type}

def fail {α : Type} (e : Edge) (d : Defect) : SelectM τ α :=
  throw (.internal .select (some e) d)

def emit (i : Inst τ) : SelectM τ Unit := modify fun s => { s with out := s.out.push i }

def fresh (c : RegClass) : SelectM τ VReg := modifyGet fun s =>
  let (v, func) := s.func.newVReg { cls := c }
  (v, { s with func })

def bind (n : NodeId) (v : VReg) : SelectM τ Unit :=
  modify fun s => { s with values := s.values.set n (some v) }

/-- A new register for the value of a node. -/
def define (g : Graph) (n : NodeId) : SelectM τ VReg := do
  let v ← fresh (g.classOf n)
  bind n v
  return v

/-- A register that may be in any register of its class. -/
def anywhere (isa : Isa τ) (v : VReg) : SelectM τ Operand := do
  return ⟨v, isa.file.ofClass ((← get).func.classOf v)⟩

/-- Emits an instruction with what the target demands of its operands. -/
def emitOp (isa : Isa τ) (op : MachOp τ) (node : Edge) (defs uses : List VReg) :
    SelectM τ Unit := do
  let defs ← defs.mapM (anywhere isa)
  let uses ← uses.mapM (anywhere isa)
  emit (isa.constrain { op, defs, uses, node })

def loadConst (isa : Isa τ) (ty : Ty) (n : NodeId) : SelectM τ VReg := do
  match ty.loadOp?, ty with
  | some (op, c), _ =>
    let v ← fresh c
    emitOp isa op n [v] []
    return v
  | none, .fn _ => throw (.unsupported ty.text .functionValue)
  | none, _ => fail n (.noConstant ty)

/-- The register that holds the value of a node. -/
def value (isa : Isa τ) (g : Graph) (e : Edge) : SelectM τ VReg := do
  match e with
  | none => fail none .usedTooEarly
  | some n =>
    match g.op n with
    | .const t => loadConst isa t n
    | _ =>
      match (← get).values.get n with
      | some v => return v
      | none => fail n .usedTooEarly

end Select

end SeaNodes
