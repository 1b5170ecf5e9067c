import SeaNodes.Source.Context
import SeaNodes.Opt.Rewrite

namespace SeaNodes

/-- The variables declared in one block. -/
structure Level where
  /-- Slots by name. -/
  names : List (String × Nat) := []
  /-- The length of the scope when the block was entered. -/
  base : Nat
deriving Inhabited

/-- What is pending for the innermost loop. -/
structure LoopFrame where
  /-- The length of the scope when the loop was entered. -/
  entryLength : Nat
  /-- Scopes that leave the loop, in order. -/
  exits : List NodeId := []
  /-- Scopes that go to the next iteration, in order. -/
  repeats : List NodeId := []
deriving Inhabited

/-- A function under construction. -/
structure Builder where
  graph : Graph
  ctx : Context
  sig : Signature
  /-- The scope node with inputs `[ctrl, mem, vars...]`. -/
  scope : NodeId
  /-- Enclosing blocks, the innermost first. -/
  levels : List Level
  /-- The declared type of each variable slot. -/
  varTypes : Array Ty := #[]
  /-- Enclosing loops, the innermost first. -/
  loops : List LoopFrame := []
deriving Inhabited

/-- Construction steps. The context keeps its new layouts even when construction fails. -/
abbrev Build := ExceptT Fault (StateM Builder)

namespace Build

/-- The index of the control among the inputs of a scope. -/
def ctrlSlot : Nat := 0
/-- The index of the memory. -/
def memSlot : Nat := 1
/-- The index of the first variable. -/
def firstVar : Nat := 2

def graph : Build Graph := return (← get).graph

def modifyGraph (f : Graph → Graph) : Build Unit := modify fun b => { b with graph := f b.graph }

def editGraph {α : Type} (f : Graph → α × Graph) : Build α :=
  modifyGet fun b =>
    let (a, g) := f b.graph
    (a, { b with graph := g })

def resolve (t : TypeExpr) : Build Ty := do
  let b ← get
  let (t, ctx) := b.ctx.resolveInPlace t
  set { b with ctx }
  t

def const (t : Ty) : Build Edge := editGraph (·.constEdge t)

/-- A new node before simplification. -/
def add (op : Op) (inputs : Array Edge) (decl : Ty := .top) : Build NodeId :=
  editGraph (·.add op inputs decl)

def simplifyNew (n : NodeId) : Build Edge := editGraph (·.peephole n)

/-- A new node, simplified at once. -/
def node (op : Op) (inputs : Array Edge) (decl : Ty := .top) : Build Edge := do
  simplifyNew (← add op inputs decl)

/-- A new node with a source text, simplified at once. -/
def labelled (label : String) (op : Op) (inputs : Array Edge) (decl : Ty := .top) :
    Build Edge := do
  let n ← add op inputs decl
  modifyGraph (·.setLabel n label)
  simplifyNew n

def tyOf (e : Edge) : Build Ty := return (← graph).ty e

def scopeInput (i : Nat) : Build Edge := do
  let b ← get
  return b.graph.input b.scope i

def setScopeInput (i : Nat) (e : Edge) : Build Unit :=
  modify fun b => { b with graph := b.graph.setInput b.scope i e }

def ctrl : Build Edge := scopeInput ctrlSlot
def setCtrl : Edge → Build Unit := setScopeInput ctrlSlot
def mem : Build Edge := scopeInput memSlot
def setMem : Edge → Build Unit := setScopeInput memSlot

/-- Whether the code at this point cannot be reached. -/
def unreachable : Build Bool := return (← ctrl) == some Graph.deadCtrl

def setUnreachable : Build Unit := setCtrl (some Graph.deadCtrl)

def scopeLength : Build Nat := do
  let b ← get
  return (b.graph.inputs b.scope).size

/-- The slot of a variable, found in the innermost block that declares it. -/
def slotOf (name : String) : Build Nat := do
  match (← get).levels.findSome? (·.names.lookup name) with
  | some slot => return slot
  | none => throw (.illegal name .unknownVariable)

def readVar (name : String) : Build Edge := do
  scopeInput (firstVar + (← slotOf name))

def varType (name : String) : Build Ty := do
  let slot ← slotOf name
  return (← get).varTypes.getD slot .top

def writeVar (name : String) (e : Edge) : Build Unit := do
  setScopeInput (firstVar + (← slotOf name)) e

def declare (name : String) (t : Ty) (e : Edge) : Build Unit := do
  let slot := (← scopeLength) - firstVar
  match (← get).levels with
  | [] => throw (.illegal name .outsideBlock)
  | level :: outer =>
    if (level.names.lookup name).isSome then throw (.illegal name .variableTwice)
    let level := { level with names := (name, slot) :: level.names }
    modify fun b =>
      { b with
        graph := b.graph.pushInput b.scope e
        levels := level :: outer
        varTypes := (b.varTypes.take slot).push t }

end Build

def Graph.dropLast (scope : NodeId) (g : Graph) : Graph :=
  let last := (g.inputs scope).size - 1
  let e := g.input scope last
  let g := g.removeInput scope last
  match e with
  | some v => if g.useCount v = 0 then g.kill v else g
  | none => g

def Graph.truncate (g : Graph) (scope : NodeId) (length : Nat) : Graph :=
  Nat.repeat (dropLast scope) ((g.inputs scope).size - length) g

namespace Build

def enterBlock : Build Unit := do
  let base ← scopeLength
  modify fun b => { b with levels := { base } :: b.levels }

/-- Leaves a block, dropping its variables. -/
def leaveBlock : Build Unit :=
  modify fun b =>
    match b.levels with
    | [] => b
    | level :: levels =>
      { b with
        graph := b.graph.truncate b.scope level.base
        levels
        varTypes := b.varTypes.take (level.base - firstVar) }

def copyScope : Build NodeId := do
  let b ← get
  add .scope (b.graph.inputs b.scope)

def switchScope (scope : NodeId) : Build NodeId :=
  modifyGet fun b => (b.scope, { b with scope })

def replaceScope (scope : NodeId) : Build Unit := do
  let old ← switchScope scope
  modifyGraph (·.kill old)

/-- The declared type of what scope input `i` holds. -/
def slotType (i : Nat) : Build Ty := do
  if i = memSlot then return .mem else return (← get).varTypes.getD (i - firstVar) .top

/-- Joins input `i` of the current scope with that of `other` by a phi, if they differ. -/
def mergeSlot (region : Edge) (other : NodeId) (i : Nat) : Build Unit := do
  let a ← scopeInput i
  let b := (← graph).input other i
  if a ≠ b then
    let phi ← node .phi #[region, a, b] (← slotType i)
    setScopeInput i phi

/-- Joins `other` into the current scope and discards it. A side that is not reached is dropped;
else a region joins the two controls and phis join what differs. -/
def merge (other : NodeId) : Build Unit := do
  let g ← graph
  let length := min (← scopeLength) (g.inputs other).size
  modify fun b =>
    { b with graph := (b.graph.truncate b.scope length).truncate other length }
  let theirs := (← graph).input other ctrlSlot
  if theirs = some Graph.deadCtrl then
    modifyGraph (·.kill other)
  else if ← unreachable then
    replaceScope other
  else
    let region ← node .region #[none, ← ctrl, theirs]
    if (← graph).isOp region .region then
      for i in List.range' memSlot (length - memSlot) do
        mergeSlot region other i
    setCtrl region
    modifyGraph (·.kill other)

end Build

end SeaNodes
