import SeaNodes.BitSet
import SeaNodes.Graph.Numbers

namespace SeaNodes

structure Node where
  op : Op
  inputs : Array Edge
  /-- The type computed from the inputs. -/
  ty : Ty := .top
  /-- The declared type of a parameter, phi, cast, load, allocation or call result. -/
  decl : Ty := .top
  dead : Bool := false
  /-- A loop whose back edge is still to come; its phis keep their declared types. -/
  inProgress : Bool := false
  /-- The table of value numbers holds this node. -/
  numbered : Bool := false
deriving DecidableEq, Inhabited

def Node.input (n : Node) (i : Nat) : Edge := (n.inputs[i]?).join

def Node.key (n : Node) : NodeKey := ⟨n.op, n.decl, n.inputs⟩

structure Graph where
  nodes : Array Node := #[]
  uses : SideTable (Array NodeId) := {}
  /-- The node that stands for all nodes of a key. -/
  numbers : ValueNumbers := {}
  /-- Source text of nodes, for diagnoses. -/
  labels : SideTable (Option String) := {}
deriving Inhabited

namespace Graph

def start : NodeId := 0
def stop : NodeId := 1
def deadCtrl : NodeId := 2

def isRoot (n : NodeId) : Bool := n == start || n == stop || n == deadCtrl

/-- The number of nodes ever made, dead ones included. -/
def size (g : Graph) : Nat := g.nodes.size

def node (g : Graph) (n : NodeId) : Node := g.nodes.getD n default

def op (g : Graph) (n : NodeId) : Op := (g.node n).op

def decl (g : Graph) (n : NodeId) : Ty := (g.node n).decl

def inputs (g : Graph) (n : NodeId) : Array Edge := (g.node n).inputs

/-- Input `i` of `n`; absent beyond the last one. -/
def input (g : Graph) (n : NodeId) (i : Nat) : Edge := (g.node n).input i

def isDead (g : Graph) (n : NodeId) : Bool := (g.node n).dead

def usesOf (g : Graph) (n : NodeId) : Array NodeId := g.uses.get n

def useCount (g : Graph) (n : NodeId) : Nat := (g.usesOf n).size

/-- The type of the node an edge leads to; nothing is known of an absent one. -/
def ty (g : Graph) : Edge → Ty
  | some n => (g.node n).ty
  | none => .top

/-- The operator of the node an edge leads to. -/
def op? (g : Graph) : Edge → Option Op
  | some n => some (g.op n)
  | none => none

def inputOf (g : Graph) (e : Edge) (i : Nat) : Edge := e.bind (g.input · i)

def live (g : Graph) : List NodeId := (List.range g.size).filter (!g.isDead ·)

def label (g : Graph) (n : NodeId) : String := (g.labels.get n).getD (g.op n).name

def modifyNode (g : Graph) (n : NodeId) (f : Node → Node) : Graph :=
  { g with nodes := g.nodes.modify n f }

def setTy (g : Graph) (n : NodeId) (t : Ty) : Graph := g.modifyNode n ({ · with ty := t })

def setLabel (g : Graph) (n : NodeId) (text : String) : Graph :=
  { g with labels := g.labels.set n (some text) }

def setInProgress (g : Graph) (n : NodeId) (b : Bool) : Graph :=
  g.modifyNode n ({ · with inProgress := b })

/-- Notes that `user` has an input leading to `e`. -/
def addUse (g : Graph) (e : Edge) (user : NodeId) : Graph :=
  match e with
  | some d => { g with uses := g.uses.modify d (·.push user) }
  | none => g

end Graph

/-- Removes the first `x`, whose place is taken by the last element. -/
def swapErase (a : Array NodeId) (x : NodeId) : Array NodeId :=
  match a.findIdx? (· == x) with
  | some i => (a.swapIfInBounds i (a.size - 1)).pop
  | none => a

namespace Graph

/-- Takes back one `addUse`. -/
def removeUse (g : Graph) (e : Edge) (user : NodeId) : Graph :=
  match e with
  | some d => { g with uses := g.uses.modify d (swapErase · user) }
  | none => g

/-- Takes a node out of the table of value numbers, as its key is about to change. -/
def unnumber (g : Graph) (n : NodeId) : Graph :=
  if (g.node n).numbered then
    let key := (g.node n).key
    let g := g.modifyNode n ({ · with numbered := false })
    if g.numbers.find? key = some n then { g with numbers := g.numbers.erase key } else g
  else g

/-- Another live node that equals `n`. -/
def equal? (g : Graph) (n : NodeId) : Option NodeId :=
  if (g.op n).isNumbered then
    match g.numbers.find? (g.node n).key with
    | some m => if m ≠ n ∧ !g.isDead m then some m else none
    | none => none
  else none

/-- Puts a node into the table of value numbers unless an equal one is there. -/
def number (g : Graph) (n : NodeId) : Graph :=
  if (g.op n).isNumbered && !(g.node n).numbered && (g.equal? n).isNone then
    let key := (g.node n).key
    { g with numbers := g.numbers.insert key n }.modifyNode n ({ · with numbered := true })
  else g

def add (g : Graph) (op : Op) (inputs : Array Edge) (decl : Ty := .top) : NodeId × Graph :=
  let n := g.size
  let g := { g with nodes := g.nodes.push { op, inputs, decl } }
  (n, inputs.foldl (fun g e => g.addUse e n) g)

def empty : Graph where
  nodes := #[
    { op := .start, inputs := #[], ty := .ctrl },
    { op := .stop, inputs := #[], ty := .ctrl },
    { op := .dead, inputs := #[], ty := .deadCtrl }]

/-- The one live constant of type `t`. -/
def const (g : Graph) (t : Ty) : NodeId × Graph :=
  let key : NodeKey := ⟨.const t, .top, #[]⟩
  match (g.numbers.find? key).filter (!g.isDead ·) with
  | some n => (n, g)
  | none =>
    let (n, g) := g.add (.const t) #[]
    let g := g.modifyNode n ({ · with ty := t, numbered := true })
    (n, { g with numbers := g.numbers.insert key n })

/-- Replaces input `i` of `n`. -/
def setInput (g : Graph) (n : NodeId) (i : Nat) (new : Edge) : Graph :=
  let old := g.input n i
  if old = new then g
  else
    let g := (g.unnumber n).removeUse old n
    (g.modifyNode n fun x => { x with inputs := x.inputs.setIfInBounds i new }).addUse new n

def pushInput (g : Graph) (n : NodeId) (new : Edge) : Graph :=
  ((g.unnumber n).modifyNode n fun x => { x with inputs := x.inputs.push new }).addUse new n

/-- Removes input `i`, so that later inputs move down. -/
def removeInput (g : Graph) (n : NodeId) (i : Nat) : Graph :=
  let g := g.unnumber n
  let old := g.input n i
  (g.modifyNode n fun x => { x with inputs := x.inputs.eraseIdxIfInBounds i }).removeUse old n

def swapInputs (g : Graph) (n : NodeId) (i j : Nat) : Graph :=
  (g.unnumber n).modifyNode n fun x => { x with inputs := x.inputs.swapIfInBounds i j }

/-- Changes the operator of a node that keeps its inputs. -/
def setOp (g : Graph) (n : NodeId) (op : Op) : Graph :=
  (g.unnumber n).modifyNode n ({ · with op })

def replaceAllUses (g : Graph) (old : NodeId) (new : Edge) : Graph :=
  if new = some old then g
  else
    let users := g.usesOf old
    let g := { g with uses := g.uses.set old #[] }
    let redirect (x : Node) : Node :=
      { x with inputs := x.inputs.map fun e => if e = some old then new else e }
    let g := users.foldl (fun g u => (g.unnumber u).modifyNode u redirect) g
    match new with
    | some m => { g with uses := g.uses.modify m (· ++ users) }
    | none => g

/-- Whether removal passes a node by. -/
def isKept (g : Graph) (keep : Edge) (n : NodeId) : Bool :=
  some n == keep || g.isDead n || isRoot n || g.useCount n != 0

/-- Marks `n` dead, cuts its inputs and returns those that lost their last use, latest first. -/
def bury (g : Graph) (n : NodeId) : List NodeId × Graph :=
  let inputs := g.inputs n
  let g := (g.unnumber n).modifyNode n ({ · with dead := true, inputs := #[] })
  inputs.foldl (fun (freed, g) e =>
    let g := g.removeUse e n
    match e with
    | some d => if g.useCount d = 0 then (d :: freed, g) else (freed, g)
    | none => (freed, g)) ([], g)

/-- Removes the nodes of `work` that have no uses, and then those that this leaves without. One
node dies per step, so the number of nodes is fuel enough. -/
def reapAll (keep : Edge) : Nat → List NodeId → Graph → Graph
  | 0, _, g => g
  | k + 1, work, g =>
    match work.dropWhile (g.isKept keep) with
    | [] => g
    | n :: rest =>
      let (freed, g) := g.bury n
      reapAll keep k (freed ++ rest) g

/-- Removes `n`, if it has no uses, and all that it alone used, except `keep`. -/
def reap (g : Graph) (n : NodeId) (keep : Edge) : Graph := reapAll keep g.size [n] g

def kill (g : Graph) (n : NodeId) : Graph := g.reap n none

/-- Uses `new` in place of `old` and removes `old`. `new` stays even if it has no uses yet. -/
def subsume (g : Graph) (old : NodeId) (new : Edge) : Graph :=
  if new = some old then g else (g.replaceAllUses old new).reap old new

/-- The nodes reachable along inputs from `work`, added to `seen`. One node is added per step. -/
def reachable (g : Graph) : Nat → List NodeId → BitSet → BitSet
  | 0, _, seen => seen
  | k + 1, work, seen =>
    match work.dropWhile seen.contains with
    | [] => seen
    | n :: rest =>
      let next := (g.inputs n).toList.reduceOption.filter fun d => !seen.contains d
      g.reachable k (next ++ rest) (seen.insert n)

def unreachable (g : Graph) : List NodeId :=
  let seen := g.reachable g.size [stop, start, deadCtrl] (.withCapacity g.size)
  g.live.filter fun n => !seen.contains n

def detach (g : Graph) (n : NodeId) : Graph :=
  let inputs := g.inputs n
  let g := g.modifyNode n ({ · with inputs := #[] })
  let g := inputs.foldl (fun g e => if e.any (!g.isDead ·) then g.removeUse e n else g) g
  { g with uses := g.uses.set n #[] }

/-- Removes all that the stop node does not reach, and returns how many nodes those were. -/
def sweep (g : Graph) : Nat × Graph :=
  let gone := g.unreachable
  let g := gone.foldl (fun g n => (g.unnumber n).modifyNode n ({ · with dead := true })) g
  (gone.length, gone.foldl detach g)

end Graph

end SeaNodes
