import SeaNodes.Schedule.Placement

namespace SeaNodes

namespace Schedule

/-- What has to come before `n` in its block: its inputs and, if it writes to memory, the loads that
use the memory it takes. -/
def dependencies (g : Graph) (n : NodeId) : List NodeId :=
  let inputs := (g.inputs n).toList.reduceOption
  let readers :=
    if (g.op n).writesMemory then
      match g.input n 1 with
      | some mem => (g.usesOf mem).toList.filter fun r => r != n && g.op r == .load
      | none => []
    else []
  inputs ++ readers

/-- How many nodes of a body each node waits for, and which nodes wait for it. -/
structure Waits where
  counts : SideTable Nat := {}
  followers : SideTable (List NodeId) := {}

namespace Waits

def edge (n : NodeId) (w : Waits) (d : NodeId) : Waits :=
  if (w.followers.get d).contains n then w
  else
    { counts := w.counts.set n (w.counts.get n + 1)
      followers := w.followers.set d (w.followers.get d ++ [n]) }

def add (deps : NodeId → List NodeId) (inBody : BitSet) (w : Waits) (n : NodeId) : Waits :=
  ((deps n).filter inBody.contains).foldl (edge n) w

def ofBody (deps : NodeId → List NodeId) (body : List NodeId) : Waits :=
  body.foldl (add deps (body.foldl BitSet.insert BitSet.empty)) {}

end Waits

/-- Puts `n` into an ascending queue. -/
def enqueue (n : NodeId) : List NodeId → List NodeId
  | [] => [n]
  | m :: rest => if n < m then n :: m :: rest else m :: enqueue n rest

/-- Counts down what `m` waits for, and makes it ready when it waits for nothing else. -/
def countDown (s : SideTable Nat × List NodeId) (m : NodeId) : SideTable Nat × List NodeId :=
  let left := s.1.get m - 1
  (s.1.set m left, if left = 0 then enqueue m s.2 else s.2)

/-- Takes the least of the nodes that are ready until none is, and counts down its followers. -/
def emit (followers : SideTable (List NodeId)) :
    Nat → SideTable Nat × List NodeId → List NodeId
  | 0, _ => []
  | _ + 1, (_, []) => []
  | k + 1, (counts, n :: ready) =>
    n :: emit followers k ((followers.get n).foldl countDown (counts, ready))

def orderBody (deps : NodeId → List NodeId) (body : List NodeId) : List NodeId :=
  let w := Waits.ofBody deps body
  let ready := (body.filter fun n => w.counts.get n == 0).foldl (fun ready n => enqueue n ready) []
  emit w.followers body.length (w.counts, ready)

def orderBlock (g : Graph) (head : NodeId) (terminator : Option NodeId) (nodes : List NodeId) :
    Except Fault (List NodeId) :=
  let isPhi (n : NodeId) : Bool := g.op n == .phi
  let isEntry (n : NodeId) : Bool :=
    match g.op n with
    | .param _ | .startMem => true
    | _ => false
  let inner := nodes.filter fun n => n != head && some n != terminator
  let body := inner.filter fun n => !isPhi n && !isEntry n
  let ordered := orderBody (dependencies g) body
  if ordered.length = body.length then
    .ok (head :: inner.filter isPhi ++ inner.filter isEntry ++ ordered ++ terminator.toList)
  else fail head .cyclicBlock

/-- The schedule of some blocks before any node is placed. -/
def unplaced (c : Cfg) (dom : DomTree) : Schedule :=
  let loops := LoopForest.ofCfg c dom
  { cfg := c.setLoopDepths loops, dom, loops }

def orderIn (g : Graph) (s : Schedule) (b : BlockId) : Except Fault Schedule := do
  let block := s.cfg.block b
  let nodes := g.live.filter fun n => s.blockOf.get n == some b
  let ordered ← orderBlock g block.head block.terminator nodes
  return { s with order := s.order.set b ordered }

end Schedule

def Graph.schedule (g : Graph) : Except Fault Schedule := do
  let cfg ← Cfg.ofGraph g
  let dom ← cfg.domTree
  let s ← Schedule.placeAll g (.unplaced cfg dom)
  (List.range s.cfg.size).foldlM (Schedule.orderIn g) s

end SeaNodes
