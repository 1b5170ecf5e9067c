import SeaNodes.Flow.Dominators

namespace SeaNodes

structure Loop where
  header : BlockId
  /-- The sources of the edges back to the header. -/
  backEdges : List BlockId
  /-- The blocks of the loop, the header first. -/
  body : List BlockId
  /-- The next enclosing loop. -/
  parent : Option Nat := none
  children : List Nat := []
  /-- 1 for an outermost loop. -/
  depth : Nat := 1
deriving Inhabited

structure LoopForest where
  loops : Array Loop := #[]
deriving Inhabited

namespace LoopForest

def grow (c : Cfg) : Nat → List BlockId → List BlockId → List BlockId
  | 0, _, body => body
  | k + 1, queue, body =>
    match queue.dropWhile body.contains with
    | [] => body
    | b :: rest => grow c k (rest ++ (c.block b).preds) (body ++ [b])

def addBackEdge (c : Cfg) (f : LoopForest) (edge : BlockId × BlockId) : LoopForest :=
  let (source, header) := edge
  match f.loops.findIdx? (·.header == header) with
  | some i =>
    ⟨f.loops.modify i fun l =>
      { l with
        backEdges := if l.backEdges.contains source then l.backEdges else l.backEdges ++ [source]
        body := grow c c.size [source] l.body }⟩
  | none =>
    ⟨f.loops.push
      { header, backEdges := [source], body := grow c c.size [source] [header] }⟩

def backEdges (c : Cfg) (d : DomTree) : List (BlockId × BlockId) :=
  c.rpo.flatMap fun b => ((c.block b).succs.filter (d.dominates · b)).map fun h => (b, h)

/-- The smallest other loop that contains the header of loop `i`; the first of equal ones. -/
def parentOf (f : LoopForest) (i : Nat) (header : BlockId) : Option Nat :=
  let size (j : Nat) : Nat := (f.loops.getD j default).body.length
  let around := (List.range f.loops.size).filter fun j =>
    j != i && (f.loops.getD j default).body.contains header
  around.foldl (fun best j =>
    match best with
    | none => some j
    | some b => if size j < size b then some j else best) none

/-- The number of loops from loop `i` outwards. -/
def depthOf (parent : Nat → Option Nat) : Nat → Nat → Nat
  | 0, _ => 1
  | k + 1, i =>
    match parent i with
    | some p => depthOf parent k p + 1
    | none => 1

def nest (f : LoopForest) : LoopForest :=
  let parents := f.loops.mapIdx fun i l => f.parentOf i l.header
  let parent (i : Nat) : Option Nat := parents.getD i none
  ⟨f.loops.mapIdx fun i l =>
    { l with
      parent := parent i
      children := (List.range f.loops.size).filter fun j => parent j == some i
      depth := depthOf parent f.loops.size i }⟩

def ofCfg (c : Cfg) (d : DomTree) : LoopForest :=
  ((backEdges c d).foldl (addBackEdge c) {}).nest

def innermost? (f : LoopForest) (b : BlockId) : Option Loop :=
  (f.loops.toList.filter (·.body.contains b)).foldl (fun best l =>
    match best with
    | none => some l
    | some m => if m.depth < l.depth then some l else best) none

def isInLoop (f : LoopForest) (b : BlockId) : Bool := (f.innermost? b).isSome

def loopDepth (f : LoopForest) (b : BlockId) : Nat :=
  match f.innermost? b with
  | some l => l.depth
  | none => 0

end LoopForest

def Cfg.setLoopDepths (c : Cfg) (f : LoopForest) : Cfg :=
  { c with blocks := c.blocks.mapIdx fun b x => { x with loopDepth := f.loopDepth b } }

end SeaNodes
