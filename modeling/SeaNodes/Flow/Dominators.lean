import SeaNodes.Flow.Blocks

namespace SeaNodes

/-- The immediate dominators found so far; the entry has itself. -/
abbrev Idoms := SideTable (Option BlockId)

namespace Cfg

/-- Where the ways up from `a` and `b` meet. The block that was left first goes up. -/
def meetUp? (c : Cfg) (t : Idoms) : Nat → BlockId → BlockId → Option BlockId
  | 0, _, _ => none
  | k + 1, a, b =>
    if a = b then some a
    else if c.postorder.get a < c.postorder.get b then
      (t.get a).bind fun a => c.meetUp? t k a b
    else if c.postorder.get b < c.postorder.get a then
      (t.get b).bind fun b => c.meetUp? t k a b
    else none

/-- Adds predecessor `p` to those whose ways up meet at `best`. There are no more pairs of blocks
than the fuel, so ways that have not met by then go round in circles. -/
def addPred? (c : Cfg) (t : Idoms) (best : Option BlockId) (p : BlockId) :
    Option (Option BlockId) :=
  if (t.get p).isNone then some best
  else
    match best with
    | none => some (some p)
    | some q => (c.meetUp? t ((c.size + 1) * (c.size + 1)) p q).map some

/-- Gives block `b` the meeting point of its predecessors that are in the tree, and notes whether
that is news. -/
def refine? (c : Cfg) (s : Idoms × Bool) (b : BlockId) : Option (Idoms × Bool) :=
  if b = entry then some s
  else do
    let best ← (c.block b).preds.foldlM (c.addPred? s.1) none
    if best.isSome && s.1.get b != best then some (s.1.set b best, true) else some s

/-- Passes over the layout until one changes nothing. -/
def settle? (c : Cfg) : Nat → Idoms → Option Idoms
  | 0, _ => none
  | k + 1, t => do
    let (t, changed) ← c.rpo.foldlM c.refine? (t, false)
    if changed then c.settle? k t else some t

/-- The immediate dominators, by iteration. There are no more tables than passes allowed, so there
is no result only if the tables come back again and again. -/
def idoms? (c : Cfg) : Option Idoms :=
  if c.size = 0 then some {}
  else c.settle? (Nat.pow (c.size + 1) (c.size + 1)) (({} : Idoms).set entry (some entry))

end Cfg

/-- The tree of immediate dominators. -/
structure DomTree where
  idom : Idoms := {}
  children : Array (List BlockId) := #[]
  depths : SideTable Nat := {}
deriving Inhabited

namespace DomTree

/-- Hangs block `b` below its immediate dominator, one deeper than that is known to be so far. -/
def hang? (d : DomTree) (b : BlockId) : Option DomTree :=
  if b = Cfg.entry then some d
  else (d.idom.get b).map fun p =>
    { d with
      children := d.children.modify p (· ++ [b])
      depths := d.depths.set b (d.depths.get p + 1) }

/-- The tree of a graph of blocks, with the depths from one pass over the layout. There is none if
the iteration does not end or leaves a block out. -/
def ofCfg? (c : Cfg) : Option DomTree := do
  let idom ← c.idoms?
  c.rpo.foldlM hang? { idom, children := .replicate c.size [] }

def parent? (d : DomTree) (b : BlockId) : Option BlockId := (d.idom.get b).filter (· != b)

def depth (d : DomTree) (b : BlockId) : Nat := d.depths.get b

def pathUp (d : DomTree) : Nat → BlockId → List BlockId
  | 0, b => [b]
  | k + 1, b =>
    match d.parent? b with
    | some p => b :: d.pathUp k p
    | none => [b]

/-- The dominators of `b`, nearest first. -/
def dominators (d : DomTree) (b : BlockId) : List BlockId := d.pathUp d.children.size b

/-- Whether `a` is met on the way up from `b`, which ends at the depth of `a`. -/
def meets (d : DomTree) (a : BlockId) : Nat → BlockId → Bool
  | 0, b => a == b
  | k + 1, b =>
    if d.depth a < d.depth b then (d.parent? b).any (d.meets a k)
    else a == b

def dominates (d : DomTree) (a b : BlockId) : Bool := d.meets a d.children.size b

/-- Goes up from a block to one at most `depth` deep. -/
def rise? (d : DomTree) (depth : Nat) : Nat → BlockId → Option BlockId
  | 0, b => some b
  | k + 1, b => if depth < d.depth b then (d.idom.get b).bind (d.rise? depth k) else some b

/-- Goes up from two blocks at once until they are the same. -/
def join? (d : DomTree) : Nat → BlockId → BlockId → Option BlockId
  | 0, a, b => if a = b then some a else none
  | k + 1, a, b =>
    if a = b then some a
    else do d.join? k (← d.idom.get a) (← d.idom.get b)

/-- The deepest block that dominates both; an absent block does not count. -/
def lca (d : DomTree) : Option BlockId → Option BlockId → Option BlockId
  | none, b => b
  | a, none => a
  | some a, some b => do
    let a ← d.rise? (d.depth b) d.children.size a
    let b ← d.rise? (d.depth a) d.children.size b
    d.join? d.children.size a b

end DomTree

/-- The tree of the blocks of a graph. An iteration without end counts as a fault. -/
def Cfg.domTree (c : Cfg) : Except Fault DomTree :=
  match DomTree.ofCfg? c with
  | some d => .ok d
  | none => .error (.internal .schedule none .dominatorsUnsettled)

end SeaNodes
