import SeaNodes.Fault
import SeaNodes.Graph.Basic

namespace SeaNodes

abbrev BlockId := Nat

structure Block where
  /-- The node that starts the block. -/
  head : NodeId
  /-- For a region they are in the order of its inputs. -/
  preds : List BlockId := []
  /-- The true side of a branch comes first. -/
  succs : List BlockId := []
  /-- The control nodes in order, the head included. -/
  ctrl : List NodeId
  /-- The branch or return at the end; none for a jump. -/
  terminator : Option NodeId := none
  loopDepth : Nat := 0
deriving Inhabited

structure Cfg where
  blocks : Array Block := #[]
  /-- The block of every control node that is reached. -/
  blockOf : SideTable (Option BlockId) := {}
  /-- Reverse postorder, in which blocks are laid out. -/
  rpo : List BlockId := []
  /-- Postorder numbers. -/
  postorder : SideTable Nat := {}
deriving Inhabited

namespace Cfg

def entry : BlockId := 0

def size (c : Cfg) : Nat := c.blocks.size

def block (c : Cfg) (b : BlockId) : Block := c.blocks.getD b default

/-- The block of a control node. -/
def ctrlBlock? (c : Cfg) (e : Edge) : Option BlockId := e.bind c.blockOf.get

def malformed {α : Type} (n : NodeId) (d : Defect) : Except Fault α :=
  .error (.internal .schedule (some (some n)) d)

def addBlock (c : Cfg) (n : NodeId) : BlockId × Cfg :=
  let b := c.size
  (b, { c with
    blocks := c.blocks.push { head := n, ctrl := [n] }
    blockOf := c.blockOf.set n (some b) })

end Cfg

namespace Graph

/-- Whether `u` takes control from `n`. A region does so at any input, others at input 0. -/
def takesControl (g : Graph) (n u : NodeId) : Bool :=
  (g.op u).isCfg && g.op u != .stop && ((g.op u).isRegion || g.input u 0 == some n)

def nextCtrl (g : Graph) (n : NodeId) : Except Fault NodeId :=
  match (g.usesOf n).toList.filter (g.takesControl n) with
  | [] => Cfg.malformed n .controlEnds
  | u :: rest => if rest.all (· == u) then .ok u else Cfg.malformed n .controlForks

/-- The projection of a branch for side 0 (true) or 1 (false). -/
def side? (g : Graph) (fork : NodeId) (i : Nat) : Option NodeId :=
  (g.usesOf fork).find? (g.op · == .ctrlProj i)

def side (g : Graph) (fork : NodeId) (i : Nat) : Except Fault NodeId :=
  match g.side? fork i with
  | some u => .ok u
  | none => Cfg.malformed fork .missingProjection

end Graph

namespace Cfg

/-- Follows the control of block `b` from `n` to its end; returns the blocks that this starts,
latest first. A chain of control nodes never comes back to one of its own. -/
def follow (g : Graph) (b : BlockId) : Nat → NodeId → Cfg → Except Fault (List BlockId × Cfg)
  | 0, _, c => .ok ([], c)
  | k + 1, n, c =>
    let finish (c : Cfg) : Cfg :=
      { c with blocks := c.blocks.modify b ({ · with terminator := some n }) }
    match g.op n with
    | .ret => .ok ([], finish c)
    | .fork => do
      let t ← g.side n 0
      let f ← g.side n 1
      let (bt, c) := (finish c).addBlock t
      let (bf, c) := c.addBlock f
      return ([bf, bt], c)
    | _ => do
      let next ← g.nextCtrl n
      if (g.op next).isRegion then
        if (c.blockOf.get next).isSome then return ([], c)
        let (s, c) := c.addBlock next
        return ([s], c)
      else
        follow g b k next { c with
          blockOf := c.blockOf.set next (some b)
          blocks := c.blocks.modify b fun x => { x with ctrl := x.ctrl ++ [next] } }

def discover (g : Graph) : Nat → List BlockId → Cfg → Except Fault Cfg
  | 0, _, c => .ok c
  | _ + 1, [], c => .ok c
  | k + 1, b :: work, c => do
    let (started, c) ← follow g b g.size (c.block b).head c
    discover g k (started ++ work) c

def predsOf (g : Graph) (c : Cfg) (b : BlockId) : Except Fault (List BlockId) :=
  let head := (c.block b).head
  match g.op head with
  | .start => .ok []
  | .region | .loop =>
    ((g.inputs head).toList.drop 1).mapM fun p =>
      match c.ctrlBlock? p with
      | some b => .ok b
      | none => malformed head (.predUnreachable p)
  | _ =>
    match c.ctrlBlock? (g.input head 0) with
    | some b => .ok [b]
    | none => malformed head .branchUnreachable

def succsOf (g : Graph) (c : Cfg) (b : BlockId) : Except Fault (List BlockId) :=
  let last := (c.block b).ctrl.getLastD (c.block b).head
  match g.op last with
  | .fork => .ok ([0, 1].filterMap fun i => c.ctrlBlock? (g.side? last i))
  | .ret => .ok []
  | _ => do return (c.ctrlBlock? (← g.nextCtrl last)).toList

def linkPreds (g : Graph) (c : Cfg) (b : BlockId) : Except Fault Cfg := do
  let preds ← predsOf g c b
  return { c with blocks := c.blocks.modify b ({ · with preds }) }

def linkSuccs (g : Graph) (c : Cfg) (b : BlockId) : Except Fault Cfg := do
  let succs ← succsOf g c b
  return { c with blocks := c.blocks.modify b ({ · with succs }) }

/-- Visits `b` and what it leads to; the list of visited blocks starts with the last one left.
The false side of a branch is visited first, so that the true side is laid out right after it. -/
def visit (c : Cfg) : Nat → BitSet × List BlockId → BlockId → BitSet × List BlockId
  | 0, s, _ => s
  | k + 1, (seen, left), b =>
    if seen.contains b then (seen, left)
    else
      let (seen, left) := (c.block b).succs.reverse.foldl (visit c k) (seen.insert b, left)
      (seen, b :: left)

/-- Numbers the blocks in the order in which a depth-first walk leaves them. -/
def number (c : Cfg) : Cfg :=
  let rpo := (c.visit c.size (.withCapacity c.size, []) entry).2
  let count := rpo.length
  { c with
    rpo
    postorder := rpo.zipIdx.foldl (fun t (b, i) => t.set b (count - 1 - i)) {} }

/-- The blocks of a graph. -/
def ofGraph (g : Graph) : Except Fault Cfg := do
  let (b, c) := ({} : Cfg).addBlock Graph.start
  let c ← discover g (g.size + 1) [b] c
  let c ← (List.range c.size).foldlM (linkPreds g) c
  let c ← (List.range c.size).foldlM (linkSuccs g) c
  return c.number

end Cfg

end SeaNodes
