import SeaNodes.Flow.Loops

namespace SeaNodes

structure Schedule where
  cfg : Cfg
  dom : DomTree
  loops : LoopForest
  /-- The block of each node; none for the stop node and the marker of dead control. -/
  blockOf : SideTable (Option BlockId) := {}
  /-- The highest block allowed for a floating node. -/
  early : SideTable (Option BlockId) := {}
  /-- The lowest block allowed for a floating node. -/
  late : SideTable (Option BlockId) := {}
  /-- The nodes of each block in order. -/
  order : SideTable (List NodeId) := {}
deriving Inhabited

/-- How a schedule is wrong. -/
inductive ScheduleFlaw where
  | extraInput (node : NodeId)
  | notDominated (node : NodeId) (block : BlockId) (input : NodeId) (inputBlock : BlockId)
  | outOfBounds (node : NodeId) (block : BlockId) (early late : Option BlockId)
  | beforeInput (node input : NodeId)
deriving DecidableEq

def ScheduleFlaw.message : ScheduleFlaw → String
  | .extraInput n => idText n ++ " has more inputs than predecessors"
  | .notDominated n b i ib =>
    idText n ++ " in " ++ idText b ++ " not dominated by input " ++ idText i ++ " in " ++ idText ib
  | .outOfBounds n b e l =>
    idText n ++ " in " ++ idText b ++ " outside its bounds " ++ idText e ++ ".." ++ idText l
  | .beforeInput n i => idText n ++ " scheduled before its input " ++ idText i

namespace Schedule

def nodes (s : Schedule) (b : BlockId) : List NodeId := s.order.get b

/-- The blocks in the order in which they are laid out. -/
def layout (s : Schedule) : List BlockId := s.cfg.rpo

def loopDepth (s : Schedule) (b : BlockId) : Nat := (s.cfg.block b).loopDepth

/-- Where input `i` of a node in block `b` has to be known: for a phi, at the end of the matching
predecessor. -/
def neededAt? (s : Schedule) (g : Graph) (n : NodeId) (b : BlockId) (i : Nat) : Option BlockId :=
  if g.op n = .phi then (s.cfg.block b).preds[i - 1]? else some b

def inputFlaw? (s : Schedule) (g : Graph) (n : NodeId) (b : BlockId) (e : Edge) (i : Nat) :
    Option ScheduleFlaw := do
  let input ← e
  guard !(g.op n == .phi && i == 0)
  let ib ← s.blockOf.get input
  match s.neededAt? g n b i with
  | none => some (.extraInput n)
  | some at_ => if s.dom.dominates ib at_ then none else some (.notDominated n b input ib)

def boundsFlaw? (s : Schedule) (g : Graph) (n : NodeId) (b : BlockId) : Option ScheduleFlaw :=
  let early := s.early.get n
  let late := s.late.get n
  let inside := early.any (s.dom.dominates · b) && late.any (s.dom.dominates b ·)
  if (g.op n).isFloating && !inside then some (.outOfBounds n b early late) else none

def placeFlaw? (s : Schedule) (g : Graph) (n : NodeId) : Option ScheduleFlaw := do
  let b ← s.blockOf.get n
  guard !(g.op n).isRegion
  ((g.inputs n).toList.zipIdx.findSome? fun (e, i) => s.inputFlaw? g n b e i).or
    (s.boundsFlaw? g n b)

/-- Checks that `n` comes after its inputs in block `b`, where `before` is what precedes it. -/
def orderFlaw? (s : Schedule) (g : Graph) (b : BlockId) (before : List NodeId) (n : NodeId) :
    Option ScheduleFlaw := do
  guard !(g.op n == .phi || (g.op n).isRegion)
  (g.inputs n).toList.reduceOption.findSome? fun i =>
    if s.blockOf.get i = some b ∧ !before.contains i then some (.beforeInput n i) else none

def blockFlaw? (s : Schedule) (g : Graph) (b : BlockId) : List NodeId → List NodeId →
    Option ScheduleFlaw
  | _, [] => none
  | before, n :: rest => (s.orderFlaw? g b before n).or (s.blockFlaw? g b (before ++ [n]) rest)

def verify (s : Schedule) (g : Graph) : Except ScheduleFlaw Unit :=
  let inBlocks := (List.range s.cfg.size).findSome? fun b => s.blockFlaw? g b [] (s.nodes b)
  match (g.live.findSome? (s.placeFlaw? g)).or inBlocks with
  | some flaw => .error flaw
  | none => .ok ()

end Schedule

end SeaNodes
