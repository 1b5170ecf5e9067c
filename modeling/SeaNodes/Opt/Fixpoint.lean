import SeaNodes.Worklist
import SeaNodes.Fault
import SeaNodes.Opt.Rewrite

namespace SeaNodes

structure OptConfig where
  /-- Rounds before the optimizer gives up. -/
  maxRounds : Nat := 16
  /-- Changes of a phi in one round before its range is widened. -/
  widenAfter : Nat := 2
  /-- Keep every type that a node went through. -/
  traceTypes : Bool := false
  /-- Merge equal nodes. -/
  numbering : Bool := true

structure OptStats where
  /-- Rounds run, the last one without changes included. -/
  rounds : Nat := 0
  /-- Type changes made by the analyses. -/
  typeChanges : Nat := 0
  /-- Edits made by the transformations. -/
  rewrites : Nat := 0
  /-- Nodes swept. -/
  swept : Nat := 0
deriving DecidableEq, Inhabited

/-- The types that each node went through in one round of analysis. -/
abbrev RoundTrace := SideTable (Array Ty)

namespace RoundTrace

def record (t : RoundTrace) (n : NodeId) (old new : Ty) : RoundTrace :=
  t.modify n fun seq => if seq.isEmpty then #[old, new] else seq.push new

/-- Whether a type ever went up. -/
def regressed (t : RoundTrace) : Bool :=
  t.items.any fun seq => (seq.toList.zip (seq.toList.drop 1)).any fun (a, b) => !b.le a

end RoundTrace

/-- The state of an analysis. -/
structure Analysis where
  graph : Graph
  work : Worklist
  /-- How often the range of a phi changed. -/
  phiChanges : SideTable Nat := {}
  /-- Type changes so far. -/
  changes : Nat := 0
  trace : RoundTrace := {}

namespace Graph

/-- Whether the type of a node is not a matter of analysis. -/
def hasFixedType (g : Graph) (n : NodeId) : Bool :=
  match g.op n with
  | .start | .stop | .dead | .const _ | .scope => true
  | _ => false

/-- Forgets the types of all nodes but the fixed ones. -/
def resetTypes (g : Graph) : Graph :=
  g.live.foldl (fun g n => if g.hasFixedType n then g else g.setTy n .top) g

def dependents (g : Graph) (n : NodeId) : List NodeId :=
  (g.usesOf n).toList.flatMap fun u =>
    u :: if (g.op u).isRegion then (g.usesOf u).toList.filter (g.op · == .phi) else []

end Graph

namespace Analysis

/-- Counts a change of a phi to a range, and widens the range when there were too many. -/
def widen (cfg : OptConfig) (a : Analysis) (n : NodeId) (new : Ty) : Ty × Analysis :=
  if a.graph.op n = .phi ∧ new.isInt then
    let a := { a with phiChanges := a.phiChanges.modify n (· + 1) }
    (if cfg.widenAfter < a.phiChanges.get n then .anyInt else new, a)
  else (new, a)

/-- Looks at one node again. -/
def visit (cfg : OptConfig) (a : Analysis) (n : NodeId) : Analysis :=
  let old := a.graph.ty (some n)
  let new := old.meet (a.graph.settledType n)
  if a.graph.isDead n ∨ new = old then a
  else
    let (new, a) := a.widen cfg n new
    let a := { a with
      graph := a.graph.setTy n new
      changes := a.changes + 1
      trace := if cfg.traceTypes then a.trace.record n old new else a.trace }
    { a with work := a.work.pushAll (a.graph.dependents n) }

/-- Visits waiting nodes, at most so many times. -/
def run (cfg : OptConfig) : Nat → Analysis → Analysis
  | 0, a => a
  | k + 1, a =>
    match a.work.pop? with
    | none => a
    | some (n, work) => run cfg k ({ a with work }.visit cfg n)

/-- Visits enough to end the analysis: each type goes down only so often, and each time at most all
nodes are queued again. -/
def fuel (g : Graph) : Nat :=
  g.size * g.live.foldr (fun n k => (g.ty (some n)).height + k) 1

end Analysis

/-- The types that follow from nothing but the graph. -/
def Graph.analyze (g : Graph) (cfg : OptConfig) : Analysis :=
  let g := g.resetTypes
  Analysis.run cfg (Analysis.fuel g) { graph := g, work := .ofList g.live }

/-- The state of a transformation. -/
structure Transform where
  graph : Graph
  work : Worklist := {}
  rewrites : Nat := 0

namespace Transform

def dropDead (t : Transform) (n : NodeId) : Transform :=
  if !t.graph.isDead n && t.graph.isDeadControl n then
    { t with graph := t.graph.subsume n (some Graph.deadCtrl), rewrites := t.rewrites + 1 }
  else t

/-- Simplifies one node and queues what may profit. -/
def visit (cfg : OptConfig) (t : Transform) (n : NodeId) : Transform :=
  if t.graph.isDead n || t.graph.op n == .scope then t
  else
    let inputs := (t.graph.inputs n).toList
    let r := t.graph.rewrite n cfg.numbering
    let t := { t with graph := r.graph }
    if r.edited then
      let users := match r.edge with
        | some m => (t.graph.usesOf m).toList
        | none => []
      let again := r.edge.toList ++ users ++ inputs.reduceOption
      { t with
        rewrites := t.rewrites + 1
        work := t.work.pushAll (again.filter (!t.graph.isDead ·)) }
    else t

/-- Visits waiting nodes, at most so many times. -/
def run (cfg : OptConfig) : Nat → Transform → Transform
  | 0, t => t
  | k + 1, t =>
    match t.work.pop? with
    | none => t
    | some (n, work) => run cfg k ({ t with work }.visit cfg n)

/-- The most visits a transformation makes. When they are used up it stops as it is, with nodes left to
visit; that this does not happen is not proved. -/
def fuel (g : Graph) : Nat := g.size + Nat.pow 2 62

end Transform

/-- Replaces dead control, then simplifies all nodes. -/
def Graph.transform (g : Graph) (cfg : OptConfig) : Transform :=
  let t := g.live.foldl Transform.dropDead { graph := g }
  Transform.run cfg (Transform.fuel g) { t with work := .ofList t.graph.live }

/-- The result of optimizing: the graph as it was left, even if no fixed point was found. -/
structure Optimized where
  graph : Graph
  stats : OptStats := {}
  trace : Array RoundTrace := #[]

namespace Optimized

def round (cfg : OptConfig) (o : Optimized) : Optimized :=
  let a := o.graph.analyze cfg
  let t := a.graph.transform cfg
  let (swept, g) := t.graph.sweep
  { graph := g
    stats :=
      { rounds := o.stats.rounds + 1
        typeChanges := o.stats.typeChanges + a.changes
        rewrites := o.stats.rewrites + t.rewrites
        swept := o.stats.swept + swept }
    trace := if cfg.traceTypes then o.trace.push a.trace else o.trace }

/-- Rounds until one changes nothing, which the answer tells. -/
def rounds (cfg : OptConfig) : Nat → Optimized → Bool × Optimized
  | 0, o => (false, o)
  | k + 1, o =>
    let next := o.round cfg
    if next.stats.rewrites = o.stats.rewrites ∧ next.stats.swept = o.stats.swept then (true, next)
    else rounds cfg k next

def regressed (o : Optimized) : Bool := o.trace.any (·.regressed)

end Optimized

def Graph.optimize (g : Graph) (cfg : OptConfig) : Except Fault Unit × Optimized :=
  let (settled, o) := Optimized.rounds cfg cfg.maxRounds { graph := g }
  (if settled then .ok () else .error (.internal .optimize none (.noFixedPoint cfg.maxRounds)), o)

end SeaNodes
