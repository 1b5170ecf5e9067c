import SeaNodes.Schedule.Basic

namespace SeaNodes

/-- Whether a node is free to move; a cast is when it hangs on no control. -/
def Graph.floats (g : Graph) (n : NodeId) : Bool :=
  match g.op n with
  | .cast => (g.input n 0).isNone
  | op => op.isFloating

namespace Schedule

def fail {α : Type} (n : NodeId) (d : Defect) : Except Fault α :=
  .error (.internal .schedule (some (some n)) d)

def place (s : Schedule) (n : NodeId) (b : BlockId) : Schedule :=
  { s with blockOf := s.blockOf.set n (some b) }

def pinnedBlock (s : Schedule) (g : Graph) (n : NodeId) (ctrl : Edge) : Except Fault BlockId :=
  if ctrl.isNone then fail n (.noControl (g.op n))
  else
    match s.cfg.ctrlBlock? ctrl with
    | some b => .ok b
    | none => fail n .pinnedUnreachable

def pinCtrl (g : Graph) (s : Schedule) (n : NodeId) : Except Fault Schedule :=
  if (g.op n).isCfg && g.op n != .stop && g.op n != .dead then
    match s.cfg.ctrlBlock? n with
    | some b => .ok (s.place n b)
    | none => fail n .outsideBlocks
  else .ok s

def dataBlock? (g : Graph) (s : Schedule) (n : NodeId) : Except Fault (Option BlockId) :=
  match g.op n with
  | .param _ | .startMem => .ok (some Cfg.entry)
  | .phi | .load | .store | .alloc => some <$> s.pinnedBlock g n (g.input n 0)
  | .cast => if g.floats n then .ok none else some <$> s.pinnedBlock g n (g.input n 0)
  | .proj _ =>
    match g.input n 0 with
    | some src =>
      if g.op src = .alloc then some <$> s.pinnedBlock g src (g.input src 0)
      else some <$> s.pinnedBlock g n (some src)
    | none => fail n (.noControl (g.op n))
  | _ => .ok none

def pinData (g : Graph) (s : Schedule) (n : NodeId) : Except Fault Schedule := do
  match ← dataBlock? g s n with
  | some b => return s.place n b
  | none => return s

def pin (g : Graph) (s : Schedule) : Except Fault Schedule := do
  let s ← g.live.foldlM (pinCtrl g) s
  g.live.foldlM (pinData g) s

def earlyBlock (g : Graph) (s : Schedule) (n : NodeId) : Except Fault BlockId :=
  (g.inputs n).toList.reduceOption.foldlM (fun early input =>
    match s.blockOf.get input with
    | some b => .ok (if s.dom.depth early < s.dom.depth b then b else early)
    | none => fail n (.inputUnplaced input)) Cfg.entry

/-- The walk over floating nodes: those seen, and those done, the last one first. -/
structure EarlyWalk where
  schedule : Schedule
  seen : BitSet := {}
  done : List NodeId := []

/-- Bounds `n` from above after its floating inputs. -/
def visitEarly (g : Graph) : Nat → EarlyWalk → NodeId → Except Fault EarlyWalk
  | 0, w, _ => .ok w
  | k + 1, w, n =>
    if !g.floats n || w.seen.contains n then .ok w
    else do
      let w := { w with seen := w.seen.insert n }
      let w ← (g.inputs n).toList.reduceOption.foldlM (visitEarly g k) w
      let early ← earlyBlock g w.schedule n
      let s := w.schedule.place n early
      return { w with
        schedule := { s with early := s.early.set n (some early) }
        done := n :: w.done }

/-- The predecessors through which `n` reaches a phi. -/
def phiUses (g : Graph) (s : Schedule) (n u : NodeId) : Except Fault (List BlockId) :=
  let preds := match s.blockOf.get u with
    | some b => (s.cfg.block b).preds
    | none => []
  ((g.inputs u).toList.zipIdx.drop 1).filterMapM fun (e, i) =>
    if e ≠ some n then .ok none
    else
      match preds[i - 1]? with
      | some p => .ok (some p)
      | none => fail u .phiUnmatched

/-- Extends a bound from below by the blocks in which `u` needs `n`. -/
def lateUse (g : Graph) (s : Schedule) (n : NodeId) (late : Option BlockId) (u : NodeId) :
    Except Fault (Option BlockId) :=
  if g.isDead u then .ok late
  else if g.op u = .phi then do
    return (← phiUses g s n u).foldl (fun late p => s.dom.lca late (some p)) late
  else .ok (s.dom.lca late (s.blockOf.get u))

def range? (s : Schedule) (early late : BlockId) : Option (List BlockId) :=
  let up := s.dom.dominators late
  if up.contains early then some (up.takeWhile (· != early) ++ [early]) else none

def shallowest (s : Schedule) (late : BlockId) (path : List BlockId) : BlockId :=
  path.foldl (fun best b => if s.loopDepth b < s.loopDepth best then b else best) late

/-- Places a floating node whose users are placed. -/
def placeLate (g : Graph) (s : Schedule) (n : NodeId) : Except Fault Schedule := do
  let early := (s.early.get n).getD Cfg.entry
  let late := (← (g.usesOf n).toList.foldlM (lateUse g s n) none).getD early
  match s.range? early late with
  | some path =>
    return { s with late := s.late.set n (some late) }.place n (s.shallowest late path)
  | none => fail n (.earlyBelowLate early late)

/-- Puts every node into a block. -/
def placeAll (g : Graph) (s : Schedule) : Except Fault Schedule := do
  let s ← pin g s
  let w ← g.live.foldlM (visitEarly g (g.size + 1)) { schedule := s }
  w.done.foldlM (placeLate g) w.schedule

end Schedule

end SeaNodes
