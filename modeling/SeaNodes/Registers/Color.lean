import SeaNodes.Fault
import SeaNodes.Registers.Range

namespace SeaNodes

structure Coloring where
  /-- The register of each root. -/
  colors : Array (Option Reg)
  /-- The roots that got none, in the order of their turns. -/
  failed : List VReg := []
deriving Inhabited

namespace Coloring

def colorOf (c : Coloring) (root : VReg) : Option Reg := (c.colors.getD root none)

end Coloring

namespace LiveRanges

def partners (r : LiveRanges) : Array (List VReg) :=
  let ends := r.copies.foldl (fun acc (d, s) =>
    let a := r.find d
    let b := r.find s
    if a = b then acc else (acc.modify a (b :: ·)).modify b (a :: ·))
    (Array.replicate r.size [])
  ends.map List.reverse

def turnKey (r : LiveRanges) (root : VReg) : Nat × Nat × Nat × Nat :=
  ((r.isSpillable root).toNat, (r.maskOf root).count, r.size - (r.adjOf root).count, root)

/-- Lexicographic order. -/
def keyLe (a b : Nat × Nat × Nat × Nat) : Bool :=
  a.1 < b.1 || (a.1 == b.1 && (a.2.1 < b.2.1 || (a.2.1 == b.2.1 &&
    (a.2.2.1 < b.2.2.1 || (a.2.2.1 == b.2.2.1 && a.2.2.2 ≤ b.2.2.2)))))

def turns (r : LiveRanges) : List VReg :=
  ((r.roots.map r.turnKey).mergeSort keyLe).map (·.2.2.2)

/-- The registers that are left for a range. -/
def available (r : LiveRanges) (c : Coloring) (root : VReg) : RegMask :=
  (r.adjOf root).toList.foldl (fun m n =>
    match c.colorOf n with
    | some reg => m.erase reg
    | none => m) (r.maskOf root)

/-- The turn of a range. -/
def colorOne (r : LiveRanges) (partners : Array (List VReg)) (c : Coloring) (root : VReg) :
    Coloring :=
  let avail := r.available c root
  let wanted := (partners.getD root []).findSome? fun p => (c.colorOf p).filter avail.contains
  match wanted.or avail.first? with
  | some reg => { c with colors := c.colors.setIfInBounds root (some reg) }
  | none => { c with failed := c.failed ++ [root] }

def color (r : LiveRanges) : Coloring :=
  r.turns.foldl (r.colorOne r.partners) { colors := Array.replicate r.size none }

def cheaper (r : LiveRanges) (a b : VReg) : VReg :=
  let wa := (r.weightOf a).rank
  let wb := (r.weightOf b).rank
  if wa < wb ∨ (wa = wb ∧ a ≤ b) then a else b

/-- The range to spill for one that failed: itself, or if that does not help the cheapest of those
that took a register it could be in. -/
def victim? (r : LiveRanges) (c : Coloring) (root : VReg) : Option VReg :=
  if r.isSpillable root then some root
  else
    let takers := (r.adjOf root).toList.filter fun n =>
      r.isSpillable n && (c.colorOf n).any (r.maskOf root).contains
    takers.foldl (fun best n => some (match best with
      | some b => r.cheaper b n
      | none => n)) none

/-- The ranges to spill in ascending order; the error is a range for which there is none. -/
def victims (r : LiveRanges) (c : Coloring) : Except VReg (List VReg) := do
  let all ← c.failed.mapM fun root =>
    match r.victim? c root with
    | some v => .ok v
    | none => .error root
  return (List.range r.size).filter all.contains

/-- The register of every virtual register. Those that occur nowhere get any of their class. -/
def assign (r : LiveRanges) (file : RegFile) (vregs : Array VRegInfo) (c : Coloring) :
    Array Reg :=
  vregs.mapIdx fun v info =>
    ((c.colorOf (r.find v)).or (file.ofClass info.cls).first?).getD 0

end LiveRanges

end SeaNodes
