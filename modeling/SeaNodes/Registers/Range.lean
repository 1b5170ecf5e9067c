import SeaNodes.Double
import SeaNodes.Registers.Live

namespace SeaNodes

structure LiveRanges where
  /-- The next register on the way to the root; a root leads to itself. -/
  parent : Array VReg
  /-- The registers that a range may be in. -/
  mask : Array RegMask
  /-- The roots of the ranges that a range cannot share a register with. -/
  adj : Array BitSet
  spillable : Array Bool
  /-- The weight of a register's occurrences. -/
  weight : Array Double
  /-- The registers that occur. -/
  occurs : Array Bool
  /-- The copies as targets and sources. -/
  copies : List (VReg × VReg)
deriving Inhabited

namespace LiveRanges

def size (r : LiveRanges) : Nat := r.parent.size

/-- Follows the way to the root; it is no longer than there are registers. -/
def climb (parent : Array VReg) : Nat → VReg → VReg
  | 0, v => v
  | k + 1, v =>
    let p := parent.getD v v
    if p = v then v else climb parent k p

def find (r : LiveRanges) (v : VReg) : VReg := climb r.parent r.size v

def maskOf (r : LiveRanges) (root : VReg) : RegMask := r.mask.getD root .empty

def adjOf (r : LiveRanges) (root : VReg) : BitSet := r.adj.getD root .empty

def isSpillable (r : LiveRanges) (root : VReg) : Bool := r.spillable.getD root false

def union (r : LiveRanges) (a b : VReg) : LiveRanges :=
  let ra := r.find a
  let rb := r.find b
  if ra = rb then r
  else { r with
    parent := r.parent.setIfInBounds rb ra
    spillable := r.spillable.setIfInBounds ra (r.isSpillable ra && r.isSpillable rb) }

/-- Notes that the ranges of `a` and `b` cannot share a register. -/
def addEdge (r : LiveRanges) (a b : VReg) : LiveRanges :=
  let ra := r.find a
  let rb := r.find b
  if ra = rb then r
  else { r with adj := (r.adj.modify ra (·.insert rb)).modify rb (·.insert ra) }

def narrow (r : LiveRanges) (v : VReg) (f : RegMask → RegMask) : LiveRanges :=
  let root := r.find v
  { r with mask := r.mask.modify root f }

variable {τ : Type}

def initial (file : RegFile) (f : MachFunction τ) : LiveRanges where
  parent := Array.range f.vregs.size
  mask := f.vregs.map (file.ofClass ·.cls)
  adj := f.vregs.map fun _ => .empty
  spillable := f.vregs.map (!·.unspillable)
  weight := f.vregs.map fun _ => .zero
  occurs := f.vregs.map fun _ => false
  copies := []

def addInst (w : Double) (r : LiveRanges) (i : Inst τ) : LiveRanges :=
  let r := match i.tie? with
    | some (d, u) => r.union d u
    | none => r
  i.operands.foldl (fun r o => { r with
    occurs := r.occurs.setIfInBounds o.vreg true
    weight := r.weight.modify o.vreg (·.add w) }) r

def addLive (i : Inst τ) (after : BitSet) (r : LiveRanges) : LiveRanges :=
  let live := after.toList
  let r :=
    if i.kill.isEmpty then r
    else live.foldl (fun r v => if i.defines v then r else r.narrow v (·.diff i.kill)) r
  let free (d v : VReg) : Bool := v == d || some v == i.source?
  let rec defs : List Operand → LiveRanges → LiveRanges
    | [], r => r
    | d :: rest, r =>
      let r := live.foldl (fun r v => if free d.vreg v then r else r.addEdge d.vreg v) r
      defs rest (rest.foldl (fun r o => r.addEdge d.vreg o.vreg) r)
  defs i.defs r

def ofFunction (file : RegFile) (f : MachFunction τ) (live : Liveness) (loopWeight : Double) :
    LiveRanges :=
  let r := f.blocks.foldl (fun r b =>
    b.insts.foldl (addInst (b.weight loopWeight)) r) (initial file f)
  let r := { r with copies := f.insts.filterMap (·.copy?) }
  let r := f.insts.foldl (fun r i =>
    i.operands.foldl (fun r o => r.narrow o.vreg (·.inter o.mask)) r) r
  live.walk f addLive r

def roots (r : LiveRanges) : List VReg :=
  let all := List.range r.size
  let seen := all.foldl (fun s v => if r.occurs.getD v false then s.insert (r.find v) else s)
    BitSet.empty
  all.filter seen.contains

def members (r : LiveRanges) (root : VReg) : List VReg :=
  (List.range r.size).filter (r.find · == root)

def weightOf (r : LiveRanges) (root : VReg) : Double :=
  .sum ((r.members root).map (r.weight.getD · .zero))

/-- Whether the ranges of a copy can be merged: they may share a register, and both may be
spilled. -/
def canMerge (r : LiveRanges) (a b : VReg) : Bool :=
  a != b && r.isSpillable a && r.isSpillable b && !(r.adjOf a).contains b
    && !((r.maskOf a).inter (r.maskOf b)).isEmpty

/-- Merges the range with root `b` into the one with root `a`. -/
def merge (r : LiveRanges) (a b : VReg) : LiveRanges :=
  let others := (r.adjOf b).toList
  let adj := others.foldl (fun adj n =>
    (adj.modify n fun s => (s.erase b).insert a).modify a (·.insert n))
    (r.adj.setIfInBounds b .empty)
  { r with
    parent := r.parent.setIfInBounds b a
    mask := r.mask.setIfInBounds a ((r.maskOf a).inter (r.maskOf b))
    adj }

/-- Merges the ranges of copies where that is possible; the number says how often. -/
def coalesce (r : LiveRanges) : Nat × LiveRanges :=
  r.copies.foldl (fun (k, r) (d, s) =>
    let a := r.find d
    let b := r.find s
    if r.canMerge a b then (k + 1, r.merge a b) else (k, r)) (0, r)

end LiveRanges

end SeaNodes
