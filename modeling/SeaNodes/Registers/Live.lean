import SeaNodes.BitSet
import SeaNodes.Machine.Function

namespace SeaNodes

variable {τ : Type}

def Inst.liveBefore (i : Inst τ) (after : BitSet) : BitSet :=
  i.uses.foldl (fun s o => s.insert o.vreg) (i.defs.foldl (fun s o => s.erase o.vreg) after)

namespace MachBlock

def reads (b : MachBlock τ) : BitSet := b.insts.foldr (fun i s => i.liveBefore s) .empty

/-- What the block writes. -/
def writes (b : MachBlock τ) : BitSet :=
  b.insts.foldl (fun s i => i.defs.foldl (fun s o => s.insert o.vreg) s) .empty

def walk {σ : Type} (b : MachBlock τ) (liveOut : BitSet) (visit : Inst τ → BitSet → σ → σ) (s : σ) :
    σ :=
  (b.insts.foldr (fun i (live, s) =>
    let s := visit i live s
    (i.liveBefore live, s)) (liveOut, s)).2

end MachBlock

structure Liveness where
  /-- What is live at the start of each block. -/
  liveIn : Array BitSet
  /-- What is live at the end of each block. -/
  liveOut : Array BitSet
  /-- The number of rounds. -/
  iterations : Nat := 0
deriving Inhabited

namespace Liveness

/-- Updates the sets of block `b`; the flag says whether the set at its start grew. -/
def update (f : MachFunction τ) (writes : Array BitSet) (l : Liveness) (b : Nat) :
    Bool × Liveness :=
  let out := (f.block b).succs.foldl (fun s t => s.union (l.liveIn.getD t .empty)) BitSet.empty
  let old := l.liveIn.getD b .empty
  let new := out.toList.filter fun v =>
    !(writes.getD b .empty).contains v && !old.contains v
  (!new.isEmpty, { l with
    liveIn := l.liveIn.setIfInBounds b (new.foldl BitSet.insert old)
    liveOut := l.liveOut.setIfInBounds b out })

def round (f : MachFunction τ) (writes : Array BitSet) (l : Liveness) : Bool × Liveness :=
  (List.range f.blocks.size).foldr (fun b (changed, l) =>
    let (grew, l) := update f writes l b
    (changed || grew, l)) (false, { l with iterations := l.iterations + 1 })

/-- Rounds until nothing changes. A round that changes something adds a register to a block, so
there is enough fuel. -/
def settle (f : MachFunction τ) (writes : Array BitSet) : Nat → Liveness → Liveness
  | 0, l => l
  | k + 1, l =>
    let (changed, l) := round f writes l
    if changed then settle f writes k l else l

/-- One more than the highest register number that occurs. -/
def vregBound (f : MachFunction τ) : Nat :=
  f.insts.foldl (fun n i => i.operands.foldl (fun n o => max n (o.vreg + 1)) n) f.vregs.size

def ofFunction (f : MachFunction τ) : Liveness :=
  settle f (f.blocks.map (·.writes)) (f.blocks.size * vregBound f + 1)
    { liveIn := f.blocks.map (·.reads), liveOut := f.blocks.map fun _ => .empty }

def walk {σ : Type} (l : Liveness) (f : MachFunction τ) (visit : Inst τ → BitSet → σ → σ) (s : σ) :
    σ :=
  (List.range f.blocks.size).foldl (fun s b =>
    (f.block b).walk (l.liveOut.getD b .empty) visit s) s

end Liveness

end SeaNodes
