import SeaNodes.Registers.Legal
import SeaNodes.Registers.Color
import SeaNodes.Registers.Spill
import SeaNodes.Registers.Check

namespace SeaNodes

structure AllocConfig where
  /-- How often coloring is tried. -/
  maxRounds : Nat := 8
  /-- Merge the ranges of copies. -/
  coalesce : Bool := true
  /-- How much more an occurrence weighs for each loop around it. -/
  loopWeight : Double := ⟨0x4024000000000000⟩
deriving Inhabited

/-- Colors every range for itself. -/
def AllocConfig.minimal : AllocConfig where
  coalesce := false

structure Allocation where
  /-- The register of each virtual register. -/
  regs : Array Reg
  /-- The weight of all spill code. -/
  spillCost : Double
  /-- Colorings tried, the last one included. -/
  rounds : Nat
  /-- The number of ranges that were spilled. -/
  spilledRanges : Nat
  /-- Merges in the last round. -/
  coalesced : Nat
  /-- Copies that are left between different registers. -/
  moves : Nat
deriving Inhabited

variable {τ : Type}

def LiveRanges.slotMap (r : LiveRanges) (free : UInt32) (victims : List VReg) : SlotMap :=
  (victims.zipIdx).foldl (fun slots (root, i) =>
    (r.members root).foldl (fun slots v => slots.set v (some (free + i.toUInt32))) slots) {}

namespace MachFunction

def allocFault (f : MachFunction τ) (flaw : AllocFlaw) : Fault :=
  .internal .regalloc none (.alloc f.name flaw)

/-- The number of copies between different registers. -/
def moveCount (f : MachFunction τ) (regs : Array Reg) : Nat :=
  f.insts.countP fun i =>
    match i.copy? with
    | some (d, u) => regs.getD d 0 != regs.getD u 0
    | none => false

/-- The live ranges of a round, merged if that is wanted, with the number of merges. -/
def ranges (f : MachFunction τ) (file : RegFile) (cfg : AllocConfig) : Nat × LiveRanges :=
  let r := LiveRanges.ofFunction file f (.ofFunction f) cfg.loopWeight
  if cfg.coalesce then r.coalesce else (0, r)

/-- What earlier rounds did. -/
structure Progress where
  rounds : Nat := 0
  spillCost : Double := .zero
  spilledRanges : Nat := 0

/-- Colors and spills for at most so many rounds. -/
def allocateRounds (file : RegFile) (cfg : AllocConfig) :
    Nat → Progress → MachFunction τ → Except Fault Allocation × MachFunction τ
  | 0, _, f => (.error (f.allocFault (.noAssignment cfg.maxRounds)), f)
  | k + 1, p, f =>
    let (coalesced, r) := f.ranges file cfg
    let c := r.color
    if c.failed.isEmpty then
      let regs := r.assign file f.vregs c
      ((f.verify file regs).map fun _ =>
        { regs, spillCost := p.spillCost, rounds := p.rounds + 1
          spilledRanges := p.spilledRanges, coalesced, moves := f.moveCount regs }, f)
    else
      match r.victims c with
      | .error v => (.error (f.allocFault (.noVictim v)), f)
      | .ok victims =>
        let slots := r.slotMap f.spillSlots victims
        let cost := f.spillCost slots cfg.loopWeight
        let spilled := f.spill file slots
        allocateRounds file cfg k
          { rounds := p.rounds + 1, spillCost := p.spillCost.add cost
            spilledRanges := p.spilledRanges + victims.length }
          { spilled with spillSlots := f.spillSlots + victims.length.toUInt32 }

/-- Assigns registers to a function, which gains copies and spill code. It is also given back, as
far as it got, when there is no assignment. -/
def allocate (f : MachFunction τ) (file : RegFile) (cfg : AllocConfig) :
    Except Fault Allocation × MachFunction τ :=
  match f.legalize file with
  | (.ok _, f) => allocateRounds file cfg cfg.maxRounds {} f
  | (.error e, f) => (.error e, f)

end MachFunction

end SeaNodes
