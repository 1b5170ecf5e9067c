import SeaNodes.Double
import SeaNodes.Registers.Legal

namespace SeaNodes

/-- The stack slots of the registers that are spilled. -/
abbrev SlotMap := SideTable (Option UInt32)

variable {τ : Type}

namespace Inst

def isSlotCopy (slots : SlotMap) (i : Inst τ) : Bool :=
  match i.copy? with
  | some (d, u) => (slots.get d).isSome && slots.get d == slots.get u
  | none => false

/-- The state of the uses of an instruction: loads so far, and what was loaded where. -/
structure Reloads (τ : Type) where
  insts : Array (Inst τ) := #[]
  loaded : List (VReg × VReg) := []

def reloadUse (file : RegFile) (slots : SlotMap) (node : Edge) (o : Operand) :
    StateT (Reloads τ) FreshM Operand := do
  match slots.get o.vreg, (← get).loaded.lookup o.vreg with
  | none, _ => return o
  | some _, some t => return { o with vreg := t }
  | some slot, none =>
    let c ← FreshM.classOf o.vreg
    let t ← FreshM.fresh { cls := c, unspillable := true }
    let load : Inst τ := { op := .reload c slot, defs := [⟨t, file.ofClass c⟩], node }
    modify fun s => ⟨s.insts.push load, s.loaded ++ [(o.vreg, t)]⟩
    return { o with vreg := t }

def storeDef (file : RegFile) (slots : SlotMap) (node : Edge) (o : Operand) :
    FreshM (List (Inst τ) × Operand) := do
  match slots.get o.vreg with
  | none => return ([], o)
  | some slot =>
    let c ← FreshM.classOf o.vreg
    let t ← FreshM.fresh { cls := c, unspillable := true }
    return ([{ op := .spill c slot, uses := [⟨t, file.ofClass c⟩], node }], { o with vreg := t })

def throughSlots (file : RegFile) (slots : SlotMap) (i : Inst τ) : FreshM (List (Inst τ)) := do
  if i.isSlotCopy slots then return []
  let (uses, loads) ← (i.uses.mapM (reloadUse file slots i.node)).run {}
  let defs ← i.defs.mapM (storeDef file slots i.node)
  return loads.insts.toList ++ [{ i with uses, defs := defs.map (·.2) }] ++ defs.flatMap (·.1)

/-- How many loads and stores an instruction gets. -/
def slotAccesses (slots : SlotMap) (i : Inst τ) : Nat :=
  let spilled (os : List Operand) : List VReg :=
    (os.map (·.vreg)).filter fun v => (slots.get v).isSome
  if i.isSlotCopy slots then 0 else (spilled i.uses).eraseDups.length + (spilled i.defs).length

end Inst

namespace MachFunction

def spill (f : MachFunction τ) (file : RegFile) (slots : SlotMap) : MachFunction τ :=
  f.rewriteInsts fun i => i.throughSlots file slots

/-- The weight of the loads and stores that this takes. -/
def spillCost (f : MachFunction τ) (slots : SlotMap) (loopWeight : Double) : Double :=
  f.blocks.foldl (fun cost b =>
    let w := b.weight loopWeight
    b.insts.foldl (fun cost i =>
      (List.replicate (i.slotAccesses slots) w).foldl Double.add cost) cost) .zero

end MachFunction

end SeaNodes
