import SeaNodes.Proofs.Registers.Checked
import SeaNodes.Proofs.Registers.Isolation
import SeaNodes.Proofs.Registers.SpillCode

namespace SeaNodes

section

variable {τ α : Type}

/-- The values of the virtual registers and of the stack slots. -/
structure StackState (α : Type) where
  regs : VReg → α
  slots : UInt32 → α

/-- What operations compute when the slots hold the values `slots`. -/
def OpSem.withSlots (sem : OpSem τ α) (slots : UInt32 → α) : OpSem τ α
  | .reload _ slot, _, _ => slots slot
  | op, vals, k => sem op vals k

namespace MachOp

/-- The slot that an operation reads or writes. -/
def slot? : MachOp τ → Option UInt32
  | .spill _ slot | .reload _ slot => some slot
  | _ => none

end MachOp

namespace Inst

def stores (i : Inst τ) (vals : List α) : List (UInt32 × α) :=
  match i.op, vals with
  | .spill _ slot, x :: _ => [(slot, x)]
  | _, _ => []

def execStack (sem : OpSem τ α) (i : Inst τ) (st : StackState α) : StackState α where
  regs := i.exec (sem.withSlots st.slots) st.regs
  slots := writeAll st.slots (i.stores (i.inputs id st.regs))

end Inst

def runStack (sem : OpSem τ α) (is : List (Inst τ)) (st : StackState α) : StackState α :=
  is.foldl (fun st i => i.execStack sem st) st

/-- What is seen of those instructions that `p` holds of. -/
def traceStack (p : Inst τ → Bool) (sem : OpSem τ α) :
    List (Inst τ) → StackState α → List (Event τ α)
  | [], _ => []
  | i :: is, st =>
    if p i then (i.op, i.inputs id st.regs) :: traceStack p sem is (i.execStack sem st)
    else traceStack p sem is (i.execStack sem st)

theorem runStack_append (sem : OpSem τ α) (is js : List (Inst τ)) (st : StackState α) :
    runStack sem (is ++ js) st = runStack sem js (runStack sem is st) :=
  List.foldl_append

theorem traceStack_append (p : Inst τ → Bool) (sem : OpSem τ α) (is js : List (Inst τ))
    (st : StackState α) : traceStack p sem (is ++ js) st =
      traceStack p sem is st ++ traceStack p sem js (runStack sem is st) := by
  induction is generalizing st with
  | nil => rfl
  | cons i is ih =>
    simp only [List.cons_append, traceStack, ih]
    split <;> rfl

theorem traceStack_of_forall_not (p : Inst τ → Bool) (sem : OpSem τ α) (is : List (Inst τ))
    (hp : ∀ i ∈ is, p i = false) (st : StackState α) : traceStack p sem is st = [] := by
  induction is generalizing st with
  | nil => rfl
  | cons i is ih =>
    rw [List.forall_mem_cons] at hp
    rw [traceStack, hp.1, if_neg Bool.false_ne_true, ih hp.2]

/-- The value of `v`, which is in a slot or in a register. -/
def StackState.valueOf (slots : SlotMap) (st : StackState α) (v : VReg) : α :=
  match slots.get v with
  | some σ => st.slots σ
  | none => st.regs v

theorem StackState.valueOf_of_none {slots : SlotMap} {st : StackState α} {v : VReg}
    (h : slots.get v = none) : st.valueOf slots v = st.regs v := by
  rw [valueOf, h]

theorem StackState.valueOf_of_some {slots : SlotMap} {st : StackState α} {v : VReg} {σ : UInt32}
    (h : slots.get v = some σ) : st.valueOf slots v = st.slots σ := by
  rw [valueOf, h]

namespace Inst

theorem output_withSlots_congr (i : Inst τ) (sem : OpSem τ α) {slots slots' : UInt32 → α}
    (h : ∀ σ, i.op.slot? = some σ → slots' σ = slots σ) (vals : List α) (k : Nat) :
    i.output (sem.withSlots slots') vals k = i.output (sem.withSlots slots) vals k := by
  have hop : sem.withSlots slots' i.op vals k = sem.withSlots slots i.op vals k := by
    cases hi : i.op with
    | reload c σ => exact h σ (by rw [hi]; rfl)
    | _ => rfl
  unfold output
  split
  · rfl
  · exact hop

theorem slot?_of_mem_stores {i : Inst τ} {vals : List α} {w : UInt32 × α}
    (h : w ∈ i.stores vals) : i.op.slot? = some w.1 := by
  unfold stores at h
  split at h
  · rename_i c σ x xs hop
    rw [hop, List.mem_singleton.mp h]
    rfl
  · exact absurd h List.not_mem_nil

section

variable {file : RegFile} {slots : SlotMap} {node : Edge}

/-- Running the loads so far from `st` puts the value of each slot into the register that it was
loaded to, and touches neither the slots nor the first `lo` registers. -/
structure Reloads.Filled (slots : SlotMap) (sem : OpSem τ α) (st : StackState α) (lo : Nat)
    (r : Reloads τ) (vs : Array VRegInfo) : Prop where
  slots_eq : (runStack sem r.insts.toList st).slots = st.slots
  old : ∀ v, v < lo → (runStack sem r.insts.toList st).regs v = st.regs v
  loaded : ∀ p ∈ r.loaded, p.2 < vs.size ∧ ∀ σ, slots.get p.1 = some σ →
    (runStack sem r.insts.toList st).regs p.2 = st.slots σ

theorem Reloads.Filled.push {sem : OpSem τ α} {st : StackState α} {lo : Nat} {r : Reloads τ}
    {vs : Array VRegInfo} (h : r.Filled slots sem st lo vs) (hlo : lo ≤ vs.size) {v : VReg}
    {σ : UInt32} (hv : slots.get v = some σ) (node : Edge) (c : RegClass) (m : RegMask) (info : VRegInfo) :
    Reloads.Filled slots sem st lo
      ⟨r.insts.push { op := .reload c σ, defs := [⟨vs.size, m⟩], node },
        r.loaded ++ [(v, vs.size)]⟩ (vs.push info) := by
  let load : Inst τ := { op := .reload c σ, defs := [⟨vs.size, m⟩], node }
  let mid := runStack sem r.insts.toList st
  have hrun : runStack sem (r.insts.push load).toList st =
      ⟨Function.update mid.regs vs.size (mid.slots σ), mid.slots⟩ := by
    rw [Array.toList_push, runStack_append]
    rfl
  refine ⟨?_, fun w hw => ?_, fun p hp => ?_⟩
  · rw [hrun]
    exact h.slots_eq
  · rw [hrun]
    exact (Function.update_of_ne (Nat.ne_of_lt (hw.trans_le hlo)) _ _).trans (h.old w hw)
  · rw [hrun, Array.size_push]
    rcases List.mem_append.mp hp with hp | hp
    · obtain ⟨hlt, hval⟩ := h.loaded p hp
      refine ⟨Nat.lt_succ_of_lt hlt, fun σ' hσ' => ?_⟩
      exact (Function.update_of_ne (Nat.ne_of_lt hlt) _ _).trans (hval σ' hσ')
    · rw [List.mem_singleton.mp hp]
      refine ⟨Nat.lt_succ_self _, fun σ' hσ' => ?_⟩
      rw [← Option.some.inj (hv.symm.trans hσ')]
      exact (Function.update_self _ _ _).trans (congrFun h.slots_eq σ)

theorem reloadUses_induction {P : Reloads τ → Array VRegInfo → Prop}
    (hpush : ∀ r vs v σ c info, P r vs → slots.get v = some σ → info.unspillable = true →
      P ⟨r.insts.push { op := .reload c σ, defs := [⟨vs.size, file.ofClass c⟩], node },
        r.loaded ++ [(v, vs.size)]⟩ (vs.push info))
    (os : List Operand) {os' : List Operand} {r r' : Reloads τ} {vs vs' : Array VRegInfo}
    (hrun : ((os.mapM (reloadUse file slots node)).run r).run vs = ((os', r'), vs'))
    (h : P r vs) : P r' vs' := by
  induction os generalizing r vs os' with
  | nil =>
    obtain ⟨⟨rfl, rfl⟩, rfl⟩ := (Prod.mk.inj hrun).imp_left Prod.mk.inj
    exact h
  | cons o os ih =>
    rw [List.mapM_cons] at hrun
    rcases hone : ((reloadUse file slots node o).run r).run vs with ⟨⟨o₁, r₁⟩, vs₁⟩
    simp only [StateT.run_bind, hone] at hrun
    obtain ⟨⟨rfl, rfl⟩, rfl⟩ := (Prod.mk.inj hrun).imp_left Prod.mk.inj
    apply ih rfl
    rcases reloadUse_cases hone with ⟨-, -, rfl, rfl⟩ | ⟨σ, t, -, -, -, rfl, rfl⟩ |
      ⟨σ, c, info, hslot, -, rfl, rfl, hinfo⟩
    · exact h
    · exact h
    · exact hpush r vs o.vreg σ c info h hslot hinfo

theorem exists_slot_of_mem_loads (os : List Operand) {os' : List Operand} {r : Reloads τ}
    {vs vs' : Array VRegInfo}
    (hrun : ((os.mapM (reloadUse file slots node)).run {}).run vs = ((os', r), vs')) :
    ∀ x ∈ r.insts.toList, ∃ v σ, slots.get v = some σ ∧ x.op.slot? = some σ := by
  apply reloadUses_induction (P := fun r _ => ∀ x ∈ r.insts.toList, ∃ v σ,
    slots.get v = some σ ∧ x.op.slot? = some σ) _ os hrun (by simp)
  intro r vs v σ c info h hv _ x hx
  rw [Array.toList_push, List.mem_append, List.mem_singleton] at hx
  rcases hx with hx | rfl
  · exact h x hx
  · exact ⟨v, σ, hv, rfl⟩

theorem Reloads.Filled.reloadUse {sem : OpSem τ α} {st : StackState α} {lo : Nat}
    {r r' : Reloads τ} {vs vs' : Array VRegInfo} {o o' : Operand}
    (hrun : ((Inst.reloadUse file slots node o).run r).run vs = ((o', r'), vs'))
    (h : r.Filled slots sem st lo vs) (hlo : lo ≤ vs.size) (ho : o.vreg < lo) :
    r'.Filled slots sem st lo vs' ∧ vs.size ≤ vs'.size ∧
      (∀ w, w < vs.size → (runStack sem r'.insts.toList st).regs w =
        (runStack sem r.insts.toList st).regs w) ∧
      o'.vreg < vs'.size ∧
      (runStack sem r'.insts.toList st).regs o'.vreg = st.valueOf slots o.vreg := by
  rcases reloadUse_cases hrun with ⟨hslot, rfl, rfl, rfl⟩ | ⟨σ, t, hslot, ht, rfl, rfl, rfl⟩ |
    ⟨σ, c, info, hslot, rfl, rfl, rfl, -⟩
  · refine ⟨h, Nat.le_refl _, fun _ _ => rfl, ho.trans_le hlo, ?_⟩
    rw [h.old _ ho, StackState.valueOf_of_none hslot]
  · obtain ⟨hlt, hval⟩ := h.loaded _ ht
    rw [StackState.valueOf_of_some hslot]
    exact ⟨h, Nat.le_refl _, fun _ _ => rfl, hlt, hval σ hslot⟩
  · have h' := h.push hlo hslot node c (file.ofClass c) info
    rw [StackState.valueOf_of_some hslot]
    refine ⟨h', by simp, fun w hw => ?_, by simp, (h'.loaded (o.vreg, vs.size) (by simp)).2 σ hslot⟩
    rw [Array.toList_push, runStack_append]
    exact Function.update_of_ne (Nat.ne_of_lt hw) _ _

theorem Reloads.Filled.reloadUses {sem : OpSem τ α} {st : StackState α} {lo : Nat}
    {r r' : Reloads τ} {vs vs' : Array VRegInfo} (os : List Operand) {os' : List Operand}
    (hrun : ((os.mapM (Inst.reloadUse file slots node)).run r).run vs = ((os', r'), vs'))
    (h : r.Filled slots sem st lo vs) (hlo : lo ≤ vs.size) (hos : ∀ o ∈ os, o.vreg < lo) :
    r'.Filled slots sem st lo vs' ∧
      (∀ w, w < vs.size → (runStack sem r'.insts.toList st).regs w =
        (runStack sem r.insts.toList st).regs w) ∧
      (os'.map fun o => (runStack sem r'.insts.toList st).regs o.vreg) =
        os.map fun o => st.valueOf slots o.vreg := by
  induction os generalizing r vs os' with
  | nil =>
    obtain ⟨⟨rfl, rfl⟩, rfl⟩ := (Prod.mk.inj hrun).imp_left Prod.mk.inj
    exact ⟨h, fun _ _ => rfl, rfl⟩
  | cons o os ih =>
    rw [List.forall_mem_cons] at hos
    rw [List.mapM_cons] at hrun
    rcases hone : ((Inst.reloadUse file slots node o).run r).run vs with ⟨⟨o₁, r₁⟩, vs₁⟩
    simp only [StateT.run_bind, hone] at hrun
    obtain ⟨⟨rfl, rfl⟩, rfl⟩ := (Prod.mk.inj hrun).imp_left Prod.mk.inj
    obtain ⟨h₁, hle, hkeep, hlt, hval⟩ := h.reloadUse hone hlo hos.1
    obtain ⟨h₂, hkeep', hvals⟩ := ih rfl h₁ (hlo.trans hle) hos.2
    refine ⟨h₂, fun w hw => (hkeep' w (hw.trans_le hle)).trans (hkeep w hw), ?_⟩
    exact List.cons_eq_cons.mpr ⟨(hkeep' _ hlt).trans hval, hvals⟩

theorem execStack_storeTo (sem : OpSem τ α) (c : RegClass) (t v : VReg) (st : StackState α) :
    (storeTo file slots node c t v : Inst τ).execStack sem st =
      ⟨st.regs, Function.update st.slots ((slots.get v).getD 0) (st.regs t)⟩ := rfl

theorem exists_slot_of_mem_stores {k : Nat} {vs vs' : Array VRegInfo} {os : List Operand}
    {ds : List (List (Inst τ) × Operand)}
    (h : Isolated (storeTo file slots node) (SpillsDef slots) k vs os ds vs') {x : Inst τ}
    (hx : x ∈ ds.flatMap (·.1)) : ∃ v σ, slots.get v = some σ ∧ x.op.slot? = some σ := by
  induction h with
  | nil => exact absurd hx List.not_mem_nil
  | keep _ _ ih => exact ih (by simpa using hx)
  | @move k vs vs' info o os ds hmove _ ih =>
    rw [List.flatMap_cons, List.singleton_append, List.mem_cons] at hx
    rcases hx with rfl | hx
    · obtain ⟨σ, hσ⟩ := Option.isSome_iff_exists.mp hmove
      exact ⟨o.vreg, σ, hσ, by simp [storeTo, MachOp.slot?, hσ]⟩
    · exact ih hx

/-- The stores after an instruction bring the values of the new registers to the slots, when these
are different. They touch no other slot and no register. -/
theorem run_stores {k : Nat} {vs vs' : Array VRegInfo} {os : List Operand}
    {ds : List (List (Inst τ) × Operand)}
    (h : Isolated (storeTo file slots node) (SpillsDef slots) k vs os ds vs')
    (hn : os.Pairwise fun d o => ∀ σ, slots.get d.vreg = some σ → slots.get o.vreg ≠ some σ)
    (sem : OpSem τ α) (st : StackState α) :
    (runStack sem (ds.flatMap (·.1)) st).regs = st.regs ∧
      (∀ σ, (∀ o ∈ os, slots.get o.vreg ≠ some σ) →
        (runStack sem (ds.flatMap (·.1)) st).slots σ = st.slots σ) ∧
      (os.map fun o => (runStack sem (ds.flatMap (·.1)) st).valueOf slots o.vreg) =
        ds.map fun p => st.regs p.2.vreg := by
  induction h generalizing st with
  | nil => exact ⟨rfl, fun _ _ => rfl, rfl⟩
  | @keep k vs vs' o os ds hkeep _ ih =>
    rw [List.pairwise_cons] at hn
    obtain ⟨hregs, hother, hvals⟩ := ih hn.2 st
    have hnone : slots.get o.vreg = none := by simpa [SpillsDef] using hkeep
    refine ⟨hregs, fun σ hσ => hother σ (List.forall_mem_cons.mp hσ).2, ?_⟩
    refine List.cons_eq_cons.mpr ⟨?_, hvals⟩
    exact (StackState.valueOf_of_none hnone).trans (congrFun hregs _)
  | @move k vs vs' info o os ds hmove _ ih =>
    rw [List.pairwise_cons] at hn
    obtain ⟨σ₀, hσ₀⟩ := Option.isSome_iff_exists.mp hmove
    let st₁ : StackState α := ⟨st.regs, Function.update st.slots σ₀ (st.regs vs.size)⟩
    have hrun : runStack sem (storeTo file slots node (classIn vs o.vreg) vs.size o.vreg ::
        ds.flatMap (·.1)) st = runStack sem (ds.flatMap (·.1)) st₁ := by
      rw [runStack, List.foldl_cons, execStack_storeTo, hσ₀]
      rfl
    obtain ⟨hregs, hother, hvals⟩ := ih hn.2 st₁
    rw [List.flatMap_cons, List.singleton_append, hrun]
    refine ⟨hregs, fun σ hσ => ?_, List.cons_eq_cons.mpr ⟨?_, hvals⟩⟩
    · rw [List.forall_mem_cons] at hσ
      have hne : σ ≠ σ₀ := fun he => hσ.1 (he ▸ hσ₀)
      exact (hother σ hσ.2).trans (Function.update_of_ne hne _ _)
    · have hkept := hother σ₀ fun a ha => hn.1 a ha σ₀ hσ₀
      exact (StackState.valueOf_of_some hσ₀).trans (hkept.trans (Function.update_self _ _ _))

end

end Inst

end

section

variable {τ α : Type} {f g : MachFunction τ} {file : RegFile} {slots : SlotMap} {free : UInt32}

/-- Accesses no slot from `free` on. -/
def Inst.below (free : UInt32) (i : Inst τ) : Bool := i.op.slot?.all (· < free)

def MachFunction.Untied (f : MachFunction τ) (b : Nat) (i : Inst τ) : Prop :=
  f.Reached b ∧ (i.isCopy → i.tie? = none)

/-- Registers that clash are in different slots, the ends of a tied copy are in the same slot, and
all slots are new, from `free` on. -/
structure MachFunction.Slotted (f : MachFunction τ) (slots : SlotMap) (free : UInt32) : Prop where
  apart : ∀ x y, f.Clash f.Untied x y → ∀ σ, slots.get x = some σ → slots.get y ≠ some σ
  together : ∀ d u, TiedIn f.insts d u → slots.get d = slots.get u
  fresh : ∀ v σ, slots.get v = some σ → free ≤ σ
  old : ∀ i ∈ f.insts, i.below free

/-- The registers that are live before `rest`, the rest of block `b`, have their values in the
places where `slots` has them, and the old slots are the same. -/
structure MachFunction.Held (f : MachFunction τ) (slots : SlotMap) (free : UInt32)
    (rest : List (Inst τ)) (b : Nat) (st st' : StackState α) : Prop where
  live : ∀ v, f.LiveFrom v rest b → st'.valueOf slots v = st.regs v
  old : ∀ σ, σ < free → st'.slots σ = st.slots σ

namespace MachFunction

section

variable {b : Nat} {pre rest : List (Inst τ)} {i : Inst τ} {st st' : StackState α}

theorem Slotted.slot_lt (hs : f.Slotted slots free) (hi : i ∈ f.insts) {σ : UInt32}
    (h : i.op.slot? = some σ) : σ < free := by
  have hbelow := hs.old i hi
  rw [Inst.below, h] at hbelow
  simpa using hbelow

theorem Held.step_slotCopy (h : f.Held slots free (i :: rest) b st st')
    (hcopy : i.isCopy → ∃ d u, i.defs = [d] ∧ i.uses = [u]) (hc : i.isSlotCopy slots)
    (sem : OpSem τ α) : f.Held slots free rest b (i.execStack sem st) st' := by
  have hop := Inst.isCopy_of_isSlotCopy hc
  obtain ⟨d, u, hd, hu⟩ := hcopy hop
  obtain ⟨hsome, hslot⟩ := (Inst.isSlotCopy_iff hop hd hu).mp hc
  obtain ⟨σ, hσ⟩ := Option.isSome_iff_exists.mp hsome
  have hstores (vals : List α) : i.stores vals = [] := by
    rw [Inst.isCopy] at hop
    unfold Inst.stores
    split
    · rename_i hspill
      rw [hspill] at hop
      exact absurd hop Bool.false_ne_true
    · rfl
  refine ⟨fun v hv => ?_, fun ρ hρ => ?_⟩
  · by_cases hvd : d.vreg = v
    · -- the target gets the value of the source, which is in the slot already
      have huse := h.live u.vreg (.use ⟨u, by simp [hu], rfl⟩)
      rw [StackState.valueOf_of_some (hslot.symm.trans hσ)] at huse
      rw [← hvd, StackState.valueOf_of_some hσ, huse]
      simp [Inst.execStack, Inst.exec, Inst.write, hd, hu, writeAll, Inst.output, hop, Inst.inputs]
    · have hne : ∀ o ∈ i.defs, o.vreg ≠ v := by simpa [hd] using hvd
      rw [h.live v (.skip hne hv)]
      exact (Inst.exec_of_forall_ne _ i st.regs hne).symm
  · rw [h.old ρ hρ]
    simp [Inst.execStack, hstores, writeAll]

/-- A live register that is not written shares no slot with a def, unless the instruction is
dropped. -/
theorem Slotted.kept (hs : f.Slotted slots free) (hb : f.Reached b)
    (hsplit : (f.block b).insts = pre ++ i :: rest)
    (hcopy : i.isCopy → ∃ d u, i.defs = [d] ∧ i.uses = [u]) (hc : i.isSlotCopy slots = false)
    {v : VReg} (hv : f.LiveFrom v rest b) (hne : ∀ o ∈ i.defs, o.vreg ≠ v) {σ : UInt32}
    (hσ : slots.get v = some σ) : ∀ o ∈ i.defs, slots.get o.vreg ≠ some σ := by
  intro o ho hoσ
  have hi : i ∈ (f.block b).insts := by simp [hsplit]
  have huntied (hop : i.isCopy) : i.tie? = none := by
    obtain ⟨d, u, hd, hu⟩ := hcopy hop
    obtain rfl : o = d := by simpa [hd] using ho
    rcases ht : i.tie? with _ | ⟨d, w⟩
    · rfl
    · have hslot := hs.together d w ⟨i, mem_insts hi, ht⟩
      obtain ⟨rfl, rfl⟩ := Inst.ends_of_tie? hd hu ht
      have hdrop := (Inst.isSlotCopy_iff hop hd hu).mpr ⟨by simp [hoσ], hslot⟩
      exact absurd (hc.symm.trans hdrop) Bool.false_ne_true
  by_cases hsrc : some v = i.source?
  · have hop : i.isCopy := by
      by_contra hop
      simp [Inst.source?, hop] at hsrc
    obtain ⟨d, u, hd, hu⟩ := hcopy hop
    obtain rfl : v = u.vreg := by simpa [Inst.source?, hop, hu] using hsrc
    obtain rfl : o = d := by simpa [hd] using ho
    have hdrop := (Inst.isSlotCopy_iff hop hd hu).mpr ⟨by simp [hoσ], hoσ.trans hσ.symm⟩
    exact absurd (hc.symm.trans hdrop) Bool.false_ne_true
  · have hclash : f.Clash f.Untied o.vreg v :=
      .live (lt_of_mem_insts hi) ⟨hb, huntied⟩ hsplit ho rfl hv (hne o ho).symm hsrc
    exact hs.apart o.vreg v hclash σ hoσ hσ

theorem Slotted.pairwise (hs : f.Slotted slots free) (hb : f.Reached b)
    (hsplit : (f.block b).insts = pre ++ i :: rest)
    (hcopy : i.isCopy → ∃ d u, i.defs = [d] ∧ i.uses = [u]) :
    i.defs.Pairwise fun d o => ∀ σ, slots.get d.vreg = some σ → slots.get o.vreg ≠ some σ := by
  rcases hop : i.isCopy with _ | _
  case true =>
    obtain ⟨d, u, hd, -⟩ := hcopy hop
    rw [hd]
    exact List.pairwise_singleton _ _
  case false =>
    have huntied : f.Untied b i := ⟨hb, fun h => absurd (hop.symm.trans h) Bool.false_ne_true⟩
    apply pairwise_of_splits
    intro a d m hds o ho
    have hlt : b < f.blocks.size := lt_of_mem_insts (i := i) (by simp [hsplit])
    exact hs.apart d.vreg o.vreg (.defs hlt huntied hsplit hds ho rfl rfl)

/-- One instruction that is kept, with the loads and stores around it, reads the same values and
keeps the invariant. -/
theorem Held.step_kept (h : f.Held slots free (i :: rest) b st st') (hf : f.Tidy)
    (hs : f.Slotted slots free) (hb : f.Reached b)
    (hsplit : (f.block b).insts = pre ++ i :: rest)
    (hcopy : i.isCopy → ∃ d u, i.defs = [d] ∧ i.uses = [u]) (hc : i.isSlotCopy slots = false)
    {vs vs' : Array VRegInfo} {seg : List (Inst τ)} (hvs : f.vregs.size ≤ vs.size)
    (hrun : (i.throughSlots file slots).run vs = (seg, vs')) (sem : OpSem τ α) :
    traceStack (Inst.below free) sem seg st' = [(i.op, i.inputs id st.regs)] ∧
      f.Held slots free rest b (i.execStack sem st) (runStack sem seg st') := by
  have hi : i ∈ f.insts := mem_insts (b := b) (by simp [hsplit])
  obtain ⟨uses, r, ds, vs₁, huses, hdefs, rfl⟩ := Inst.throughSlots_loops file slots i hc hrun
  have hlt {v : VReg} (hv : i.Mentions v) : v < vs.size :=
    (hf.inRange.lt (b := b) (by simp [hsplit]) hv).trans_le hvs
  let i' : Inst τ := { i with uses, defs := ds.map (·.2) }
  let st₁ := runStack sem r.insts.toList st'
  let st₂ := i'.execStack sem st₁
  let st₃ := runStack sem (ds.flatMap (·.1)) st₂
  have hseg : runStack sem (r.insts.toList ++ i' :: ds.flatMap (·.1)) st' = st₃ :=
    runStack_append sem _ _ st'
  have hempty : Inst.Reloads.Filled slots sem st' vs.size {} vs :=
    ⟨rfl, fun _ _ => rfl, by simp⟩
  obtain ⟨F, -, hvals⟩ := hempty.reloadUses i.uses huses (Nat.le_refl _)
    fun o ho => hlt (Inst.Reads.mentions ⟨o, ho, rfl⟩)
  have hgrow : vs.size ≤ vs₁.size :=
    (Inst.reloadUses_run file slots i.node i.uses huses ⟨by simp, by simp, by simp⟩
      (Nat.le_refl _)).2.1.size_le
  have hin : i'.inputs id st₁.regs = i.inputs id st.regs := by
    refine Eq.trans hvals (List.map_congr_left fun o ho => ?_)
    exact h.live o.vreg (.use ⟨o, ho, rfl⟩)
  have hsame : ∀ σ, i.op.slot? = some σ → st₁.slots σ = st.slots σ := by
    intro σ hσ
    rw [F.slots_eq]
    exact h.old σ (hs.slot_lt hi hσ)
  have hnodup : ((ds.map (·.2)).map (·.vreg)).Nodup :=
    hdefs.nodup (fun o ho => (hlt (Inst.Writes.mentions ⟨o, ho, rfl⟩)).trans_le hgrow)
      (hf.defs i hi)
  have hresults : (ds.map fun p => st₂.regs p.2.vreg) =
      i.defs.map fun o => (i.execStack sem st).regs o.vreg := by
    have h₁ := Inst.map_exec_defs (sem.withSlots st₁.slots) i' st₁.regs hnodup
    have h₂ := Inst.map_exec_defs (sem.withSlots st.slots) i st.regs (hf.defs i hi)
    rw [List.map_map, List.length_map, hdefs.length, hin] at h₁
    rw [Inst.execStack, h₂]
    refine Eq.trans h₁ (List.map_congr_left fun k _ => ?_)
    exact i.output_withSlots_congr sem hsame _ k
  have hslots₂ (σ : UInt32) :
      st₂.slots σ = writeAll st'.slots (i.stores (i.inputs id st.regs)) σ := by
    rw [← hin, ← F.slots_eq]
    rfl
  obtain ⟨hregs, hother, hstored⟩ := Inst.run_stores hdefs (hs.pairwise hb hsplit hcopy) sem st₂
  constructor
  · have hloads : ∀ x ∈ r.insts.toList, x.below free = false := by
      intro x hx
      obtain ⟨v, σ, hv, hσ⟩ := Inst.exists_slot_of_mem_loads i.uses huses x hx
      simp [Inst.below, hσ, hs.fresh v σ hv]
    have hstores : ∀ x ∈ ds.flatMap (·.1), x.below free = false := by
      intro x hx
      obtain ⟨v, σ, hv, hσ⟩ := Inst.exists_slot_of_mem_stores hdefs hx
      simp [Inst.below, hσ, hs.fresh v σ hv]
    have hbelow : i'.below free := hs.old i hi
    rw [traceStack_append, traceStack_of_forall_not _ _ _ hloads, List.nil_append, traceStack,
      if_pos hbelow, traceStack_of_forall_not _ _ _ hstores]
    exact congrArg (fun vals => [(i.op, vals)]) hin
  · rw [hseg]
    refine ⟨fun v hv => ?_, fun σ hσ => ?_⟩
    · by_cases hw : i.Writes v
      · obtain ⟨o, ho, rfl⟩ := hw
        exact List.map_inj_left.mp (hstored.trans hresults) o ho
      · have hne : ∀ o ∈ i.defs, o.vreg ≠ v := fun o ho he => hw ⟨o, ho, he⟩
        have hvlt : v < vs.size := by
          obtain ⟨j, hj, o, ho, rfl⟩ := hv.mentioned fun j hj =>
            mem_insts (b := b) (by simp [hsplit, hj])
          exact (hf.inRange j hj o ho).trans_le hvs
        have hval := h.live v (.skip hne hv)
        have hkeep : (i.execStack sem st).regs v = st.regs v := Inst.exec_of_forall_ne _ i _ hne
        rw [hkeep, ← hval]
        rcases hσ : slots.get v with _ | σ
        · rw [StackState.valueOf_of_none hσ, StackState.valueOf_of_none hσ, hregs]
          have hne' : ∀ o ∈ i'.defs, o.vreg ≠ v := by
            intro o ho
            rcases hdefs.operands ho with ho | ⟨hlo, -⟩
            · exact hne o ho
            · exact Nat.ne_of_gt (hvlt.trans_le (hgrow.trans hlo))
          exact (Inst.exec_of_forall_ne _ i' _ hne').trans (F.old v hvlt)
        · rw [StackState.valueOf_of_some hσ, StackState.valueOf_of_some hσ,
            hother σ (hs.kept hb hsplit hcopy hc hv hne hσ), hslots₂]
          apply writeAll_of_forall_ne
          rintro w hw' rfl
          have hold := hs.slot_lt hi (Inst.slot?_of_mem_stores hw')
          exact absurd (hs.fresh v _ hσ) (UInt32.not_le.mpr hold)
    · have hfree : ∀ o ∈ i.defs, slots.get o.vreg ≠ some σ := fun o _ ho =>
        absurd (hs.fresh o.vreg σ ho) (UInt32.not_le.mpr hσ)
      rw [hother σ hfree, hslots₂]
      exact writeAll_congr (h.old σ hσ) _

end

theorem Held.step {b : Nat} {pre rest : List (Inst τ)} {i : Inst τ} {st st' : StackState α}
    (h : f.Held slots free (i :: rest) b st st') (hf : f.Tidy) (hs : f.Slotted slots free)
    (hb : f.Reached b) (hsplit : (f.block b).insts = pre ++ i :: rest) (hcopy : f.PlainCopies)
    {vs vs' : Array VRegInfo} {seg : List (Inst τ)} (hvs : f.vregs.size ≤ vs.size)
    (hrun : (i.throughSlots file slots).run vs = (seg, vs')) (sem : OpSem τ α) :
    traceStack (Inst.below free) sem seg st' =
        traceStack (fun i => !i.isSlotCopy slots) sem [i] st ∧
      f.Held slots free rest b (i.execStack sem st) (runStack sem seg st') := by
  have hi : i ∈ f.insts := mem_insts (b := b) (by simp [hsplit])
  rcases hc : i.isSlotCopy slots with _ | _
  · obtain ⟨htrace, hheld⟩ := h.step_kept hf hs hb hsplit (hcopy i hi) hc hvs hrun sem
    refine ⟨?_, hheld⟩
    rw [htrace]
    simp [traceStack, hc]
  · rw [Inst.throughSlots_run_slotCopy file slots i hc] at hrun
    obtain ⟨rfl, -⟩ := Prod.mk.inj hrun
    refine ⟨?_, h.step_slotCopy (hcopy i hi) hc sem⟩
    simp [traceStack, hc]

theorem Held.block (hf : f.Tidy) (hs : f.Slotted slots free) (hcopy : f.PlainCopies)
    (sem : OpSem τ α) {b : Nat} (hb : f.Reached b) {vs vs' : Array VRegInfo}
    {rest out : List (Inst τ)} (hrest : Rewritten (·.throughSlots file slots) vs rest out vs')
    (hvs : f.vregs.size ≤ vs.size) (pre : List (Inst τ))
    (hsplit : (f.block b).insts = pre ++ rest) (st st' : StackState α)
    (h : f.Held slots free rest b st st') :
    traceStack (Inst.below free) sem out st' =
        traceStack (fun i => !i.isSlotCopy slots) sem rest st ∧
      f.Held slots free [] b (runStack sem rest st) (runStack sem out st') := by
  induction hrest generalizing pre st st' with
  | nil => exact ⟨rfl, h⟩
  | @cons vs vs₁ vs₂ i seg rest out hseg hrest ih =>
    obtain ⟨htrace, hheld⟩ := h.step hf hs hb hsplit hcopy hvs hseg sem
    have hgrow := ((Inst.freshRewriting_throughSlots file slots).grows hseg).size_le
    obtain ⟨htrace', hend⟩ := ih (hvs.trans hgrow) (pre ++ [i]) (by simpa using hsplit) _ _ hheld
    rw [traceStack_append, runStack_append, htrace, htrace']
    exact ⟨(traceStack_append _ sem [i] rest st).symm, hend⟩

theorem Held.path (hf : f.Tidy) (hs : f.Slotted slots free) (hcopy : f.PlainCopies)
    {taken : Nat → Array VRegInfo} (R : f.RewrittenTo (·.throughSlots file slots) g taken)
    (sem : OpSem τ α) (path : List Nat) (b : Nat) (hb : f.Reached b) (hpath : f.IsPath (b :: path))
    (st st' : StackState α) (h : f.Held slots free (f.block b).insts b st st') :
    traceStack (Inst.below free) sem (g.code (b :: path)) st' =
      traceStack (fun i => !i.isSlotCopy slots) sem (f.code (b :: path)) st := by
  have hgrow (b : Nat) : f.vregs.size ≤ (taken b).size :=
    (R.extends_taken (Inst.freshRewriting_throughSlots file slots) b).size_le
  induction path generalizing b st st' with
  | nil =>
    simpa [code] using (Held.block hf hs hcopy sem hb (R.block b) (hgrow b) [] rfl st st' h).1
  | cons t path ih =>
    obtain ⟨hin, hchain⟩ := hpath
    rw [List.isChain_cons_cons] at hchain
    obtain ⟨htrace, hend⟩ := Held.block hf hs hcopy sem hb (R.block b) (hgrow b) [] rfl st st' h
    have hcode (h : MachFunction τ) :
        h.code (b :: t :: path) = (h.block b).insts ++ h.code (t :: path) := rfl
    rw [hcode, hcode, traceStack_append, traceStack_append, htrace]
    congr 1
    apply ih t (hb.tail hchain.1) ⟨fun c hc => hin c (List.mem_cons_of_mem b hc), hchain.2⟩
    exact ⟨fun v hv => hend.live v (.leave hchain.1 hv), hend.old⟩

end MachFunction

end

end SeaNodes
