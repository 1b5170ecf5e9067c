import SeaNodes.Proofs.Registers.SpillMeaning

namespace SeaNodes

variable {τ : Type}

namespace MachFunction

/-- The registers that occur and may be spilled. -/
def spillable (g : MachFunction τ) : Finset VReg :=
  (g.occurring g.vregs.size).filter fun v => (g.vregs.getD v default).unspillable = false

theorem mem_spillable {g : MachFunction τ} {v : VReg} : v ∈ g.spillable ↔
    v < g.vregs.size ∧ (∃ i ∈ g.insts, i.Mentions v) ∧
      (g.vregs.getD v default).unspillable = false := by
  rw [spillable, occurring, Finset.mem_filter, Finset.mem_filter, Finset.mem_range, and_assoc]

theorem card_spillable_le (g : MachFunction τ) : g.spillable.card ≤ g.vregs.size := by
  have hsub : g.spillable ⊆ Finset.range g.vregs.size :=
    fun v hv => Finset.mem_range.mpr (mem_spillable.mp hv).1
  exact (Finset.card_le_card hsub).trans_eq (Finset.card_range _)

section

variable {file : RegFile} {cfg : AllocConfig} {g : MachFunction τ} {victims : List VReg}

theorem spillable_of_spillRanges {v : VReg}
    (hv : v ∈ (g.spillRanges file cfg victims).spillable) :
    v ∈ g.spillable ∧
      ((g.ranges file cfg).2.slotMap g.spillSlots victims).get v = none := by
  obtain ⟨hsize, hocc, hspill⟩ := mem_spillable.mp hv
  have hnew : TempsFrom g.vregs.size (g.spillRanges file cfg victims).vregs :=
    tempsFrom_spillRanges (fun v hle hlt => absurd hlt (Nat.not_lt.mpr hle)) file cfg victims
  have hlt : v < g.vregs.size := by
    by_contra hle
    rw [hnew v (Nat.le_of_not_lt hle) hsize] at hspill
    exact Bool.noConfusion hspill
  obtain ⟨hbefore, hnone⟩ := mentions_of_spillRanges hlt hocc
  rw [(g.extends_spillRanges file cfg victims).getD hlt] at hspill
  exact ⟨mem_spillable.mpr ⟨hlt, hbefore, hspill⟩, hnone⟩

theorem card_spillable_spillRanges (hfailed : (g.ranges file cfg).2.color.failed ≠ [])
    (hv : (g.ranges file cfg).2.victims (g.ranges file cfg).2.color = .ok victims) :
    (g.spillRanges file cfg victims).spillable.card < g.spillable.card := by
  obtain ⟨root, hroot⟩ := LiveRanges.exists_mem_victims hfailed hv
  obtain ⟨v, hlt, hocc, hspill, rfl⟩ := exists_member_of_victim hv hroot
  apply Finset.card_lt_card
  refine (Finset.ssubset_iff_of_subset fun w hw => (spillable_of_spillRanges hw).1).mpr ?_
  refine ⟨v, mem_spillable.mpr ⟨hlt, hocc, hspill⟩, fun hmem => ?_⟩
  have hsize : v < (g.ranges file cfg).2.size := hlt.trans_eq (g.honest_ranges file cfg).size.symm
  exact LiveRanges.get_slotMap_ne_none hsize hroot (spillable_of_spillRanges hmem).2

end

end MachFunction

def Fault.IsPlaced (e : Fault) : Prop := ∃ phase node defect, e = .internal phase (some node) defect

theorem MachFunction.not_isPlaced_allocFault (f : MachFunction τ) (flaw : AllocFlaw) :
    ¬ (f.allocFault flaw).IsPlaced := by
  rintro ⟨phase, node, defect, h⟩
  rw [allocFault, Fault.internal.injEq] at h
  cases h.2.1

namespace MachFunction

variable {file : RegFile} {f : MachFunction τ} {e : Fault}

theorem isPlaced_of_verify {regs : Array Reg} (h : f.verify file regs = .error e) :
    e.IsPlaced := by
  rw [verify] at h
  split at h
  · exact ⟨_, _, _, (Except.error.inj h).symm⟩
  · cases h

theorem isPlaced_of_lowerPhis {b : Nat} {preds : List Nat} {ps : List Phi}
    (h : (f.lowerPhis file b preds ps).1 = .error e) : e.IsPlaced := by
  have hmap {α β : Type} {r : Except Fault α} {k : α → β} (hr : r.map k = .error e) :
      r = .error e := by
    rcases r with e' | a
    · exact congrArg Except.error (Except.error.inj hr)
    · exact nomatch hr
  induction ps generalizing f with
  | nil => exact nomatch h
  | cons p ps ih =>
    rw [lowerPhis] at h
    split at h
    · exact ⟨_, _, _, (Except.error.inj h).symm⟩
    · exact ih (hmap h)

theorem isPlaced_of_lowerBlockPhis {b : Nat} (h : (f.lowerBlockPhis file b).1 = .error e) :
    e.IsPlaced := by
  rw [lowerBlockPhis] at h
  split at h
  rename_i heads g hlower
  rcases heads with e' | heads
  · obtain rfl := Except.error.inj h
    exact isPlaced_of_lowerPhis (congrArg Prod.fst hlower)
  · cases h

theorem isPlaced_of_lowerAllPhis {bs : List Nat} (h : (f.lowerAllPhis file bs).1 = .error e) :
    e.IsPlaced := by
  induction bs generalizing f with
  | nil => exact nomatch h
  | cons b bs ih =>
    rw [lowerAllPhis] at h
    split at h
    · exact ih h
    · rename_i e' g hblock
      obtain rfl := Except.error.inj h
      exact isPlaced_of_lowerBlockPhis (congrArg Prod.fst hblock)

theorem isPlaced_of_legalize (h : (f.legalize file).1 = .error e) : e.IsPlaced := by
  rw [legalize] at h
  split at h
  · cases h
  · rename_i e' g hlower
    obtain rfl := Except.error.inj h
    exact isPlaced_of_lowerAllPhis (congrArg Prod.fst hlower)

variable {cfg : AllocConfig} {g : MachFunction τ} {victims : List VReg} {k : Nat}

theorem allocateRounds_spill (hfailed : (g.ranges file cfg).2.color.failed ≠ [])
    (hv : (g.ranges file cfg).2.victims (g.ranges file cfg).2.color = .ok victims) (k : Nat)
    (p : Progress) : ∃ p', allocateRounds file cfg (k + 1) p g =
      allocateRounds file cfg k p' (g.spillRanges file cfg victims) := by
  have hsome : (g.ranges file cfg).2.color.failed.isEmpty = false :=
    List.isEmpty_eq_false_iff.mpr hfailed
  rw [allocateRounds]
  simp only [hsome, hv, Bool.false_eq_true, if_false]
  exact ⟨_, rfl⟩

theorem allocateRounds_ne_noAssignment (hk : g.spillable.card < k) (p : Progress)
    (h : MachFunction τ) (n : Nat) :
    (allocateRounds file cfg k p g).1 ≠ .error (h.allocFault (.noAssignment n)) := by
  induction k generalizing p g with
  | zero => exact absurd hk (Nat.not_lt_zero _)
  | succ k ih =>
    by_cases hfailed : (g.ranges file cfg).2.color.failed = []
    · intro he
      simp only [allocateRounds, hfailed, List.isEmpty_nil, if_true] at he
      rcases hverify : g.verify file ((g.ranges file cfg).2.assign file g.vregs
          (g.ranges file cfg).2.color) with e | u
      · -- the check has an assignment before it, and its faults name an instruction
        rw [hverify] at he
        obtain rfl := Except.error.inj he
        exact h.not_isPlaced_allocFault _ (isPlaced_of_verify hverify)
      · rw [hverify] at he
        cases he
    · rcases hv : (g.ranges file cfg).2.victims (g.ranges file cfg).2.color with v | victims
      · have hsome : (g.ranges file cfg).2.color.failed.isEmpty = false :=
          List.isEmpty_eq_false_iff.mpr hfailed
        simp [allocateRounds, hsome, hv, allocFault]
      · obtain ⟨p', hnext⟩ := allocateRounds_spill hfailed hv k p
        have hless := card_spillable_spillRanges hfailed hv
        rw [hnext]
        exact ih (by omega) p'

end MachFunction

/-- Allocation ends by spilling. In a round that has found no assignment, but ranges to spill, the
registers that occur and may be spilled get fewer, and allocation goes on with one round less. So
with more rounds than there are registers in legal form it does not fail for lack of rounds. -/
theorem spilling_ends (f : MachFunction τ) (file : RegFile) (cfg : AllocConfig) :
    (∀ (g : MachFunction τ) (victims : List VReg), (g.ranges file cfg).2.color.failed ≠ [] →
      (g.ranges file cfg).2.victims (g.ranges file cfg).2.color = .ok victims →
      (g.spillRanges file cfg victims).spillable.card < g.spillable.card ∧
      ∀ k p, ∃ p', MachFunction.allocateRounds file cfg (k + 1) p g =
        MachFunction.allocateRounds file cfg k p' (g.spillRanges file cfg victims)) ∧
    ((f.legalize file).2.vregs.size < cfg.maxRounds →
      ∀ (h : MachFunction τ) (n : Nat),
        (f.allocate file cfg).1 ≠ .error (h.allocFault (.noAssignment n))) := by
  constructor
  · intro g victims hfailed hv
    exact ⟨MachFunction.card_spillable_spillRanges hfailed hv,
      MachFunction.allocateRounds_spill hfailed hv⟩
  · intro hrounds h n he
    rw [MachFunction.allocate] at he
    split at he
    · rename_i g hlegal
      rw [hlegal] at hrounds
      exact MachFunction.allocateRounds_ne_noAssignment
        (g.card_spillable_le.trans_lt hrounds) {} h n he
    · rename_i e g hlegal
      obtain rfl := Except.error.inj he
      exact h.not_isPlaced_allocFault _
        (MachFunction.isPlaced_of_legalize (congrArg Prod.fst hlegal))

/-- Two values that live at once do not fit one register. Spilling leaves fewer registers that may be
spilled, and the rounds suffice. -/
theorem spilling_ends_copyAcross :
    ((copyAcross.legalize oneRegister).2.spillRanges oneRegister {} [3]).spillable.card <
      (copyAcross.legalize oneRegister).2.spillable.card ∧
    ∀ n, (copyAcross.allocate oneRegister {}).1 ≠
      .error (copyAcross.allocFault (.noAssignment n)) := by
  have hcolor : ((copyAcross.legalize oneRegister).2.ranges oneRegister {}).2.color.failed ≠ [] ∧
      ((copyAcross.legalize oneRegister).2.ranges oneRegister {}).2.victims
        ((copyAcross.legalize oneRegister).2.ranges oneRegister {}).2.color = .ok [3] := by
    rw [LiveRanges.color, LiveRanges.turns_of_sorted (by decide +kernel)]
    decide +kernel
  obtain ⟨hround, hends⟩ := spilling_ends copyAcross oneRegister {}
  exact ⟨(hround _ [3] hcolor.1 hcolor.2).1, hends (by decide +kernel) copyAcross⟩

end SeaNodes
