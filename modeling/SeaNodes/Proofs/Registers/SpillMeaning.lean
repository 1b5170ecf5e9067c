import SeaNodes.Proofs.Registers.SpillRanges
import SeaNodes.Proofs.Registers.TiedCopies

namespace SeaNodes

variable {τ : Type}

namespace Inst

instance (i : Inst τ) (v : VReg) : Decidable (i.Mentions v) :=
  inferInstanceAs (Decidable (∃ o ∈ i.operands, o.vreg = v))

theorem isCopy_of_slot? {x : Inst τ} {σ : UInt32} (h : x.op.slot? = some σ) : x.isCopy = false := by
  rw [isCopy]
  cases hop : x.op with
  | copy c =>
    rw [hop] at h
    cases h
  | _ => rfl

/-- `x` belongs to the spill code around `i`: it mentions registers of `i` that are not spilled and
new ones, from `lo` on, and accesses the slot of `i` or one of a spilled register. -/
structure SpilledFrom (slots : SlotMap) (lo : Nat) (i x : Inst τ) : Prop where
  mentions : ∀ v, x.Mentions v → lo ≤ v ∨ (i.Mentions v ∧ slots.get v = none)
  slot : ∀ σ, x.op.slot? = some σ → i.op.slot? = some σ ∨ ∃ v, slots.get v = some σ
  copy : x.isCopy → i.isCopy ∧ x.defs.length = i.defs.length ∧ x.uses.length = i.uses.length

variable {file : RegFile} {slots : SlotMap} {vs vs' : Array VRegInfo}

theorem spilled_def {node : Edge} {k : Nat} {os : List Operand}
    {ds : List (List (Inst τ) × Operand)}
    (h : Isolated (storeTo file slots node) (SpillsDef slots) k vs os ds vs') {o : Operand}
    (ho : o ∈ ds.map (·.2)) : vs.size ≤ o.vreg ∨ (o ∈ os ∧ slots.get o.vreg = none) := by
  induction h with
  | nil => exact absurd ho List.not_mem_nil
  | @keep k vs vs' a os ds hkeep _ ih =>
    rcases List.mem_cons.mp ho with rfl | ho
    · exact .inr ⟨List.mem_cons_self, by simpa [SpillsDef] using hkeep⟩
    · exact (ih ho).imp_right (And.imp_left (List.mem_cons_of_mem a))
  | @move k vs vs' info a os ds _ _ ih =>
    rcases List.mem_cons.mp ho with rfl | ho
    · exact .inl (Nat.le_refl _)
    · rcases ih ho with hlo | hmem
      · rw [Array.size_push] at hlo
        exact .inl (Nat.le_of_succ_le hlo)
      · exact .inr (hmem.imp_left (List.mem_cons_of_mem a))

theorem spilledFrom_throughSlots {i : Inst τ} {seg : List (Inst τ)}
    (h : (i.throughSlots file slots).run vs = (seg, vs')) :
    ∀ x ∈ seg, SpilledFrom slots vs.size i x := by
  intro x hx
  rcases hc : i.isSlotCopy slots with _ | _
  case true =>
    rw [throughSlots_run_slotCopy file slots i hc] at h
    rw [← (Prod.mk.inj h).1] at hx
    exact absurd hx List.not_mem_nil
  case false =>
    obtain ⟨uses, r, ds, vs₁, huses, hdefs, rfl⟩ := throughSlots_loops file slots i hc h
    obtain ⟨hloads, hext, -, hread⟩ := reloadUses_run file slots i.node i.uses huses
      ⟨by simp, by simp, by simp⟩ (Nat.le_refl vs.size)
    rw [List.mem_append, List.mem_cons] at hx
    rcases hx with hx | rfl | hx
    · obtain ⟨v, σ, hv, hσ⟩ := exists_slot_of_mem_loads i.uses huses x hx
      refine ⟨fun w hw => .inl ?_, fun ρ hρ => .inr ⟨v, ?_⟩, fun hcopy => ?_⟩
      · by_contra hlt
        exact (hloads.loads x hx).not_mentions (Nat.lt_of_not_le hlt) hw
      · rw [hv, ← hσ, hρ]
      · rw [isCopy_of_slot? hσ] at hcopy
        exact absurd hcopy Bool.false_ne_true
    · refine ⟨fun w hw => ?_, fun ρ hρ => .inl hρ, fun hcopy => ⟨hcopy, ?_, hread.length_eq.symm⟩⟩
      · rcases mentions_iff.mp hw with ⟨o, ho, rfl⟩ | ⟨o, ho, rfl⟩
        · rcases spilled_def hdefs ho with hlo | ⟨ho, hnone⟩
          · exact .inl (hext.size_le.trans hlo)
          · exact .inr ⟨Writes.mentions ⟨o, ho, rfl⟩, hnone⟩
        · obtain ⟨⟨k, hk⟩, rfl⟩ := List.mem_iff_get.mp ho
          have hk' : k < i.uses.length := hread.length_eq ▸ hk
          rcases hread.get hk' hk with ⟨heq, hnone⟩ | ⟨-, y, hy, hw⟩
          · rw [List.get_eq_getElem] at heq ⊢
            rw [heq]
            exact .inr ⟨Reads.mentions ⟨_, List.getElem_mem hk', rfl⟩, hnone⟩
          · exact .inl ((hloads.loads y hy).range hw).1
      · rw [List.length_map, hdefs.length]
    · obtain ⟨v, σ, hv, hσ⟩ := exists_slot_of_mem_stores hdefs hx
      refine ⟨fun w hw => .inl ?_, fun ρ hρ => .inr ⟨v, ?_⟩, fun hcopy => ?_⟩
      · obtain ⟨c, t, o, -, rfl, hlo, -⟩ := hdefs.copies hx
        rcases mentions_iff.mp hw with hw | hw
        · exact absurd hw not_writes_storeTo
        · rw [reads_storeTo] at hw
          exact hw ▸ hext.size_le.trans hlo
      · rw [hv, ← hσ, hρ]
      · rw [isCopy_of_slot? hσ] at hcopy
        exact absurd hcopy Bool.false_ne_true

end Inst

/-- All registers from number `n` on were made by spilling. -/
def TempsFrom (n : Nat) (vs : Array VRegInfo) : Prop :=
  ∀ v, n ≤ v → v < vs.size → (vs.getD v default).unspillable = true

theorem TempsFrom.push {n : Nat} {vs : Array VRegInfo} (h : TempsFrom n vs) {info : VRegInfo}
    (hinfo : info.unspillable = true) : TempsFrom n (vs.push info) := by
  intro v hn hv
  rw [Array.size_push] at hv
  rw [Array.getD_eq_getD_getElem?, Array.getElem?_push]
  split
  · exact hinfo
  · rw [← Array.getD_eq_getD_getElem?]
    exact h v hn (by omega)

theorem TempsFrom.throughSlots {n : Nat} {file : RegFile} {slots : SlotMap}
    {vs vs' : Array VRegInfo} (h : TempsFrom n vs) {i : Inst τ} {seg : List (Inst τ)}
    (hrun : (i.throughSlots file slots).run vs = (seg, vs')) : TempsFrom n vs' := by
  have hdef (o : Operand) {ws : Array VRegInfo} (hws : TempsFrom n ws) :
      TempsFrom n ((Inst.storeDef (τ := τ) file slots i.node o).run ws).2 := by
    rcases hslot : slots.get o.vreg with _ | σ
    · simp only [Inst.storeDef, hslot]
      exact hws
    · simp only [Inst.storeDef, hslot]
      exact hws.push rfl
  have hdefs (os : List Operand) {ws : Array VRegInfo} (hws : TempsFrom n ws) :
      TempsFrom n ((os.mapM (Inst.storeDef (τ := τ) file slots i.node)).run ws).2 := by
    induction os generalizing ws with
    | nil => exact hws
    | cons o os ih =>
      rw [List.mapM_cons]
      exact ih (hdef o hws)
  rw [Inst.throughSlots] at hrun
  split at hrun
  · rw [← (Prod.mk.inj hrun).2]
    exact h
  · rw [← (Prod.mk.inj hrun).2]
    apply hdefs
    apply Inst.reloadUses_induction (P := fun _ ws => TempsFrom n ws) _ i.uses rfl h
    exact fun _ _ _ _ _ _ hws _ hinfo => hws.push hinfo

namespace MachFunction

/-- The registers below `n` that occur. -/
def occurring (n : Nat) (g : MachFunction τ) : Finset Nat :=
  (Finset.range n).filter fun v => ∃ i ∈ g.insts, i.Mentions v

/-- What holds of the function in every round: only the first `n` registers may be spilled, and each
slot beyond those that were there at first stands for one of them that no longer occurs. -/
structure SlotBudget (n limit : Nat) (g : MachFunction τ) : Prop where
  tidy : g.Tidy
  ties : g.CopyTies
  size : n ≤ g.vregs.size
  copies : g.PlainCopies
  below : ∀ i ∈ g.insts, i.below g.spillSlots
  temps : TempsFrom n g.vregs
  slots : g.spillSlots.toNat + (g.occurring n).card ≤ limit

section

variable {file : RegFile} {cfg : AllocConfig} {f g : MachFunction τ} {victims : List VReg}
  {n limit : Nat}

theorem SlotBudget.faithful (B : g.SlotBudget n limit) (file : RegFile) (cfg : AllocConfig) :
    (g.ranges file cfg).2.Faithful g g.Untied :=
  B.tidy.faithful_ranges (fun _ _ => B.ties.not_tiedTogether B.tidy) file cfg

theorem exists_member_of_victim
    (hv : (g.ranges file cfg).2.victims (g.ranges file cfg).2.color = .ok victims) {root : VReg}
    (hroot : root ∈ victims) : ∃ v, v < g.vregs.size ∧ (∃ i ∈ g.insts, i.Mentions v) ∧
      (g.vregs.getD v default).unspillable = false ∧ (g.ranges file cfg).2.find v = root := by
  have H := g.honest_ranges file cfg
  obtain ⟨hspill, hroots⟩ := (LiveRanges.victims_spec hv).2 root hroot
  obtain ⟨-, v, hlt, hocc, rfl⟩ := LiveRanges.mem_roots.mp hroots
  have hlt' : v < g.vregs.size := hlt.trans_eq H.size
  exact ⟨v, hlt', H.occurs v hocc, H.spillable v hlt' hspill, rfl⟩

theorem SlotBudget.exists_member (B : g.SlotBudget n limit)
    (hv : (g.ranges file cfg).2.victims (g.ranges file cfg).2.color = .ok victims) {root : VReg}
    (hroot : root ∈ victims) : ∃ v ∈ g.occurring n, (g.ranges file cfg).2.find v = root := by
  obtain ⟨v, hlt, hocc, hspill, hfind⟩ := exists_member_of_victim hv hroot
  refine ⟨v, Finset.mem_filter.mpr ⟨?_, hocc⟩, hfind⟩
  rw [Finset.mem_range]
  by_contra hn
  rw [B.temps v (Nat.le_of_not_lt hn) hlt] at hspill
  exact Bool.noConfusion hspill

theorem SlotBudget.lt_of_mem_members (B : g.SlotBudget n limit)
    (hv : (g.ranges file cfg).2.victims (g.ranges file cfg).2.color = .ok victims) {root : VReg}
    (hroot : root ∈ victims) {v : VReg} (hmem : v ∈ (g.ranges file cfg).2.members root) :
    v < n := by
  have F := B.faithful file cfg
  have H := g.honest_ranges file cfg
  rw [LiveRanges.members, List.mem_filter, List.mem_range, beq_iff_eq] at hmem
  have hlt : v < g.vregs.size := hmem.1.trans_eq F.size
  by_contra hn
  have htemp := B.temps v (Nat.le_of_not_lt hn) hlt
  rw [H.spillable v hlt (hmem.2 ▸ ((LiveRanges.victims_spec hv).2 root hroot).1)] at htemp
  exact absurd htemp Bool.false_ne_true

theorem extends_spillRanges (g : MachFunction τ) (file : RegFile) (cfg : AllocConfig)
    (victims : List VReg) : Extends g.vregs (g.spillRanges file cfg victims).vregs := by
  obtain ⟨taken, R⟩ := g.exists_rewrittenTo_spillRanges file cfg victims
  have hfresh := Inst.freshRewriting_throughSlots (τ := τ) file
    ((g.ranges file cfg).2.slotMap g.spillSlots victims)
  exact (R.extends_taken hfresh 0).trans (R.taken_extends hfresh 0)

theorem tempsFrom_spillRanges {n : Nat} (h : TempsFrom n g.vregs) (file : RegFile)
    (cfg : AllocConfig) (victims : List VReg) :
    TempsFrom n (g.spillRanges file cfg victims).vregs := by
  obtain ⟨taken, R⟩ := g.exists_rewrittenTo_spillRanges file cfg victims
  have hblock {vs vs' : Array VRegInfo} {is out : List (Inst τ)}
      (h : Rewritten (·.throughSlots file ((g.ranges file cfg).2.slotMap g.spillSlots victims))
        vs is out vs') (hvs : TempsFrom n vs) : TempsFrom n vs' := by
    induction h with
    | nil => exact hvs
    | cons hseg _ ih => exact ih (hvs.throughSlots hseg)
  have htaken (b : Nat) : TempsFrom n (taken b) := by
    induction b with
    | zero => exact R.first ▸ h
    | succ b ih => exact hblock (R.block b) ih
  exact R.last _ (Nat.le_refl _) ▸ htaken _

theorem exists_spilledFrom {x : Inst τ} (hx : x ∈ (g.spillRanges file cfg victims).insts) :
    ∃ i ∈ g.insts, Inst.SpilledFrom ((g.ranges file cfg).2.slotMap g.spillSlots victims)
      g.vregs.size i x := by
  obtain ⟨taken, R⟩ := g.exists_rewrittenTo_spillRanges file cfg victims
  obtain ⟨b, pre, post, hsplit⟩ := exists_split hx
  obtain ⟨isA, i, isB, outA, outB, segA, segB, vs₁, vs₂, S, -, -⟩ := R.locate hsplit
  have hfrom := Inst.spilledFrom_throughSlots S.run x (by simp)
  have hle := (S.extends R (Inst.freshRewriting_throughSlots file _)).size_le
  refine ⟨i, mem_insts (b := b) (by simp [S.source]), fun v hv => ?_, hfrom.slot, hfrom.copy⟩
  exact (hfrom.mentions v hv).imp_left hle.trans

/-- Of the registers there were, those that still occur did so before and are not spilled. -/
theorem mentions_of_spillRanges {v : VReg} (hlt : v < g.vregs.size)
    (h : ∃ x ∈ (g.spillRanges file cfg victims).insts, x.Mentions v) :
    (∃ i ∈ g.insts, i.Mentions v) ∧
      ((g.ranges file cfg).2.slotMap g.spillSlots victims).get v = none := by
  obtain ⟨x, hx, hxv⟩ := h
  obtain ⟨i, hi, hfrom⟩ := exists_spilledFrom hx
  rcases hfrom.mentions v hxv with hle | ⟨hiv, hnone⟩
  · exact absurd hlt (Nat.not_lt.mpr hle)
  · exact ⟨⟨i, hi, hiv⟩, hnone⟩

theorem SlotBudget.card_occurring (B : g.SlotBudget n limit)
    (hv : (g.ranges file cfg).2.victims (g.ranges file cfg).2.color = .ok victims) :
    ((g.spillRanges file cfg victims).occurring n).card + victims.length ≤
      (g.occurring n).card := by
  have F := B.faithful file cfg
  have hkept {v : VReg} (hv : v ∈ (g.spillRanges file cfg victims).occurring n) :
      v ∈ g.occurring n ∧
        ((g.ranges file cfg).2.slotMap g.spillSlots victims).get v = none := by
    rw [occurring, Finset.mem_filter, Finset.mem_range] at hv
    obtain ⟨hocc, hnone⟩ := mentions_of_spillRanges (hv.1.trans_le B.size) hv.2
    exact ⟨Finset.mem_filter.mpr ⟨Finset.mem_range.mpr hv.1, hocc⟩, hnone⟩
  have hsub : (g.spillRanges file cfg victims).occurring n ⊆ g.occurring n :=
    fun v hv => (hkept hv).1
  have hcover : victims.toFinset ⊆
      (g.occurring n \ (g.spillRanges file cfg victims).occurring n).image
        (g.ranges file cfg).2.find := by
    intro root hroot
    rw [List.mem_toFinset] at hroot
    obtain ⟨v, hocc, rfl⟩ := B.exists_member hv hroot
    refine Finset.mem_image.mpr ⟨v, Finset.mem_sdiff.mpr ⟨hocc, fun hmem => ?_⟩, rfl⟩
    have hlt : v < (g.ranges file cfg).2.size := by
      rw [occurring, Finset.mem_filter, Finset.mem_range] at hocc
      exact (hocc.1.trans_le B.size).trans_eq F.size.symm
    exact LiveRanges.get_slotMap_ne_none hlt hroot (hkept hmem).2
  have hcard := (Finset.card_le_card hcover).trans Finset.card_image_le
  rw [List.toFinset_card_of_nodup (LiveRanges.victims_spec hv).1] at hcard
  have htotal := Finset.card_sdiff_add_card_eq_card hsub
  omega

theorem SlotBudget.toNat_spillSlots (B : g.SlotBudget n limit) (hlimit : limit < 2 ^ 32)
    (hv : (g.ranges file cfg).2.victims (g.ranges file cfg).2.color = .ok victims) :
    g.spillSlots.toNat + victims.length < 2 ^ 32 ∧
      (g.spillRanges file cfg victims).spillSlots.toNat =
        g.spillSlots.toNat + victims.length := by
  have hcard := B.card_occurring hv
  have hslots := B.slots
  have hfit : g.spillSlots.toNat + victims.length < 2 ^ 32 := by omega
  refine ⟨hfit, ?_⟩
  rw [spillRanges, UInt32.toNat_add]
  simp only [Nat.toUInt32, UInt32.toNat_ofNat']
  omega

theorem SlotBudget.slot_bounds (B : g.SlotBudget n limit) (hlimit : limit < 2 ^ 32)
    (hv : (g.ranges file cfg).2.victims (g.ranges file cfg).2.color = .ok victims) {v : VReg}
    {σ : UInt32} (hσ : ((g.ranges file cfg).2.slotMap g.spillSlots victims).get v = some σ) :
    g.spillSlots ≤ σ ∧ σ < (g.spillRanges file cfg victims).spillSlots := by
  obtain ⟨hfit, hnat⟩ := B.toNat_spillSlots hlimit hv
  obtain ⟨-, k, hk, rfl⟩ := LiveRanges.get_slotMap_some hσ
  have hklt := (List.getElem?_eq_some_iff.mp hk).1
  rw [UInt32.le_iff_toNat_le, UInt32.lt_iff_toNat_lt, hnat, UInt32.toNat_add]
  simp only [Nat.toUInt32, UInt32.toNat_ofNat']
  omega

/-- In every round registers that clash are in different slots, the ends of ties are in one slot, and
the slots are new. -/
theorem SlotBudget.slotted (B : g.SlotBudget n limit) (hlimit : limit < 2 ^ 32)
    (hv : (g.ranges file cfg).2.victims (g.ranges file cfg).2.color = .ok victims) :
    g.Slotted ((g.ranges file cfg).2.slotMap g.spillSlots victims) g.spillSlots := by
  have F := B.faithful file cfg
  have hlt {i : Inst τ} (hi : i ∈ g.insts) {v : VReg} (hv : i.Mentions v) :
      v < (g.ranges file cfg).2.size := by
    obtain ⟨o, ho, rfl⟩ := hv
    exact (B.tidy.inRange i hi o ho).trans_eq F.size.symm
  refine ⟨fun x y hc σ hx hy => ?_, ?_, fun v σ hσ => (B.slot_bounds hlimit hv hσ).1, B.below⟩
  · exact (F.apart x y hc).1
      (LiveRanges.find_eq_of_get_slotMap (B.toNat_spillSlots hlimit hv).1 hx hy)
  · rintro d u ⟨i, hi, ht⟩
    exact LiveRanges.get_slotMap_congr _ _ (hlt hi (Inst.writes_of_tie? ht).mentions)
      (hlt hi (Inst.reads_of_tie? ht).mentions) (F.ties d u ⟨i, hi, ht⟩)

theorem SlotBudget.spillRanges (B : g.SlotBudget n limit) (hlimit : limit < 2 ^ 32)
    (hv : (g.ranges file cfg).2.victims (g.ranges file cfg).2.color = .ok victims) :
    (g.spillRanges file cfg victims).SlotBudget n limit := by
  have hgrow := g.extends_spillRanges file cfg victims
  obtain ⟨hfit, hnat⟩ := B.toNat_spillSlots hlimit hv
  obtain ⟨taken, R⟩ := g.exists_rewrittenTo_spillRanges file cfg victims
  refine ⟨B.tidy.spilled R, B.ties.spilled B.tidy.inRange B.copies (B.slotted hlimit hv).together R,
    B.size.trans hgrow.size_le, fun x hx hc => ?_, fun x hx => ?_,
    tempsFrom_spillRanges B.temps file cfg victims, ?_⟩
  · obtain ⟨i, hi, hfrom⟩ := exists_spilledFrom hx
    obtain ⟨hic, hd, hu⟩ := hfrom.copy hc
    obtain ⟨d, u, hdefs, huses⟩ := B.copies i hi hic
    rw [hdefs, List.length_singleton, List.length_eq_one_iff] at hd
    rw [huses, List.length_singleton, List.length_eq_one_iff] at hu
    exact ⟨_, _, hd.choose_spec, hu.choose_spec⟩
  · obtain ⟨i, hi, hfrom⟩ := exists_spilledFrom hx
    rw [Inst.below, Option.all_eq_true]
    intro σ hσ
    rw [decide_eq_true_eq]
    rcases hfrom.slot σ hσ with hold | ⟨v, hv'⟩
    · have hlt := (B.slotted hlimit hv).slot_lt hi hold
      rw [UInt32.lt_iff_toNat_lt] at hlt ⊢
      omega
    · exact (B.slot_bounds hlimit hv hv').2
  · have hcard := B.card_occurring hv
    have hslots := B.slots
    omega

theorem spillSlots_insertCopies (file : RegFile) (c : RegClass) (p : Phi) (t : VReg)
    (places : List (Nat × VReg)) (f : MachFunction τ) : (places.foldl (fun f (q, arg) =>
      f.modifyBlock q (·.insertAtEnd [.ofCopy file c p.node t arg])) f).spillSlots =
    f.spillSlots := by
  induction places generalizing f with
  | nil => rfl
  | cons place places ih => exact ih _

theorem spillSlots_lowerPhis (file : RegFile) (b : Nat) (preds : List Nat) (ps : List Phi)
    (f : MachFunction τ) : (f.lowerPhis file b preds ps).2.spillSlots = f.spillSlots := by
  induction ps generalizing f with
  | nil => rfl
  | cons p ps ih =>
    rw [lowerPhis]
    split
    · rfl
    · exact (ih _).trans (spillSlots_insertCopies file _ p _ _ _)

theorem spillSlots_legalize (file : RegFile) (f : MachFunction τ) :
    (f.legalize file).2.spillSlots = f.spillSlots := by
  have hblock (b : Nat) (f : MachFunction τ) :
      (f.lowerBlockPhis file b).2.spillSlots = f.spillSlots := by
    have h := spillSlots_lowerPhis file b (f.block b).preds (f.block b).phis
      (f.modifyBlock b ({ · with phis := [] }))
    rw [lowerBlockPhis]
    rcases hlower : (f.modifyBlock b ({ · with phis := [] })).lowerPhis file b (f.block b).preds
      (f.block b).phis with ⟨_ | heads, g⟩
    · rw [hlower] at h
      exact h
    · rw [hlower] at h
      exact h
  have hall (bs : List Nat) (f : MachFunction τ) :
      (f.lowerAllPhis file bs).2.spillSlots = f.spillSlots := by
    induction bs generalizing f with
    | nil => rfl
    | cons b bs ih =>
      rw [lowerAllPhis]
      split
      · rename_i g hg
        have h := hblock b f
        rw [hg] at h
        exact (ih g).trans h
      · rename_i e g hg
        have h := hblock b f
        rwa [hg] at h
  have h := hall (List.range f.blocks.size) f
  rw [legalize]
  split
  · rename_i g hg
    rw [hg] at h
    exact h
  · rename_i e g hg
    rwa [hg] at h

/-- Legal form stays within the budget of one slot for each register. -/
theorem slotBudget_legalize (hf : f.Strict) (hssa : f.Ssa) (hcopy : f.PlainCopies)
    (hslots : ∀ i ∈ f.insts, i.below f.spillSlots) (file : RegFile) :
    (f.legalize file).2.SlotBudget (f.legalize file).2.vregs.size
      (f.spillSlots.toNat + (f.legalize file).2.vregs.size) := by
  obtain ⟨body, closing, ts, h, taken, hin, -, L, R, hrun⟩ := exists_legalize hf.phisFit file
  obtain ⟨g, hg, -, htidy⟩ := hf.tidy_legalize hssa.noSelfReads file
  have hties := hssa.copyTies_legalize hf file
  have hspill : g.spillSlots = f.spillSlots := by
    rw [← spillSlots_legalize file f, hg]
  rw [hg] at hrun hties ⊢
  obtain rfl : g = h.rewriteInsts (·.isolate file) := (Prod.mk.inj hrun).2
  let Fine (x : Inst τ) : Prop :=
    (x.isCopy → ∃ d u, x.defs = [d] ∧ x.uses = [u]) ∧ x.below f.spillSlots
  have hnew (c : RegClass) (node : Edge) (t s : VReg) :
      Fine (.ofCopy file c node t s) := ⟨fun _ => ⟨_, _, rfl, rfl⟩, rfl⟩
  have hlowered (x : Inst τ) (hx : x ∈ h.insts) : Fine x := by
    obtain ⟨b, hb⟩ := mem_insts_iff.mp hx
    rcases L.mem_insts hin hb with ⟨p, -, rfl⟩ | hb | ⟨p, -, a, -, rfl⟩
    · exact hnew _ _ _ _
    · exact ⟨hcopy x (MachFunction.mem_insts hb), hslots x (MachFunction.mem_insts hb)⟩
    · exact hnew _ _ _ _
  have hall (x : Inst τ) (hx : x ∈ (h.rewriteInsts (·.isolate file)).insts) : Fine x := by
    rcases mem_of_isolate R hx with ⟨hx, -⟩ | ⟨c, node, t, s, rfl⟩ |
      ⟨i, hi, us, ds, vs, vs', hc, rfl, -⟩
    · exact hlowered x hx
    · exact hnew c node t s
    · exact ⟨fun hcopy => absurd (hc.symm.trans hcopy) Bool.false_ne_true, (hlowered i hi).2⟩
  refine ⟨htidy, hties, Nat.le_refl _, fun x hx => (hall x hx).1, fun x hx => ?_, fun v hn hv => ?_, ?_⟩
  · rw [hspill]
    exact (hall x hx).2
  · exact absurd hv (Nat.not_lt.mpr hn)
  · have hcard := Finset.card_filter_le (Finset.range (h.rewriteInsts (·.isolate file)).vregs.size)
      fun v => ∃ i ∈ (h.rewriteInsts (·.isolate file)).insts, i.Mentions v
    rw [Finset.card_range] at hcard
    rw [hspill]
    exact Nat.add_le_add_left hcard _

theorem Round.slotBudget (hf : f.Strict) (hssa : f.Ssa) (hcopy : f.PlainCopies)
    (hslots : ∀ i ∈ f.insts, i.below f.spillSlots)
    (hfit : f.spillSlots.toNat + (f.legalize file).2.vregs.size < 2 ^ 32)
    (h : f.Round file cfg g) : g.SlotBudget (f.legalize file).2.vregs.size
      (f.spillSlots.toNat + (f.legalize file).2.vregs.size) := by
  induction h with
  | @legal g hg =>
    have hbudget := slotBudget_legalize hf hssa hcopy hslots file
    rwa [hg] at hbudget ⊢
  | spill _ hv ih => exact ih.spillRanges hfit hv

end

end MachFunction

/-- Spilling keeps the meaning of the code, in every round of allocation. Let `f` be strict, in the
form of static single assignments, with copies from one register to one other, and spill code for the
slots of its frame at most. In every round, for the ranges that are chosen:

* every member is a register of the legal form, so none was made by spill code before;
* along every path that is reached the instructions that are kept read the same values, in the same
  order, when the members of a range share a stack slot and the copies inside a slot are dropped,
  whatever the operations compute, if the registers that are live into the path have the same values,
  wherever they are, and so have the old slots. -/
theorem spillRanges_meaning (f : MachFunction τ) (file : RegFile) (cfg : AllocConfig)
    (hf : f.Strict) (hssa : f.Ssa) (hcopy : f.PlainCopies)
    (hslots : ∀ i ∈ f.insts, i.below f.spillSlots)
    (hfit : f.spillSlots.toNat + (f.legalize file).2.vregs.size < 2 ^ 32) (g : MachFunction τ)
    (hg : f.Round file cfg g) (victims : List VReg)
    (hv : (g.ranges file cfg).2.victims (g.ranges file cfg).2.color = .ok victims) :
    (∀ root ∈ victims, ∀ v ∈ (g.ranges file cfg).2.members root,
      v < (f.legalize file).2.vregs.size) ∧
    ∀ {α : Type} (sem : OpSem τ α) (b : Nat) (path : List Nat) (st st' : StackState α),
      g.Reached b → g.IsPath (b :: path) →
      (∀ v, g.LiveInto v b →
        st'.valueOf ((g.ranges file cfg).2.slotMap g.spillSlots victims) v = st.regs v) →
      (∀ σ, σ < g.spillSlots → st'.slots σ = st.slots σ) →
      traceStack (Inst.below g.spillSlots) sem
          ((g.spillRanges file cfg victims).code (b :: path)) st' =
        traceStack
          (fun i => !i.isSlotCopy ((g.ranges file cfg).2.slotMap g.spillSlots victims)) sem
          (g.code (b :: path)) st := by
  have B := hg.slotBudget hf hssa hcopy hslots hfit
  refine ⟨fun root hroot v hmem => B.lt_of_mem_members hv hroot hmem, ?_⟩
  intro α sem b path st st' hb hpath hlive hold
  obtain ⟨taken, R⟩ := g.exists_rewrittenTo_spillRanges file cfg victims
  exact MachFunction.Held.path B.tidy (B.slotted hfit hv) B.copies R sem path b hb hpath st st'
    ⟨hlive, hold⟩

def oneRegister : RegFile where
  names := #["a"]
  int := .single 0
  float := .empty
  scratch := .empty
  flags := none

/-- Two copies of one value, both tied to it and needed at once, with another value in between. -/
def copyAcross : MachFunction Unit where
  name := "across"
  vregs := Array.replicate 4 { cls := .int }
  blocks := #[
    { insts := [
        { op := .const 1, defs := [⟨1, .single 0⟩] },
        { op := .copy .int, defs := [⟨2, .single 0⟩], uses := [⟨1, .single 0⟩], tied := some 0 },
        { op := .copy .int, defs := [⟨3, .single 0⟩], uses := [⟨1, .single 0⟩], tied := some 0 },
        { op := .const 2, defs := [⟨0, .single 0⟩] },
        { op := .storeArg .int 0, uses := [⟨0, .single 0⟩] },
        { op := .storeArg .int 1, uses := [⟨2, .single 0⟩] },
        { op := .ret, uses := [⟨3, .single 0⟩] }] }]

theorem copyAcross_ssa : copyAcross.Ssa := by
  have hphis (b : Nat) : (copyAcross.block b).phis = [] := by
    cases b <;> rfl
  have hreads : ReadsKnown (fun _ => False) (copyAcross.block 0).insts := by
    simp [MachFunction.block, copyAcross, ReadsKnown]
  refine ⟨by decide, fun b pre i post hi o ho => ?_, fun b p hp => ?_, fun b p hp => ?_⟩
  · have hb : b < 1 := MachFunction.lt_of_mem_insts (f := copyAcross) (i := i) (by simp [hi])
    obtain rfl := Nat.lt_one_iff.mp hb
    rw [hi] at hreads
    exact .inr (.inl ((hreads.of_mem ho).resolve_left id))
  · simp [hphis b] at hp
  · simp [hphis b] at hp

/-- The value and its copies are one range, which goes to the stack; the copies are dropped. -/
theorem spillRanges_meaning_copyAcross :
    copyAcross.Strict ∧ copyAcross.Ssa ∧ copyAcross.PlainCopies ∧
    ∃ g, copyAcross.Round oneRegister {} g ∧
      (g.ranges oneRegister {}).2.victims (g.ranges oneRegister {}).2.color = .ok [3] ∧
      (g.ranges oneRegister {}).2.members 3 = [1, 2, 3] ∧
      traceStack (Inst.below 0) (fun _ vals k => vals.sum + k + 1)
          ((g.spillRanges oneRegister {} [3]).code [0]) ⟨fun _ => 0, fun _ => 0⟩ =
        traceStack (fun i => !i.isSlotCopy ((g.ranges oneRegister {}).2.slotMap 0 [3]))
          (fun _ vals k => vals.sum + k + 1) (g.code [0]) ⟨fun _ => 0, fun _ => 0⟩ := by
  have hf : copyAcross.Strict :=
    ⟨by decide, ⟨by decide, by decide, by decide, by decide⟩, by decide⟩
  have hcopy : copyAcross.PlainCopies := by
    intro i hi hc
    simp only [MachFunction.insts, copyAcross] at hi
    fin_cases hi <;> first | exact ⟨_, _, rfl, rfl⟩ | exact absurd hc (by decide)
  have hround : copyAcross.Round oneRegister {} (copyAcross.legalize oneRegister).2 :=
    .legal (Prod.ext (by decide +kernel) rfl)
  have hv : ((copyAcross.legalize oneRegister).2.ranges oneRegister {}).2.victims
      ((copyAcross.legalize oneRegister).2.ranges oneRegister {}).2.color = .ok [3] := by
    rw [LiveRanges.color, LiveRanges.turns_of_sorted (by decide +kernel)]
    decide +kernel
  obtain ⟨-, hmeaning⟩ := spillRanges_meaning copyAcross oneRegister {} hf copyAcross_ssa hcopy
    (by decide) (by decide +kernel) _ hround [3] hv
  refine ⟨hf, copyAcross_ssa, hcopy, _, hround, hv, by decide +kernel, ?_⟩
  apply hmeaning _ 0 [] ⟨fun _ => 0, fun _ => 0⟩ ⟨fun _ => 0, fun _ => 0⟩ .refl
  · exact ⟨by decide +kernel, List.isChain_singleton 0⟩
  · intro v _
    unfold StackState.valueOf
    split <;> rfl
  · exact fun _ _ => rfl

end SeaNodes
