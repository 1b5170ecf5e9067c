import SeaNodes.Proofs.Registers.SpillRun
import SeaNodes.Proofs.Registers.Accepted
import SeaNodes.Proofs.Tables

namespace SeaNodes

variable {τ : Type}

namespace LiveRanges

def slotRange (r : LiveRanges) (free : UInt32) (slots : SlotMap) (p : VReg × Nat) : SlotMap :=
  (r.members p.1).foldl (fun slots v => slots.set v (some (free + p.2.toUInt32))) slots

theorem get_slotRange (r : LiveRanges) (free : UInt32) (slots : SlotMap) (p : VReg × Nat)
    (v : VReg) : (r.slotRange free slots p).get v =
      if v < r.size ∧ r.find v = p.1 then some (free + p.2.toUInt32) else slots.get v := by
  have hloop (vs : List VReg) (slots : SlotMap) (a : Option UInt32) :
      (vs.foldl (fun slots v => slots.set v a) slots).get v =
        if v ∈ vs then a else slots.get v := by
    induction vs generalizing slots with
    | nil => rfl
    | cons w vs ih =>
      rw [List.foldl_cons, ih, SideTable.get_set]
      by_cases hv : v ∈ vs
      · rw [if_pos hv, if_pos (List.mem_cons_of_mem w hv)]
      · rw [if_neg hv]
        by_cases hw : w = v
        · rw [if_pos hw, if_pos (hw ▸ List.mem_cons_self)]
        · rw [if_neg hw, if_neg (by simp [hv, Ne.symm hw])]
  rw [slotRange, hloop]
  simp only [members, List.mem_filter, List.mem_range, beq_iff_eq]

theorem slotMap_eq (r : LiveRanges) (free : UInt32) (victims : List VReg) :
    r.slotMap free victims = victims.zipIdx.foldl (r.slotRange free) {} := rfl

/-- A register has a slot only if its range is spilled, and then the one of its range. -/
theorem get_slotMap_some {r : LiveRanges} {free : UInt32} {victims : List VReg} {v : VReg}
    {σ : UInt32} (h : (r.slotMap free victims).get v = some σ) :
    v < r.size ∧ ∃ k : Nat, victims[k]? = some (r.find v) ∧ σ = free + k.toUInt32 := by
  have hloop (ps : List (VReg × Nat)) (slots : SlotMap)
      (h : (ps.foldl (r.slotRange free) slots).get v = some σ) :
      slots.get v = some σ ∨ v < r.size ∧ ∃ p ∈ ps, p.1 = r.find v ∧ σ = free + p.2.toUInt32 := by
    induction ps generalizing slots with
    | nil => exact .inl h
    | cons p ps ih =>
      rcases ih _ h with h | ⟨hv, q, hq, hroot, hσ⟩
      · rw [get_slotRange] at h
        split at h
        · rename_i hp
          exact .inr ⟨hp.1, p, List.mem_cons_self, hp.2.symm, (Option.some.inj h).symm⟩
        · exact .inl h
      · exact .inr ⟨hv, q, List.mem_cons_of_mem p hq, hroot, hσ⟩
  rw [slotMap_eq] at h
  rcases hloop _ _ h with h | ⟨hv, ⟨root, k⟩, hp, hroot, hσ⟩
  · simp [SideTable.get] at h
  · exact ⟨hv, k, hroot ▸ (List.mem_zipIdx_iff_getElem?.mp hp), hσ⟩

theorem get_slotMap_ne_none {r : LiveRanges} {free : UInt32} {victims : List VReg} {v : VReg}
    (hv : v < r.size) (hroot : r.find v ∈ victims) : (r.slotMap free victims).get v ≠ none := by
  have hloop (ps : List (VReg × Nat)) (slots : SlotMap)
      (h : slots.get v ≠ none ∨ ∃ p ∈ ps, p.1 = r.find v) :
      (ps.foldl (r.slotRange free) slots).get v ≠ none := by
    induction ps generalizing slots with
    | nil => simpa using h
    | cons p ps ih =>
      apply ih
      rw [get_slotRange]
      rcases h with h | ⟨q, hq, hroot⟩
      · left
        split
        · exact Option.some_ne_none _
        · exact h
      · rcases List.mem_cons.mp hq with rfl | hq
        · left
          rw [if_pos ⟨hv, hroot.symm⟩]
          exact Option.some_ne_none _
        · exact .inr ⟨q, hq, hroot⟩
  rw [slotMap_eq]
  apply hloop
  obtain ⟨k, hk⟩ := List.mem_iff_getElem?.mp hroot
  exact .inr ⟨(r.find v, k), List.mem_zipIdx_iff_getElem?.mpr hk, rfl⟩

theorem get_slotMap_congr {r : LiveRanges} (free : UInt32) (victims : List VReg) {v w : VReg}
    (hv : v < r.size) (hw : w < r.size) (h : r.find v = r.find w) :
    (r.slotMap free victims).get v = (r.slotMap free victims).get w := by
  have hloop (ps : List (VReg × Nat)) (slots : SlotMap) (hs : slots.get v = slots.get w) :
      (ps.foldl (r.slotRange free) slots).get v = (ps.foldl (r.slotRange free) slots).get w := by
    induction ps generalizing slots with
    | nil => exact hs
    | cons p ps ih =>
      apply ih
      simp only [get_slotRange, hv, hw, true_and, h, hs]
  exact hloop _ _ rfl

theorem find_eq_of_get_slotMap {r : LiveRanges} {free : UInt32} {victims : List VReg}
    (hfit : free.toNat + victims.length < 2 ^ 32) {v w : VReg} {σ : UInt32}
    (hv : (r.slotMap free victims).get v = some σ) (hw : (r.slotMap free victims).get w = some σ) :
    r.find v = r.find w := by
  obtain ⟨-, k, hk, hσ⟩ := get_slotMap_some hv
  obtain ⟨-, m, hm, hσ'⟩ := get_slotMap_some hw
  have hklt := (List.getElem?_eq_some_iff.mp hk).1
  have hmlt := (List.getElem?_eq_some_iff.mp hm).1
  have hnat := congrArg UInt32.toNat (hσ.symm.trans hσ')
  rw [UInt32.toNat_add, UInt32.toNat_add] at hnat
  simp only [Nat.toUInt32, UInt32.toNat_ofNat'] at hnat
  have hkm : k = m := by omega
  rw [hkm, hm] at hk
  exact (Option.some.inj hk).symm

section

variable {r : LiveRanges} {c : Coloring}

theorem colorOne_of_ne (r : LiveRanges) (partners : Array (List VReg)) (c : Coloring)
    {root v : VReg} (hv : v ≠ root) :
    (v ∈ (r.colorOne partners c root).failed → v ∈ c.failed) ∧
      (r.colorOne partners c root).colorOf v = c.colorOf v := by
  rcases colorOne_cases r partners c root with ⟨reg, -, heq⟩ | heq
  · rw [heq, colorOf_set, if_neg fun h => hv h.1.symm]
    exact ⟨id, rfl⟩
  · rw [heq]
    refine ⟨fun h => ?_, rfl⟩
    simpa [hv] using h

theorem foldl_colorOne_of_notMem (r : LiveRanges) (partners : Array (List VReg)) (c : Coloring)
    (turns : List VReg) {v : VReg} (hv : v ∉ turns) :
    (v ∈ (turns.foldl (r.colorOne partners) c).failed → v ∈ c.failed) ∧
      (turns.foldl (r.colorOne partners) c).colorOf v = c.colorOf v := by
  induction turns generalizing c with
  | nil => exact ⟨id, rfl⟩
  | cons root turns ih =>
    rw [List.mem_cons, not_or] at hv
    obtain ⟨hfailed, hcolor⟩ := colorOne_of_ne r partners c hv.1
    obtain ⟨hfailed', hcolor'⟩ := ih (r.colorOne partners c root) hv.2
    exact ⟨fun h => hfailed (hfailed' h), hcolor'.trans hcolor⟩

theorem mem_roots_of_color {v : VReg} (h : v ∈ r.color.failed ∨ r.color.colorOf v ≠ none) :
    v ∈ r.roots := by
  by_contra hv
  obtain ⟨hfailed, hcolor⟩ := foldl_colorOne_of_notMem r r.partners
    { colors := Array.replicate r.size none } r.turns (mt mem_turns.mp hv)
  rcases h with h | h
  · exact absurd (hfailed h) List.not_mem_nil
  · apply h
    rw [color, hcolor, Coloring.colorOf, Array.getD_eq_getD_getElem?, Array.getElem?_replicate]
    split <;> rfl

theorem cheaper_eq (r : LiveRanges) (a b : VReg) : r.cheaper a b = a ∨ r.cheaper a b = b := by
  rw [cheaper]
  exact ite_eq_or_eq _ a b

theorem mem_of_foldl_cheaper {v : VReg} (ns : List VReg) (best : Option VReg)
    (h : ns.foldl (fun best n => some (match best with
      | some b => r.cheaper b n
      | none => n)) best = some v) : best = some v ∨ v ∈ ns := by
  induction ns generalizing best with
  | nil => exact .inl h
  | cons n ns ih =>
    rcases ih _ h with h | h
    · rcases best with _ | b
      · exact .inr (Option.some.inj h ▸ List.mem_cons_self)
      · obtain rfl : r.cheaper b n = v := Option.some.inj h
        rcases cheaper_eq r b n with hb | hn
        · exact .inl (congrArg some hb.symm)
        · exact .inr (by simp [hn])
    · exact .inr (List.mem_cons_of_mem n h)

theorem spillable_of_victim? {root v : VReg} (h : r.victim? c root = some v) :
    r.isSpillable v ∧ (v = root ∨ c.colorOf v ≠ none) := by
  unfold victim? at h
  split at h
  · rename_i hs
    obtain rfl := Option.some.inj h
    exact ⟨hs, .inl rfl⟩
  · rcases mem_of_foldl_cheaper _ _ h with h | h
    · cases h
    · rw [List.mem_filter, Bool.and_eq_true, Option.any_eq_true] at h
      obtain ⟨-, hs, reg, hreg, -⟩ := h
      exact ⟨hs, .inr (by simp [hreg])⟩

theorem victim?_spec {a root : VReg} (ha : a ∈ r.color.failed)
    (h : r.victim? r.color a = some root) : r.isSpillable root ∧ root ∈ r.roots := by
  obtain ⟨hs, hroot⟩ := spillable_of_victim? h
  refine ⟨hs, mem_roots_of_color ?_⟩
  rcases hroot with rfl | hcolor
  · exact .inl ha
  · exact .inr hcolor

theorem victims_ok {victims : List VReg} (h : r.victims r.color = .ok victims) :
    ∃ all : List VReg, victims = (List.range r.size).filter all.contains ∧
      (∀ root ∈ all, ∃ a ∈ r.color.failed, r.victim? r.color a = some root) ∧
      ∀ a ∈ r.color.failed, ∃ root ∈ all, r.victim? r.color a = some root := by
  have hok {a root : VReg} (h : (match r.victim? r.color a with
      | some v => Except.ok v
      | none => Except.error a) = .ok root) : r.victim? r.color a = some root := by
    split at h
    · rename_i v hv
      rw [hv, Except.ok.inj h]
    · exact nomatch h
  obtain ⟨all, hall, h⟩ := Except.bind_eq_ok h
  refine ⟨all, (Except.ok.inj h).symm, fun root hroot => ?_, fun a ha => ?_⟩
  · obtain ⟨a, ha, hvictim⟩ := Except.exists_of_mem_mapM hall hroot
    exact ⟨a, ha, hok hvictim⟩
  · obtain ⟨j, hj⟩ := List.mem_iff_getElem?.mp ha
    obtain ⟨root, hroot, hvictim⟩ := Except.exists_of_getElem?_mapM hall hj
    exact ⟨root, List.mem_of_getElem? hroot, hok hvictim⟩

theorem victims_spec {victims : List VReg} (h : r.victims r.color = .ok victims) :
    victims.Nodup ∧ ∀ root ∈ victims, r.isSpillable root ∧ root ∈ r.roots := by
  obtain ⟨all, rfl, hall, -⟩ := victims_ok h
  refine ⟨List.nodup_range.filter _, fun root hroot => ?_⟩
  rw [List.mem_filter, List.contains_iff_mem] at hroot
  obtain ⟨a, ha, hvictim⟩ := hall root hroot.2
  exact victim?_spec ha hvictim

/-- When victims are chosen although some range fails, there is one. -/
theorem exists_mem_victims {victims : List VReg} (hfailed : r.color.failed ≠ [])
    (h : r.victims r.color = .ok victims) : ∃ root, root ∈ victims := by
  obtain ⟨all, rfl, -, hall⟩ := victims_ok h
  obtain ⟨a, ha⟩ := List.exists_mem_of_ne_nil _ hfailed
  obtain ⟨root, hroot, hvictim⟩ := hall a ha
  have hlt := (mem_roots.mp (victim?_spec ha hvictim).2).1
  exact ⟨root, by simp [hlt, hroot]⟩

end

/-- A range may be spilled only if all its members may be, and only registers of the instructions
occur. -/
structure Honest (vregs : Array VRegInfo) (is : List (Inst τ)) (r : LiveRanges) : Prop where
  rooted : Rooted r.parent
  size : r.size = vregs.size
  spillable : ∀ v, v < vregs.size → r.isSpillable (r.find v) →
    (vregs.getD v default).unspillable = false
  occurs : ∀ v, r.occurs.getD v false → ∃ i ∈ is, i.Mentions v

theorem Honest.congr {vregs : Array VRegInfo} {is : List (Inst τ)} {r r' : LiveRanges}
    (h : r.Honest vregs is) (hp : r'.parent = r.parent) (hs : r'.spillable = r.spillable)
    (ho : r'.occurs = r.occurs) : r'.Honest vregs is := by
  have hfind (v : VReg) : r'.find v = r.find v := by
    rw [find, find, LiveRanges.size, LiveRanges.size, hp]
  refine ⟨hp ▸ h.rooted, ?_, fun v hv => ?_, fun v => ?_⟩
  · rw [LiveRanges.size, hp]
    exact h.size
  · rw [hfind, isSpillable, hs]
    exact h.spillable v hv
  · rw [ho]
    exact h.occurs v

theorem Honest.initial (file : RegFile) (f : MachFunction τ) :
    (LiveRanges.initial file f).Honest f.vregs ([] : List (Inst τ)) := by
  have hjoining := Joining.initial file f
  refine ⟨hjoining.forest.root, hjoining.size, fun v hv h => ?_, fun v h => ?_⟩
  · have hroot : (LiveRanges.initial file f).find v = v :=
      climb_of_isRoot (by simp [IsRoot, LiveRanges.initial, hv]) _
    rw [hroot] at h
    simpa [isSpillable, LiveRanges.initial, hv] using h
  · simp only [LiveRanges.initial, Array.getD_eq_getD_getElem?, Array.getElem?_map] at h
    rcases hv : f.vregs[v]? with _ | info <;> simp [hv] at h

/-- Joining two ranges makes one that may be spilled if both may. -/
theorem Honest.union {vregs : Array VRegInfo} {is : List (Inst τ)} {r : LiveRanges}
    (h : r.Honest vregs is) (d u : VReg) : (r.union d u).Honest vregs is := by
  by_cases hroots : r.find d = r.find u
  · rw [LiveRanges.union, if_pos hroots]
    exact h
  · have hparent : (r.union d u).parent = r.parent.setIfInBounds (r.find u) (r.find d) := by
      rw [LiveRanges.union, if_neg hroots]
    obtain ⟨hrooted, hfind⟩ := find_hang_cases h.rooted (isRoot_find h.rooted d)
      (isRoot_find h.rooted u) hroots hparent
    have hspill (w : VReg) : (r.union d u).isSpillable w =
        if r.find d = w ∧ r.find d < r.spillable.size then
          r.isSpillable (r.find d) && r.isSpillable (r.find u)
        else r.isSpillable w := by
      rw [LiveRanges.union, if_neg hroots]
      exact getD_setIfInBounds _ _ _ _ _
    -- past the end of the table no range may be spilled, so nothing is lost there
    have hboth (hs : (r.union d u).isSpillable (r.find d)) :
        r.isSpillable (r.find d) ∧ r.isSpillable (r.find u) := by
      rw [hspill] at hs
      split_ifs at hs with hlt
      · simpa using hs
      · have hle : r.spillable.size ≤ r.find d := Nat.le_of_not_lt fun hc => hlt ⟨rfl, hc⟩
        rw [isSpillable, Array.getD_eq_getD_getElem?, Array.getElem?_eq_none hle] at hs
        exact absurd hs Bool.false_ne_true
    refine ⟨hrooted, ?_, fun v hv hs => h.spillable v hv ?_, fun v hv => h.occurs v ?_⟩
    · rw [LiveRanges.size, hparent, Array.size_setIfInBounds]
      exact h.size
    · rcases hfind v with ⟨hvu, hvd⟩ | hsame
      · rw [hvu]
        exact (hboth (hvd ▸ hs)).2
      · rw [hsame] at hs
        by_cases hvd : r.find d = r.find v
        · rw [← hvd] at hs ⊢
          exact (hboth hs).1
        · rwa [hspill, if_neg fun hc => hvd hc.1] at hs
    · rwa [LiveRanges.union, if_neg hroots] at hv

/-- Counting an instruction. -/
theorem Honest.addInst {vregs : Array VRegInfo} {is : List (Inst τ)} {r : LiveRanges}
    (h : r.Honest vregs is) (i : Inst τ) (w : Double) :
    (r.addInst w i).Honest vregs (is ++ [i]) := by
  have hcount (os : List Operand) (r : LiveRanges) :
      (os.foldl (countOperand w) r).parent = r.parent ∧
        (os.foldl (countOperand w) r).spillable = r.spillable ∧
        ∀ v, (os.foldl (countOperand w) r).occurs.getD v false →
          r.occurs.getD v false ∨ ∃ o ∈ os, o.vreg = v := by
    induction os generalizing r with
    | nil => exact ⟨rfl, rfl, fun _ hv => .inl hv⟩
    | cons o os ih =>
      obtain ⟨hp, hs, ho⟩ := ih (countOperand w r o)
      refine ⟨hp, hs, fun v hv => ?_⟩
      rcases ho v hv with hv | ⟨a, ha, hav⟩
      · rw [countOperand, getD_setIfInBounds] at hv
        split_ifs at hv with hov
        · exact .inr ⟨o, List.mem_cons_self, hov.1⟩
        · exact .inl hv
      · exact .inr ⟨a, List.mem_cons_of_mem o ha, hav⟩
  obtain ⟨r₁, hr₁, hone⟩ : ∃ r₁, r.addInst w i = i.operands.foldl (countOperand w) r₁ ∧
      r₁.Honest vregs is := by
    rcases ht : i.tie? with _ | ⟨d, u⟩
    · exact ⟨r, by rw [LiveRanges.addInst, ht]; rfl, h⟩
    · exact ⟨r.union d u, by rw [LiveRanges.addInst, ht]; rfl, h.union d u⟩
  obtain ⟨hp, hs, ho⟩ := hcount i.operands r₁
  rw [← hr₁] at hp hs ho
  have hfind (v : VReg) : (r.addInst w i).find v = r₁.find v := by
    rw [find, find, LiveRanges.size, LiveRanges.size, hp]
  refine ⟨hp ▸ hone.rooted, ?_, fun v hv hspill => hone.spillable v hv ?_, fun v hv => ?_⟩
  · rw [LiveRanges.size, hp]
    exact hone.size
  · rwa [hfind, isSpillable, hs] at hspill
  · rcases ho v hv with hv | hv
    · obtain ⟨j, hj, hjv⟩ := hone.occurs v hv
      exact ⟨j, List.mem_append_left _ hj, hjv⟩
    · exact ⟨i, by simp, hv⟩

/-- What holds of the ranges before ties are joined and is kept by every instruction holds when all
ties are joined. -/
theorem joined_induction {P : List (Inst τ) → LiveRanges → Prop} {file : RegFile}
    {f : MachFunction τ} {w : Double} (hinit : P [] (initial file f))
    (hstep : ∀ is i rest r w, is ++ i :: rest = f.insts → P is r → P (is ++ [i]) (r.addInst w i)) :
    P f.insts (f.blocks.foldl (fun r b => b.insts.foldl (LiveRanges.addInst (b.weight w)) r)
      (initial file f)) := by
  have hinsts (w : Double) (js is rest : List (Inst τ)) (r : LiveRanges)
      (hin : is ++ (js ++ rest) = f.insts) (h : P is r) :
      P (is ++ js) (js.foldl (LiveRanges.addInst w) r) := by
    induction js generalizing is r with
    | nil => simpa using h
    | cons j js ih =>
      have h' := ih (is ++ [j]) _ (by simpa using hin) (hstep is j _ r w hin h)
      simpa using h'
  have hblocks (bs : List (MachBlock τ)) (is : List (Inst τ)) (r : LiveRanges)
      (hin : is ++ bs.flatMap (·.insts) = f.insts) (h : P is r) : P f.insts
        (bs.foldl (fun r b => b.insts.foldl (LiveRanges.addInst (b.weight w)) r) r) := by
    induction bs generalizing is r with
    | nil =>
      rw [List.flatMap_nil, List.append_nil] at hin
      exact hin ▸ h
    | cons b bs ih =>
      rw [List.flatMap_cons] at hin
      apply ih (is ++ b.insts) _ (by rw [List.append_assoc, hin])
      exact hinsts _ b.insts is _ r hin h
  have h := hblocks f.blocks.toList [] _ rfl hinit
  rwa [Array.foldl_toList] at h

theorem honest_joined (file : RegFile) (f : MachFunction τ) (w : Double) :
    (joined file f w).Honest f.vregs f.insts := by
  have h := joined_induction (P := fun is r => r.Honest f.vregs is) (w := w) (.initial file f)
    fun _ i _ _ w _ h => h.addInst i w
  exact h.congr rfl rfl rfl

theorem Honest.merge {vregs : Array VRegInfo} {is : List (Inst τ)} {r : LiveRanges}
    (h : r.Honest vregs is) (d s : VReg) (hc : r.canMerge (r.find d) (r.find s)) :
    (r.merge (r.find d) (r.find s)).Honest vregs is := by
  simp only [canMerge, Bool.and_eq_true, bne_iff_ne, ne_eq] at hc
  obtain ⟨⟨⟨⟨hne, -⟩, hspillable⟩, -⟩, -⟩ := hc
  have hparent : (r.merge (r.find d) (r.find s)).parent =
      r.parent.setIfInBounds (r.find s) (r.find d) := rfl
  obtain ⟨hrooted, hfind⟩ := find_hang_cases h.rooted (isRoot_find h.rooted d)
    (isRoot_find h.rooted s) hne hparent
  refine ⟨hrooted, (Array.size_setIfInBounds ..).trans h.size, fun v hv hs => h.spillable v hv ?_,
    h.occurs⟩
  rcases hfind v with ⟨hvs, -⟩ | hsame
  · exact hvs ▸ hspillable
  · exact hsame ▸ hs

end LiveRanges

theorem MachFunction.honest_ranges (f : MachFunction τ) (file : RegFile) (cfg : AllocConfig) :
    (f.ranges file cfg).2.Honest f.vregs f.insts := by
  have hr : LiveRanges.Refines (.joined file f cfg.loopWeight)
      (.ofFunction file f (.ofFunction f) cfg.loopWeight) := LiveRanges.refines_ofFunction _
  have hfirst := (LiveRanges.honest_joined file f cfg.loopWeight).congr hr.parent hr.spillable
    hr.occurs
  rw [ranges]
  split
  · exact LiveRanges.coalesce_induction hfirst fun _ d s h _ hc => h.merge d s hc
  · exact hfirst

end SeaNodes
