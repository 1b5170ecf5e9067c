import SeaNodes.Proofs.Registers.Isolation
import SeaNodes.Proofs.Registers.Coloring
import SeaNodes.Registers.Spill

namespace SeaNodes

variable {τ : Type}

namespace Inst

/-- Reads nothing, and writes one register between `lo` and `hi`. -/
structure IsLoad (lo hi : Nat) (x : Inst τ) : Prop where
  uses : x.uses = []
  tied : x.tied = none
  writes : ∃ o, x.defs = [o] ∧ lo ≤ o.vreg ∧ o.vreg < hi

theorem IsLoad.mono {lo hi hi' : Nat} {x : Inst τ} (h : x.IsLoad lo hi) (hle : hi ≤ hi') :
    x.IsLoad lo hi' := by
  obtain ⟨o, ho, hlo, hhi⟩ := h.writes
  exact ⟨h.uses, h.tied, o, ho, hlo, hhi.trans_le hle⟩

theorem IsLoad.range {lo hi : Nat} {x : Inst τ} (h : x.IsLoad lo hi) {v : VReg} (hv : x.Writes v) :
    lo ≤ v ∧ v < hi := by
  obtain ⟨o, ho, hlo, hhi⟩ := h.writes
  obtain ⟨a, ha, rfl⟩ := hv
  rw [ho, List.mem_singleton] at ha
  exact ha ▸ ⟨hlo, hhi⟩

theorem IsLoad.unique {lo hi : Nat} {x : Inst τ} (h : x.IsLoad lo hi) {v w : VReg}
    (hv : x.Writes v) (hw : x.Writes w) : v = w := by
  obtain ⟨o, ho, -⟩ := h.writes
  simp only [Writes, ho, List.mem_singleton, exists_eq_left] at hv hw
  exact hv.symm.trans hw

theorem IsLoad.not_reads {lo hi : Nat} {x : Inst τ} (h : x.IsLoad lo hi) (v : VReg) :
    ¬ x.Reads v := by
  rintro ⟨o, ho, -⟩
  simp [h.uses] at ho

theorem IsLoad.not_mentions {lo hi : Nat} {x : Inst τ} (h : x.IsLoad lo hi) {v : VReg}
    (hv : v < lo) : ¬ x.Mentions v := by
  rw [mentions_iff]
  rintro (hw | hr)
  · exact absurd hv (Nat.not_lt.mpr (h.range hw).1)
  · exact h.not_reads v hr

/-- The loads so far: they write different registers, those that are known to be loaded. -/
structure Reloads.Distinct (lo : Nat) (st : Reloads τ) (vs : Array VRegInfo) : Prop where
  loads : ∀ x ∈ st.insts.toList, x.IsLoad lo vs.size
  apart : st.insts.toList.Pairwise fun x y => ∀ v, x.Writes v → ¬ y.Writes v
  loaded : ∀ p ∈ st.loaded, ∃ x ∈ st.insts.toList, x.Writes p.2

theorem Reloads.Distinct.push {lo : Nat} {st : Reloads τ} {vs : Array VRegInfo}
    (h : st.Distinct lo vs) (hlo : lo ≤ vs.size) {x : Inst τ} {m : RegMask} (hu : x.uses = [])
    (ht : x.tied = none) (hd : x.defs = [⟨vs.size, m⟩]) (v : VReg) (info : VRegInfo) :
    Reloads.Distinct lo ⟨st.insts.push x, st.loaded ++ [(v, vs.size)]⟩ (vs.push info) := by
  have hlt : vs.size < (vs.push info).size := by simp
  have hw : x.Writes vs.size := ⟨⟨vs.size, m⟩, by simp [hd], rfl⟩
  refine ⟨fun y hy => ?_, ?_, fun p hp => ?_⟩
  · rw [Array.toList_push, List.mem_append, List.mem_singleton] at hy
    rcases hy with hy | rfl
    · exact (h.loads y hy).mono (Nat.le_of_lt hlt)
    · exact ⟨hu, ht, _, hd, hlo, hlt⟩
  · rw [Array.toList_push, List.pairwise_append]
    refine ⟨h.apart, List.pairwise_singleton _ _, fun y hy z hz v hv hzv => ?_⟩
    rw [List.mem_singleton] at hz
    obtain ⟨a, ha, rfl⟩ := hzv
    rw [hz, hd, List.mem_singleton] at ha
    have hlt' := ((h.loads y hy).range hv).2
    rw [ha] at hlt'
    exact absurd hlt' (Nat.lt_irrefl _)
  · rw [Array.toList_push]
    rcases List.mem_append.mp hp with hp | hp
    · obtain ⟨y, hy, hyw⟩ := h.loaded p hp
      exact ⟨y, List.mem_append_left _ hy, hyw⟩
    · rw [List.mem_singleton.mp hp]
      exact ⟨x, by simp, hw⟩

def ReloadedTo (slots : SlotMap) (loads : List (Inst τ)) (o o' : Operand) : Prop :=
  (o' = o ∧ slots.get o.vreg = none) ∨
    ((slots.get o.vreg).isSome ∧ ∃ x ∈ loads, x.Writes o'.vreg)

theorem ReloadedTo.mono {slots : SlotMap} {loads loads' : List (Inst τ)} {o o' : Operand}
    (h : ReloadedTo slots loads o o') (hs : loads ⊆ loads') : ReloadedTo slots loads' o o' := by
  rcases h with h | ⟨hspill, x, hx, hw⟩
  · exact .inl h
  · exact .inr ⟨hspill, x, hs hx, hw⟩

theorem reloadUse_cases {file : RegFile} {slots : SlotMap} {node : Edge} {r r' : Reloads τ}
    {vs vs' : Array VRegInfo} {o o' : Operand}
    (h : ((reloadUse file slots node o).run r).run vs = ((o', r'), vs')) :
    (slots.get o.vreg = none ∧ o' = o ∧ r' = r ∧ vs' = vs) ∨
    (∃ σ t, slots.get o.vreg = some σ ∧ (o.vreg, t) ∈ r.loaded ∧ o' = { o with vreg := t } ∧
      r' = r ∧ vs' = vs) ∨
    ∃ σ c info, slots.get o.vreg = some σ ∧ o' = { o with vreg := vs.size } ∧
      r' = ⟨r.insts.push { op := .reload c σ, defs := [⟨vs.size, file.ofClass c⟩], node },
        r.loaded ++ [(o.vreg, vs.size)]⟩ ∧ vs' = vs.push info ∧ info.unspillable = true := by
  rcases hslot : slots.get o.vreg with _ | σ
  · have hstay : ((reloadUse file slots node o).run r).run vs = ((o, r), vs) := by
      simp only [reloadUse, hslot]
      rfl
    obtain ⟨⟨rfl, rfl⟩, rfl⟩ := (Prod.mk.inj (hstay.symm.trans h)).imp_left Prod.mk.inj
    exact .inl ⟨rfl, rfl, rfl, rfl⟩
  rcases hload : r.loaded.lookup o.vreg with _ | t
  · have hnew : ((reloadUse file slots node o).run r).run vs =
        (({ o with vreg := vs.size },
          ⟨r.insts.push { op := .reload (classIn vs o.vreg) σ
                          defs := [⟨vs.size, file.ofClass (classIn vs o.vreg)⟩], node },
            r.loaded ++ [(o.vreg, vs.size)]⟩),
          vs.push { cls := classIn vs o.vreg, unspillable := true }) := by
      simp only [reloadUse, StateT.run_bind, StateT.run_get, pure_bind, hslot, hload]
      rfl
    obtain ⟨⟨rfl, rfl⟩, rfl⟩ := (Prod.mk.inj (hnew.symm.trans h)).imp_left Prod.mk.inj
    exact .inr (.inr ⟨σ, _, _, rfl, rfl, rfl, rfl, rfl⟩)
  · have hagain : ((reloadUse file slots node o).run r).run vs =
        (({ o with vreg := t }, r), vs) := by
      simp only [reloadUse, StateT.run_bind, StateT.run_get, pure_bind, hslot, hload]
      rfl
    obtain ⟨⟨rfl, rfl⟩, rfl⟩ := (Prod.mk.inj (hagain.symm.trans h)).imp_left Prod.mk.inj
    obtain ⟨l₁, l₂, hl, -⟩ := List.lookup_eq_some_iff.mp hload
    exact .inr (.inl ⟨σ, t, rfl, by simp [hl], rfl, rfl, rfl⟩)

variable (file : RegFile) (slots : SlotMap) (node : Edge)

theorem reloadUse_run {lo : Nat} {st st' : Reloads τ} {vs vs' : Array VRegInfo} {o o' : Operand}
    (h : ((reloadUse file slots node o).run st).run vs = ((o', st'), vs'))
    (hst : st.Distinct lo vs) (hlo : lo ≤ vs.size) :
    st'.Distinct lo vs' ∧ Extends vs vs' ∧ st.insts.toList ⊆ st'.insts.toList ∧
      ReloadedTo slots st'.insts.toList o o' := by
  rcases reloadUse_cases h with ⟨hslot, rfl, rfl, rfl⟩ | ⟨σ, t, hslot, ht, rfl, rfl, rfl⟩ |
    ⟨σ, c, info, hslot, rfl, rfl, rfl, -⟩
  · exact ⟨hst, .refl _, List.Subset.refl _, .inl ⟨rfl, hslot⟩⟩
  · exact ⟨hst, .refl _, List.Subset.refl _, .inr ⟨by simp [hslot], hst.loaded _ ht⟩⟩
  · have hst' := hst.push hlo (x := { op := .reload c σ, defs := [⟨vs.size, file.ofClass c⟩], node })
      rfl rfl rfl o.vreg info
    have hloaded := hst'.loaded (o.vreg, vs.size) (by simp)
    exact ⟨hst', .push _ _, by simp, .inr ⟨by simp [hslot], hloaded⟩⟩

theorem reloadUses_run {lo : Nat} {st st' : Reloads τ} {vs vs' : Array VRegInfo}
    (os : List Operand) {os' : List Operand}
    (h : ((os.mapM (reloadUse file slots node)).run st).run vs = ((os', st'), vs'))
    (hst : st.Distinct lo vs) (hlo : lo ≤ vs.size) :
    st'.Distinct lo vs' ∧ Extends vs vs' ∧ st.insts.toList ⊆ st'.insts.toList ∧
      List.Forall₂ (ReloadedTo slots st'.insts.toList) os os' := by
  induction os generalizing st vs os' with
  | nil =>
    obtain ⟨⟨rfl, rfl⟩, rfl⟩ := (Prod.mk.inj h).imp_left Prod.mk.inj
    exact ⟨hst, .refl _, List.Subset.refl _, .nil⟩
  | cons o os ih =>
    rw [List.mapM_cons] at h
    rcases hone : ((reloadUse file slots node o).run st).run vs with ⟨⟨o₁, st₁⟩, vs₁⟩
    simp only [StateT.run_bind, hone] at h
    obtain ⟨⟨rfl, rfl⟩, rfl⟩ := (Prod.mk.inj h).imp_left Prod.mk.inj
    obtain ⟨hst₁, hext₁, hsub₁, ho⟩ := reloadUse_run file slots node hone hst hlo
    obtain ⟨hst₂, hext₂, hsub₂, hos⟩ := ih rfl hst₁ (hlo.trans hext₁.size_le)
    exact ⟨hst₂, hext₁.trans hext₂, List.Subset.trans hsub₁ hsub₂, .cons (ho.mono hsub₂) hos⟩

/-- The uses `os` of an instruction became `os'`, with the loads before it. -/
structure Reloaded (slots : SlotMap) (vs : Array VRegInfo) (os os' : List Operand)
    (loads : List (Inst τ)) (vs' : Array VRegInfo) : Prop where
  grows : Extends vs vs'
  isLoad : ∀ x ∈ loads, x.IsLoad vs.size vs'.size
  apart : loads.Pairwise fun x y => ∀ v, x.Writes v → ¬ y.Writes v
  uses : List.Forall₂ (ReloadedTo slots loads) os os'

def SpillsDef (slots : SlotMap) (_ : RegClass) (_ : Nat) (o : Operand) : Prop :=
  (slots.get o.vreg).isSome

instance (c : RegClass) (k : Nat) (o : Operand) : Decidable (SpillsDef slots c k o) :=
  inferInstanceAs (Decidable (_ = true))

def storeTo (c : RegClass) (t v : VReg) : Inst τ where
  op := .spill c ((slots.get v).getD 0)
  uses := [⟨t, file.ofClass c⟩]
  node := node

/-- An instruction that is not dropped, as it comes out of its two loops. -/
theorem throughSlots_loops (i : Inst τ) (hc : i.isSlotCopy slots = false) {vs vs' : Array VRegInfo}
    {out : List (Inst τ)} (h : (i.throughSlots file slots).run vs = (out, vs')) :
    ∃ uses r ds vs₁,
      ((i.uses.mapM (reloadUse file slots i.node)).run {}).run vs = ((uses, r), vs₁) ∧
      Isolated (storeTo file slots i.node) (SpillsDef slots) 0 vs₁ i.defs ds vs' ∧
      out = r.insts.toList ++ { i with uses, defs := ds.map (·.2) } :: ds.flatMap (·.1) := by
  have hdef (o : Operand) (vs : Array VRegInfo) : (storeDef file slots i.node o).run vs =
      if SpillsDef slots (classIn vs o.vreg) 0 o then
        (([(storeTo file slots i.node (classIn vs o.vreg) vs.size o.vreg : Inst τ)],
          { o with vreg := vs.size }),
          vs.push { cls := classIn vs o.vreg, unspillable := true }) else (([], o), vs) := by
    rcases hslot : slots.get o.vreg with _ | slot
    · rw [if_neg (by simp [SpillsDef, hslot])]
      simp only [storeDef, hslot]
      rfl
    · rw [if_pos (by simp [SpillsDef, hslot])]
      simp only [storeDef, storeTo, hslot]
      rfl
  have hzip : i.defs.mapM (storeDef (τ := τ) file slots i.node) =
      i.defs.zipIdx.mapM fun p => storeDef file slots i.node p.1 := by
    conv_lhs => rw [← List.zipIdx_map_fst 0 i.defs, List.mapM_map]
    rfl
  rw [throughSlots, hc, hzip] at h
  obtain ⟨hout, rfl⟩ := Prod.mk.inj h
  exact ⟨_, _, _, _, rfl,
    isolated_mapM (fun c => { cls := c, unspillable := true }) (fun o _ => hdef o) 0 i.defs _,
    hout.symm.trans (List.append_cons _ _ _).symm⟩

theorem throughSlots_run (i : Inst τ) (hc : i.isSlotCopy slots = false) {vs vs' : Array VRegInfo}
    {out : List (Inst τ)} (h : (i.throughSlots file slots).run vs = (out, vs')) :
    ∃ uses loads ds vs₁, Reloaded slots vs i.uses uses loads vs₁ ∧
      Isolated (storeTo file slots i.node) (SpillsDef slots) 0 vs₁ i.defs ds vs' ∧
      out = loads ++ { i with uses, defs := ds.map (·.2) } :: ds.flatMap (·.1) := by
  obtain ⟨uses, r, ds, vs₁, hloop, hdefs, hout⟩ := throughSlots_loops file slots i hc h
  have hst : Reloads.Distinct vs.size ({} : Reloads τ) vs := ⟨by simp, by simp, by simp⟩
  obtain ⟨hloads, hext, -, huses⟩ := reloadUses_run file slots i.node i.uses hloop hst
    (Nat.le_refl _)
  exact ⟨uses, _, ds, vs₁, ⟨hext, hloads.loads, hloads.apart, huses⟩, hdefs, hout⟩

theorem throughSlots_run_slotCopy (i : Inst τ) (hc : i.isSlotCopy slots) (vs : Array VRegInfo) :
    (i.throughSlots file slots).run vs = ([], vs) := by
  rw [throughSlots, if_pos hc]
  rfl

end Inst

namespace Inst

variable {file : RegFile} {slots : SlotMap} {node : Edge} {vs vs' : Array VRegInfo}
  {os os' : List Operand} {loads : List (Inst τ)}

theorem Reloaded.operands (h : Reloaded slots vs os os' loads vs') {o' : Operand} (ho : o' ∈ os') :
    o' ∈ os ∨ (vs.size ≤ o'.vreg ∧ o'.vreg < vs'.size) := by
  obtain ⟨⟨k, hk⟩, rfl⟩ := List.mem_iff_get.mp ho
  rcases h.uses.get (h.uses.length_eq ▸ hk) hk with ⟨heq, -⟩ | ⟨-, x, hx, hw⟩
  · exact .inl (heq ▸ List.get_mem _ _)
  · exact .inr ((h.isLoad x hx).range hw)

theorem not_writes_storeTo {c : RegClass} {t v w : VReg} :
    ¬ (storeTo file slots node c t v : Inst τ).Writes w := by
  simp [Writes, storeTo]

theorem reads_storeTo {c : RegClass} {t v w : VReg} :
    (storeTo file slots node c t v : Inst τ).Reads w ↔ t = w := by
  simp [Reads, storeTo]

theorem tie?_with_uses {i : Inst τ} {uses : List Operand} (hl : i.uses.length = uses.length)
    (h : i.tie? = none) : ({ i with uses } : Inst τ).tie? = none := by
  simp only [tie?, Option.bind_eq_bind, Option.bind_eq_none_iff, Option.pure_def,
    reduceCtorEq] at h ⊢
  intro d hd k hk o ho
  have hlt : k < i.uses.length := hl ▸ (List.getElem?_eq_some_iff.mp ho).1
  exact h d hd k hk _ (List.getElem?_eq_getElem hlt)

theorem isCopy_of_isSlotCopy {i : Inst τ} (h : i.isSlotCopy slots) : i.isCopy := by
  by_contra hc
  simp [isSlotCopy, copy?, hc, failure] at h

theorem isSlotCopy_iff {i : Inst τ} {d u : Operand} (hc : i.isCopy) (hd : i.defs = [d])
    (hu : i.uses = [u]) : i.isSlotCopy slots ↔
      (slots.get d.vreg).isSome ∧ slots.get d.vreg = slots.get u.vreg := by
  simp [isSlotCopy, copy?, hc, hd, hu]

theorem writes_of_isSlotCopy {i : Inst τ} (h : i.isSlotCopy slots) :
    ∃ v, i.Writes v ∧ (slots.get v).isSome := by
  rcases hc : i.copy? with _ | ⟨d, s⟩
  · simp [isSlotCopy, hc] at h
  · simp only [isSlotCopy, hc, Bool.and_eq_true] at h
    simp only [copy?, Option.bind_eq_bind, Option.bind_eq_some_iff, Option.pure_def,
      Option.some.injEq, Prod.mk.injEq] at hc
    obtain ⟨-, -, o, ho, -, -, rfl, -⟩ := hc
    exact ⟨o.vreg, ⟨o, List.mem_of_mem_head? ho, rfl⟩, h.1⟩

theorem throughSlots_run_kept (i : Inst τ) (hw : ∀ v, i.Writes v → slots.get v = none)
    {out : List (Inst τ)} (h : (i.throughSlots file slots).run vs = (out, vs')) :
    ∃ loads uses, out = loads ++ [{ i with uses }] ∧ Reloaded slots vs i.uses uses loads vs' := by
  have hc : i.isSlotCopy slots = false := by
    by_contra hc
    obtain ⟨v, hv, hsome⟩ := writes_of_isSlotCopy (by simpa using hc)
    simp [hw v hv] at hsome
  obtain ⟨uses, loads, ds, vs₁, hu, hd, rfl⟩ := throughSlots_run file slots i hc h
  have hkeep (o : Operand) (ho : o ∈ i.defs) (c : RegClass) (k : Nat) :
      ¬ SpillsDef slots c k o := by
    simp [SpillsDef, hw o.vreg ⟨o, ho, rfl⟩]
  obtain ⟨hdefs, hstores, rfl⟩ := hd.eq_self hkeep
  rw [hdefs, hstores]
  exact ⟨loads, uses, rfl, hu⟩

theorem freshRewriting_throughSlots (file : RegFile) (slots : SlotMap) :
    FreshRewriting (τ := τ) (·.throughSlots file slots) := by
  apply FreshRewriting.of_surrounded
  intro vs i seg vs' h
  rcases hc : i.isSlotCopy slots with _ | _
  case true =>
    rw [throughSlots_run_slotCopy file slots i hc] at h
    obtain ⟨rfl, rfl⟩ := Prod.mk.inj h
    exact .inl ⟨fun x hx => absurd hx List.not_mem_nil, rfl⟩
  case false =>
    obtain ⟨uses, loads, ds, vs₁, hu, hd, rfl⟩ := throughSlots_run file slots i hc h
    refine .inr ⟨_, _, vs₁, _, _, ⟨hu.grows, hd.grows, fun o ho => hu.operands ho,
      fun o ho => hd.operands ho, fun x hx v => ?_, fun x hx v => ?_⟩, rfl⟩
    · have hload := hu.isLoad x hx
      exact ⟨fun hv => hload.range hv, fun hv => absurd hv (hload.not_reads v)⟩
    · obtain ⟨c, t, o, ho, rfl, hrange⟩ := hd.copies hx
      rw [reads_storeTo]
      exact ⟨fun hv => absurd hv not_writes_storeTo, fun hv => hv ▸ hrange⟩

end Inst

namespace MachFunction

variable {file : RegFile} {slots : SlotMap} {f g : MachFunction τ} {taken : Nat → Array VRegInfo}

/-- Where a tied instruction of the result stems from. -/
structure SpilledAt (f : MachFunction τ) (file : RegFile) (slots : SlotMap) (g : MachFunction τ)
    (taken : Nat → Array VRegInfo) (b : Nat) (pre : List (Inst τ)) (i : Inst τ)
    (post : List (Inst τ)) (isA : List (Inst τ)) (i₀ : Inst τ)
    (isB outA outB loads : List (Inst τ)) (ds : List (List (Inst τ) × Operand))
    (vs₁ vs₂ vs₃ : Array VRegInfo) : Prop where
  segment : f.Segment (·.throughSlots file slots) g taken b isA i₀ isB outA
    (loads ++ i :: ds.flatMap (·.1)) outB vs₁ vs₃
  uses : Inst.Reloaded slots vs₁ i₀.uses i.uses loads vs₂
  defs : Isolated (Inst.storeTo file slots i₀.node) (Inst.SpillsDef slots) 0 vs₂ i₀.defs ds vs₃
  defs_eq : i.defs = ds.map (·.2)
  tied_eq : i.tied = i₀.tied
  isCopy_eq : i.isCopy = i₀.isCopy
  kept : i₀.isSlotCopy slots = false
  pre_eq : pre = outA ++ loads
  post_eq : post = ds.flatMap (·.1) ++ outB

theorem exists_spilledAt (R : f.RewrittenTo (·.throughSlots file slots) g taken) {b : Nat}
    {pre post : List (Inst τ)} {i : Inst τ} (hi : (g.block b).insts = pre ++ i :: post)
    (ht : i.tied ≠ none) : ∃ isA i₀ isB outA outB loads ds vs₁ vs₂ vs₃,
      f.SpilledAt file slots g taken b pre i post isA i₀ isB outA outB loads ds vs₁ vs₂ vs₃ := by
  obtain ⟨isA, i₀, isB, outA, outB, segA, segB, vs₁, vs₃, S, rfl, rfl⟩ := R.locate hi
  have hrun := S.run
  rcases hc : i₀.isSlotCopy slots with _ | _
  case true =>
    rw [Inst.throughSlots_run_slotCopy file slots i₀ hc] at hrun
    exact absurd (Prod.mk.inj hrun).1 (by simp)
  case false =>
    obtain ⟨uses, loads, ds, vs₂, hu, hd, hseg⟩ := Inst.throughSlots_run file slots i₀ hc hrun
    have hload (x : Inst τ) (hx : x ∈ loads) : x.tied = none := (hu.isLoad x hx).tied
    have hstore (x : Inst τ) (hx : x ∈ ds.flatMap (·.1)) : x.tied = none := by
      obtain ⟨c, t, o, -, rfl, -⟩ := hd.copies hx
      rfl
    obtain ⟨rfl, rfl, rfl⟩ := append_cons_inj_of_forall hload hstore ht hseg
    exact ⟨isA, i₀, isB, outA, outB, segA, ds, vs₁, vs₂, vs₃, S, hu, hd, rfl, rfl, rfl, hc, rfl,
      rfl⟩

section

variable {b : Nat} {pre post isA isB outA outB loads : List (Inst τ)} {i i₀ : Inst τ}
  {ds : List (List (Inst τ) × Operand)} {vs₁ vs₂ vs₃ : Array VRegInfo} {d u : VReg}

theorem SpilledAt.old
    (L : f.SpilledAt file slots g taken b pre i post isA i₀ isB outA outB loads ds vs₁ vs₂ vs₃)
    (R : f.RewrittenTo (·.throughSlots file slots) g taken) (hf : f.InRange) {v : VReg}
    (hv : i₀.Mentions v) : v < vs₁.size := by
  have hi₀ : i₀ ∈ (f.block b).insts := by simp [L.segment.source]
  have hext := L.segment.extends R (Inst.freshRewriting_throughSlots file slots)
  exact (hf.lt hi₀ hv).trans_le hext.size_le

theorem SpilledAt.tie
    (L : f.SpilledAt file slots g taken b pre i post isA i₀ isB outA outB loads ds vs₁ vs₂ vs₃)
    (ht : i.tie? = some (d, u)) : ∃ d₀ u₀, i₀.tie? = some (d₀, u₀) ∧
      (d = d₀ ∨ ((slots.get d₀).isSome ∧ vs₂.size ≤ d ∧ d < vs₃.size)) ∧
      ((u = u₀ ∧ slots.get u = none) ∨ ((slots.get u₀).isSome ∧ ∃ x ∈ loads, x.Writes u)) := by
  simp only [Inst.tie?, Option.bind_eq_bind, Option.bind_eq_some_iff, Option.pure_def,
    Option.some.injEq, Prod.mk.injEq] at ht
  obtain ⟨o, ho, k, hk, o', ho', rfl, rfl⟩ := ht
  obtain ⟨hlt, hget⟩ := List.getElem?_eq_some_iff.mp ho'
  have hlt' : k < i₀.uses.length := L.uses.uses.length_eq ▸ hlt
  have htie (a : Operand) (os : List Operand) (ha : i₀.defs = a :: os) :
      i₀.tie? = some (a.vreg, (i₀.uses.get ⟨k, hlt'⟩).vreg) := by
    simp [Inst.tie?, ha, ← L.tied_eq, hk, List.getElem?_eq_getElem hlt']
  have huse : (o'.vreg = (i₀.uses.get ⟨k, hlt'⟩).vreg ∧ slots.get o'.vreg = none) ∨
      ((slots.get (i₀.uses.get ⟨k, hlt'⟩).vreg).isSome ∧ ∃ x ∈ loads, x.Writes o'.vreg) := by
    rcases L.uses.uses.get hlt' hlt with ⟨heq, hnone⟩ | ⟨hsome, hx⟩
    · rw [List.get_eq_getElem, hget] at heq
      rw [heq]
      exact .inl ⟨rfl, hnone⟩
    · rw [List.get_eq_getElem, hget] at hx
      exact .inr ⟨hsome, hx⟩
  rw [L.defs_eq] at ho
  rcases L.defs.head ho with ⟨os, -, hos, -⟩ | ⟨a, os, hos, hmove, hnew⟩
  · exact ⟨_, _, htie o os hos, .inl rfl, huse⟩
  · exact ⟨_, _, htie a os hos, .inr ⟨hmove, hnew⟩, huse⟩

theorem SpilledAt.not_mentions
    (L : f.SpilledAt file slots g taken b pre i post isA i₀ isB outA outB loads ds vs₁ vs₂ vs₃)
    (hw : ¬ i₀.Writes u) (hu : u < vs₂.size) :
    ¬ i.Writes u ∧ ∀ x ∈ ds.flatMap (·.1), ¬ x.Mentions u := by
  refine ⟨?_, fun x hx hv => ?_⟩
  · rintro ⟨o, ho, rfl⟩
    rw [L.defs_eq] at ho
    rcases L.defs.operands ho with ho | ⟨hlo, -⟩
    · exact hw ⟨o, ho, rfl⟩
    · exact absurd hu (Nat.not_lt.mpr hlo)
  · obtain ⟨c, t, o, -, rfl, hlo, -⟩ := L.defs.copies hx
    rcases Inst.mentions_iff.mp hv with hv | hv
    · exact Inst.not_writes_storeTo hv
    · rw [Inst.reads_storeTo] at hv
      exact absurd hu (Nat.not_lt.mpr (hv ▸ hlo))

theorem SpilledAt.link_load
    (L : f.SpilledAt file slots g taken b pre i post isA i₀ isB outA outB loads ds vs₁ vs₂ vs₃)
    (R : f.RewrittenTo (·.throughSlots file slots) g taken) (hf : f.InRange) (hr : i.Reads u)
    {x : Inst τ} (hx : x ∈ loads) (hw : x.Writes u) :
    ∃ p q, loads = p ++ x :: q ∧ g.Link b (outA ++ p) x q i post u := by
  obtain ⟨p, q, rfl⟩ := List.append_of_mem hx
  obtain ⟨hlo, hhi⟩ := (L.uses.isLoad x hx).range hw
  have hnot : ¬ i₀.Writes u := fun h => absurd (L.old R hf h.mentions) (Nat.not_lt.mpr hlo)
  obtain ⟨hi, hstores⟩ := L.not_mentions hnot hhi
  have hapart := L.uses.apart
  rw [List.pairwise_append, List.pairwise_cons] at hapart
  have hload (y : Inst τ) (hy : y ∈ p ++ x :: q) (hyw : ¬ y.Writes u) : ¬ y.Mentions u := by
    rw [Inst.mentions_iff]
    rintro (h | h)
    · exact hyw h
    · exact (L.uses.isLoad y hy).not_reads u h
  have S := L.segment
  rw [List.append_assoc, List.cons_append] at S
  refine ⟨p, q, rfl, ?_⟩
  rw [L.post_eq]
  apply S.link R (Inst.freshRewriting_throughSlots file slots) hf hlo
    (hhi.trans_le L.defs.grows.size_le) hw ((L.uses.isLoad x hx).not_reads u) hr hi
  intro y hy
  simp only [List.mem_append] at hy
  rcases hy with (hy | hy) | hy
  · exact hload y (by simp [hy]) fun h => hapart.2.2 y hy x List.mem_cons_self u h hw
  · exact hload y (by simp [hy]) fun h => hapart.2.1.1 y hy u hw h
  · exact hstores y hy

end

/-- The copy of a tied use that is not spilled links to the instruction as before. -/
theorem SpilledAt.link_kept {b : Nat} {pre post a m isB outA outB loads : List (Inst τ)}
    {i i₀ j : Inst τ} {ds : List (List (Inst τ) × Operand)} {vs₁ vs₂ vs₃ : Array VRegInfo}
    {d u : VReg} (L : f.SpilledAt file slots g taken b pre i post (a ++ j :: m) i₀ isB outA outB
      loads ds vs₁ vs₂ vs₃)
    (R : f.RewrittenTo (·.throughSlots file slots) g taken) (hf : f.InRange)
    (T : f.Link b a j m i₀ isB u) (halone : ∀ v, j.Writes v → v = u) (huntied : j.tie? = none)
    (hu : slots.get u = none) (hr : i.Reads u)
    (hd : (d < f.vregs.size ∧ ∀ y ∈ m, ¬ y.Reads d) ∨ (vs₁.size ≤ d ∧ d < vs₃.size)) :
    ∃ a' j' m', pre = a' ++ j' :: m' ∧ g.Link b a' j' m' i post u ∧ j'.tie? = none ∧
      (∀ v, j'.Writes v → v = u) ∧ ∀ x ∈ m', ¬ x.Reads d := by
  have hfresh := Inst.freshRewriting_throughSlots (τ := τ) file slots
  obtain ⟨outA', rest, ws₁, hout, hA, hrest⟩ := L.segment.before.split
  cases hrest with
  | @cons _ ws₃ _ _ seg _ outM hseg hM =>
  obtain ⟨loads', uses, rfl, hload⟩ :=
    Inst.throughSlots_run_kept j (fun v hv => halone v hv ▸ hu) hseg
  have hlt : u < f.vregs.size := hf.lt (b := b) (by simp [T.insts]) T.written.mentions
  have hle {v : VReg} {ws : Array VRegInfo} (hv : v < f.vregs.size) (h : Extends (taken b) ws) :
      v < ws.size := hv.trans_le ((R.extends_taken hfresh b).trans h).size_le
  have hltw : u < ws₁.size := hle hlt (hA.grows hfresh)
  obtain ⟨hi, hstores⟩ := L.not_mentions T.notWritten
    (hle hlt ((L.segment.before.grows hfresh).trans L.uses.grows))
  refine ⟨outA' ++ loads', { j with uses }, outM ++ loads, ?_, ⟨?_, T.written, ?_, hr, hi, ?_, ?_⟩,
    ?_, halone, ?_⟩
  · rw [L.pre_eq, hout]
    simp
  · rw [L.segment.result, hout, L.post_eq]
    simp
  · rintro ⟨o, ho, rfl⟩
    rcases hload.operands ho with ho | ⟨hlo, -⟩
    · exact T.notRead ⟨o, ho, rfl⟩
    · exact absurd hltw (Nat.not_lt.mpr hlo)
  · have hothers := T.others
    simp only [List.forall_mem_append] at hothers
    obtain ⟨⟨ha, hm⟩, hB⟩ := hothers
    simp only [L.post_eq, List.forall_mem_append]
    -- the link is old, so neither rewriting nor the loads and stores touch it
    refine ⟨⟨⟨?_, fun x hx => (hload.isLoad x hx).not_mentions hltw⟩, ?_, fun x hx => ?_⟩, hstores,
      ?_⟩
    · exact hA.avoids hfresh hfresh.mentions (hle hlt (.refl _)) ha
    · exact hM.avoids hfresh hfresh.mentions (hltw.trans_le hload.grows.size_le) hm
    · exact (L.uses.isLoad x hx).not_mentions (hle hlt (L.segment.before.grows hfresh))
    · exact L.segment.after.avoids hfresh hfresh.mentions (hle hlt
        ((L.segment.before.grows hfresh).trans (L.uses.grows.trans L.defs.grows))) hB
  · exact fun c hc => R.avoids hfresh hfresh.mentions hlt (T.elsewhere c hc)
  · exact Inst.tie?_with_uses hload.uses.length_eq huntied
  · intro x hx hread
    rcases List.mem_append.mp hx with hx | hx
    · rcases hd with ⟨hdlt, hno⟩ | ⟨hlo, hhi⟩
      · have hlt' := hle hdlt ((hA.grows hfresh).trans hload.grows)
        exact hM.avoids hfresh hfresh.reads hlt' hno x hx hread
      · exact (L.segment.fresh R hfresh hf hlo hhi).1 x (by simp [hout, hx]) hread.mentions
    · exact (L.uses.isLoad x hx).not_reads d hread

theorem SpilledAt.def_apart {b : Nat} {pre post isA isB outA outB loads : List (Inst τ)}
    {i i₀ : Inst τ} {ds : List (List (Inst τ) × Operand)} {vs₁ vs₂ vs₃ : Array VRegInfo}
    {d d₀ : VReg}
    (L : f.SpilledAt file slots g taken b pre i post isA i₀ isB outA outB loads ds vs₁ vs₂ vs₃)
    (R : f.RewrittenTo (·.throughSlots file slots) g taken) (hf : f.InRange) (hw : i₀.Writes d₀)
    (hr : ¬ i₀.Reads d₀) (hd : d = d₀ ∨ (vs₂.size ≤ d ∧ d < vs₃.size)) :
    ¬ i.Reads d ∧ ∀ x ∈ loads ++ ds.flatMap (·.1), ¬ x.Writes d := by
  have hlt := L.old R hf hw.mentions
  have hnew {v : VReg} (hv : vs₁.size ≤ v ∧ v < vs₂.size) : v ≠ d := by
    rintro rfl
    rcases hd with rfl | ⟨hlo, -⟩
    · exact absurd hlt (Nat.not_lt.mpr hv.1)
    · exact absurd hv.2 (Nat.not_lt.mpr hlo)
  refine ⟨?_, fun x hx hxw => ?_⟩
  · rintro ⟨o, ho, rfl⟩
    rcases L.uses.operands ho with ho | ho
    · rcases hd with hd | ⟨hlo, -⟩
      · exact hr ⟨o, ho, hd⟩
      · have hlt' := (L.old R hf (Inst.Reads.mentions ⟨o, ho, rfl⟩)).trans_le L.uses.grows.size_le
        exact absurd hlt' (Nat.not_lt.mpr hlo)
    · exact hnew ho rfl
  · rcases List.mem_append.mp hx with hx | hx
    · exact hnew ((L.uses.isLoad x hx).range hxw) rfl
    · obtain ⟨c, t, o, -, rfl, -⟩ := L.defs.copies hx
      exact Inst.not_writes_storeTo hxw

theorem Tidy.tiedAt_spill (hf : f.Tidy) (R : f.RewrittenTo (·.throughSlots file slots) g taken)
    {b : Nat} {pre post : List (Inst τ)} {i : Inst τ} {d u : VReg}
    (hi : (g.block b).insts = pre ++ i :: post) (hc : i.isCopy = false)
    (ht : i.tie? = some (d, u)) : ∃ a j m, pre = a ++ j :: m ∧ g.TiedAt b a j m i post d u := by
  have hfresh := Inst.freshRewriting_throughSlots (τ := τ) file slots
  obtain ⟨isA, i₀, isB, outA, outB, loads, ds, vs₁, vs₂, vs₃, L⟩ :=
    exists_spilledAt R hi (Inst.tied_ne_none ht)
  obtain ⟨d₀, u₀, ht₀, hd, hu⟩ := L.tie ht
  replace hd := hd.imp_right And.right
  obtain ⟨a, j, m, rfl, T⟩ :=
    hf.ties b isA i₀ isB d₀ u₀ L.segment.source (L.isCopy_eq.symm.trans hc) ht₀
  have hlt : d₀ < f.vregs.size :=
    hf.inRange.lt (b := b) (by simp [L.segment.source]) T.writes.mentions
  obtain ⟨hread, hnear⟩ := L.def_apart R hf.inRange T.writes T.notRead hd
  have hge {v : VReg} (hv : vs₂.size ≤ v) : vs₁.size ≤ v := L.uses.grows.size_le.trans hv
  obtain ⟨hout, helse⟩ : (∀ x ∈ outA ++ outB, ¬ x.Writes d) ∧
      ∀ c, c ≠ b → ∀ x ∈ (g.block c).insts, ¬ x.Writes d := by
    rcases hd with rfl | ⟨hlo, hhi⟩
    · exact ⟨L.segment.writes R hfresh hlt T.once,
        fun c hc => R.avoids hfresh hfresh.writes hlt (T.elsewhere c hc)⟩
    · obtain ⟨hout, helse⟩ := L.segment.fresh R hfresh hf.inRange (hge hlo) hhi
      exact ⟨fun x hx hw => hout x hx hw.mentions, fun c hc x hx hw => helse c hc x hx hw.mentions⟩
  -- where the link starts does not matter for what is written around it
  have honce {p m' : List (Inst τ)} {j' : Inst τ} (hp : pre = p ++ j' :: m') :
      ∀ x ∈ p ++ j' :: m' ++ post, ¬ x.Writes d := by
    rw [← hp, L.pre_eq, L.post_eq]
    intro x hx
    have hx' : x ∈ outA ++ outB ∨ x ∈ loads ++ ds.flatMap (·.1) := by
      simp only [List.mem_append] at hx ⊢
      tauto
    exact hx'.elim (hout x) (hnear x)
  rcases hu with ⟨rfl, hnone⟩ | ⟨-, x, hx, hw⟩
  · have hbetween : (d < f.vregs.size ∧ ∀ y ∈ m, ¬ y.Reads d) ∨ (vs₁.size ≤ d ∧ d < vs₃.size) := by
      rcases hd with rfl | ⟨hlo, hhi⟩
      · exact .inl ⟨hlt, T.between⟩
      · exact .inr ⟨hge hlo, hhi⟩
    obtain ⟨a', j', m', hpre, hlink, huntied, halone, hm⟩ := L.link_kept R hf.inRange T.link T.alone
      T.untied hnone (Inst.reads_of_tie? ht) hbetween
    exact ⟨a', j', m', hpre, hlink, huntied, halone, Inst.writes_of_tie? ht, hread, hm, honce hpre,
      helse⟩
  · obtain ⟨p, q, rfl, hlink⟩ := L.link_load R hf.inRange (Inst.reads_of_tie? ht) hx hw
    have hload := L.uses.isLoad x hx
    have hpre : pre = (outA ++ p) ++ x :: q := by rw [L.pre_eq, List.append_assoc]
    refine ⟨outA ++ p, x, q, hpre, hlink, by simp [Inst.tie?, hload.tied], fun v hv => ?_,
      Inst.writes_of_tie? ht, hread, fun y hy => (L.uses.isLoad y (by simp [hy])).not_reads d,
      honce hpre, helse⟩
    exact hload.unique hv hw

theorem Tidy.nodup_defs_spill (hf : f.Tidy) (R : f.RewrittenTo (·.throughSlots file slots) g taken)
    {i : Inst τ} (hi : i ∈ g.insts) : (i.defs.map (·.vreg)).Nodup := by
  obtain ⟨b, pre, post, hsplit⟩ := exists_split hi
  obtain ⟨isA, i₀, isB, outA, outB, segA, segB, vs₁, vs₃, S, -, -⟩ := R.locate hsplit
  have hmem : i ∈ segA ++ i :: segB := by simp
  have hi₀ : i₀ ∈ f.insts := mem_insts (b := b) (by simp [S.source])
  have hrun := S.run
  rcases hc : i₀.isSlotCopy slots with _ | _
  case true =>
    rw [Inst.throughSlots_run_slotCopy file slots i₀ hc] at hrun
    exact absurd (Prod.mk.inj hrun).1 (by simp)
  case false =>
    obtain ⟨uses, loads, ds, vs₂, hu, hd, hseg⟩ := Inst.throughSlots_run file slots i₀ hc hrun
    rw [hseg, List.mem_append, List.mem_cons] at hmem
    rcases hmem with hmem | rfl | hmem
    · obtain ⟨o, ho, -⟩ := (hu.isLoad i hmem).writes
      simp [ho]
    · have hext := (S.extends R (Inst.freshRewriting_throughSlots file slots)).trans hu.grows
      exact hd.nodup (fun o ho => (hf.inRange i₀ hi₀ o (List.mem_append_left _ ho)).trans_le
        hext.size_le) (hf.defs i₀ hi₀)
    · obtain ⟨c, t, o, -, rfl, -⟩ := hd.copies hmem
      exact List.nodup_nil

/-- Spill code keeps ties, whichever registers go to which slots. -/
theorem Tidy.spilled (hf : f.Tidy) (R : f.RewrittenTo (·.throughSlots file slots) g taken) :
    g.Tidy :=
  ⟨R.inRange (Inst.freshRewriting_throughSlots file slots) hf.inRange,
    fun _ hi => hf.nodup_defs_spill R hi, fun _ _ _ _ _ _ hi hc ht => hf.tiedAt_spill R hi hc ht⟩

theorem UntiedCopies.spilled (hf : f.UntiedCopies)
    (R : f.RewrittenTo (·.throughSlots file slots) g taken) : g.UntiedCopies := by
  intro i hi hc
  obtain ⟨b, pre, post, hsplit⟩ := exists_split hi
  rcases ht : i.tie? with _ | ⟨d, u⟩
  · rfl
  · obtain ⟨isA, i₀, isB, outA, outB, loads, ds, vs₁, vs₂, vs₃, L⟩ :=
      exists_spilledAt R hsplit (Inst.tied_ne_none ht)
    obtain ⟨d₀, u₀, ht₀, -⟩ := L.tie ht
    have hi₀ : i₀ ∈ f.insts := mem_insts (b := b) (by simp [L.segment.source])
    rw [hf i₀ hi₀ (L.isCopy_eq ▸ hc)] at ht₀
    cases ht₀

end MachFunction

end SeaNodes
