import SeaNodes.Proofs.Opt.DeadInputs

namespace SeaNodes

namespace Graph

variable {g g' d : Graph} {r n m φ ψ x : NodeId} {e p : Edge} {value : NodeId → Edge}
  {phis done : Set NodeId} {σ : Edge → Edge} {l : List NodeId}

def Feeds (value : NodeId → Edge) (phis : Set NodeId) (φ ψ : NodeId) : Prop :=
  φ ∈ phis ∧ value φ = some ψ

/-- Where edges lead when those of the phis that are `done` were replaced by their values. -/
structure Follows (value : NodeId → Edge) (phis done : Set NodeId) (σ : Edge → Edge) : Prop where
  none : σ none = none
  phi : ∀ φ ∈ done, σ (some φ) = σ (value φ)
  other : ∀ e, (∀ φ ∈ done, e ≠ some φ) → σ e = e
  never : ∀ e, ∀ φ ∈ done, σ e ≠ some φ
  path : ∀ ψ x, σ (some ψ) = some x → Relation.ReflTransGen (Feeds value phis) ψ x

namespace Follows

theorem nil : Follows value phis ∅ id where
  none := rfl
  phi _ hφ := hφ.elim
  other _ _ := rfl
  never _ _ hφ := hφ.elim
  path _ _ h := Option.some.inj h ▸ .refl

/-- A phi is not its own value, however far values are followed. -/
theorem value_ne (h : Follows value phis done σ)
    (hacyclic : ∀ φ, ¬ Relation.TransGen (Feeds value phis) φ φ) (hφ : φ ∈ phis) :
    σ (value φ) ≠ some φ := by
  intro heq
  rcases hvalue : value φ with _ | ψ
  · rw [hvalue, h.none] at heq
    cases heq
  · rw [hvalue] at heq
    exact hacyclic φ (.head' ⟨hφ, hvalue⟩ (h.path ψ φ heq))

/-- One more phi is replaced by what its value has become. -/
theorem insert (h : Follows value phis done σ)
    (hacyclic : ∀ φ, ¬ Relation.TransGen (Feeds value phis) φ φ) (hφ : φ ∈ phis) :
    Follows value phis (insert φ done) (redirect φ (σ (value φ)) ∘ σ) := by
  by_cases hdone : φ ∈ done
  · have hsame : redirect φ (σ (value φ)) ∘ σ = σ := funext fun e => if_neg (h.never e φ hdone)
    rw [hsame, Set.insert_eq_of_mem hdone]
    exact h
  have hne := h.value_ne hacyclic hφ
  -- the phi is not followed yet, so it is its own end
  have hself : σ (some φ) = some φ := h.other _ fun ψ hψ heq => hdone (Option.some.inj heq ▸ hψ)
  constructor
  case none =>
    rw [Function.comp_apply, h.none]
    exact if_neg nofun
  case phi =>
    intro ψ hψ
    rcases hψ with rfl | hψ
    · rw [Function.comp_apply, Function.comp_apply, hself, redirect, if_pos rfl, redirect, if_neg hne]
    · rw [Function.comp_apply, Function.comp_apply, h.phi ψ hψ]
  case other =>
    intro e he
    rw [Function.comp_apply, h.other e fun ψ hψ => he ψ (.inr hψ)]
    exact if_neg (he φ (.inl rfl))
  case never =>
    intro e ψ hψ heq
    rw [Function.comp_apply, redirect] at heq
    split_ifs at heq with hend
    · rcases hψ with rfl | hψ
      · exact hne heq
      · exact h.never _ ψ hψ heq
    · rcases hψ with rfl | hψ
      · exact hend heq
      · exact h.never e ψ hψ heq
  case path =>
    intro ψ x heq
    rw [Function.comp_apply, redirect] at heq
    split_ifs at heq with hend
    · have hto := h.path ψ φ hend
      rcases hvalue : value φ with _ | χ
      · rw [hvalue, h.none] at heq
        cases heq
      · rw [hvalue] at heq
        exact (hto.tail ⟨hφ, hvalue⟩).trans (h.path χ x heq)
    · exact h.path ψ x heq

end Follows

/-- Replaces phis by their values, one after the other. -/
def subsumeAll (g : Graph) (l : List NodeId) : Graph :=
  l.foldl (fun g phi => g.subsume phi (g.input phi 1)) g

section

variable {old : NodeId → Prop} (hacyclic : ∀ φ, ¬ Relation.TransGen (Feeds (d.input · 1) phis) φ φ)
  (hlive : ∀ φ ∈ phis, φ ∈ d.live) (hold : ∀ φ ∈ phis, old φ)

include hacyclic hlive hold

theorem Replaced.subsume_value (h : Replaced σ old d g) (hf : Follows (d.input · 1) phis done σ)
    (hφ : φ ∈ phis) :
    Replaced (redirect φ (σ (d.input φ 1)) ∘ σ) old d (g.subsume φ (g.input φ 1)) := by
  have hmono : ∀ m, m = φ ∨ old m → old m := fun m hm => hm.elim (fun hm => hm ▸ hold φ hφ) id
  by_cases hφlive : φ ∈ g.live
  · have hvalue : g.input φ 1 = σ (d.input φ 1) := h.input hf.none hφlive 1
    rw [← hvalue]
    refine (h.subsume ?_ fun m hm => h.mirrored.live_of_input hm).mono hmono
    rw [hvalue]
    exact hf.value_ne hacyclic hφ
  · -- an earlier replacement has removed `φ`, so no edge leads there
    have hdead := h.isDead_of_not_live (hlive φ hφ) hφlive
    exact ((h.redirect_of_not_live hφlive _).of_sameLinks
      (.subsume_of_isDead h.mirrored hdead _) (.subsume edgeFree_core g φ _)).mono hmono

theorem Replaced.subsumeAll (h : Replaced σ old d g) (hf : Follows (d.input · 1) phis done σ)
    (hl : ∀ φ ∈ l, φ ∈ phis) : ∃ σ', Replaced σ' old d (g.subsumeAll l) ∧
      Follows (d.input · 1) phis (done ∪ {φ | φ ∈ l}) σ' := by
  induction l generalizing g σ done with
  | nil => exact ⟨σ, h, by simpa using hf⟩
  | cons φ l ih =>
    rw [List.forall_mem_cons] at hl
    obtain ⟨σ', h', hf'⟩ := ih (h.subsume_value hacyclic hlive hold hf hl.1)
      (hf.insert hacyclic hl.1) hl.2
    refine ⟨σ', h', ?_⟩
    have hset : done ∪ {ψ | ψ ∈ φ :: l} = insert φ done ∪ {ψ | ψ ∈ l} := by
      ext ψ
      simp only [Set.mem_union, Set.mem_ofPred_eq, List.mem_cons, Set.mem_insert_iff]
      tauto
    rwa [hset]

end

theorem input_one_of_drop (h : (g.inputs n).toList.drop 1 = [e]) : g.input n 1 = e := by
  have hget : (g.inputs n).toList[1]? = some e := by
    rw [← List.getElem?_drop (i := 1) (j := 0), h]
    rfl
  rw [input_eq_getElem?, ← Array.getElem?_toList, hget]
  rfl

theorem improve?_eq_ruleRegion {simp : Simplifier} (hop : (g.op r).isRegion)
    (hty : g.ty (some r) = .ctrl) : g.improve? simp r = g.ruleRegion r := by
  cases h : g.op r with
  | region | loop =>
    simp [improve?, isFoldable, isDeadControl, applyRule, h, hty, Op.isFloating, Op.isCommutative]
  | _ => rw [h] at hop; cases hop

theorem mergeEqual_of_isRegion {numbering edited : Bool} (hop : (g.op r).isRegion) :
    g.mergeEqual numbering r edited = ⟨some r, edited, g⟩ := by
  cases h : g.op r with
  | region | loop => simp [mergeEqual, equal?, number, isOpenPhi, h, Op.isNumbered, Op.isFloating]
  | _ => rw [h] at hop; cases hop

theorem pairs_of_drop (h : (g.inputs r).toList.drop 1 = [p])
    (hsize : (g.inputs φ).size = (g.inputs r).size) : g.pairs r φ = [(p, g.input φ 1)] := by
  have hlength := length_drop_inputs hsize
  rw [h, List.length_singleton] at hlength
  obtain ⟨v, hv⟩ := List.length_eq_one_iff.mp hlength
  rw [pairs, h, hv, input_one_of_drop hv]
  rfl

section

variable (hopen : (g.node r).inProgress = false)

include hopen

theorem ruleRegion_eq : g.ruleRegion r =
    if g.livePreds r = [] then none
    else if g.deadPreds r ≠ [] then some (some r, g.dropDead r)
    else if (g.livePreds r).length = 1 then some (g.input r 1, g.subsumeAll (g.phisOf r))
    else none := by
  have hclosed : g.isOpen (some r) = false := hopen
  unfold ruleRegion
  rw [hclosed, if_neg Bool.false_ne_true]
  dsimp only
  rw [length_deadPreds]
  by_cases hlive : g.livePreds r = []
  · rw [if_pos hlive, if_pos (List.length_eq_zero_iff.mpr hlive)]
  rw [if_neg hlive, if_neg fun h => hlive (List.length_eq_zero_iff.mp h)]
  by_cases hdead : g.deadPreds r = []
  · simp only [hdead, List.isEmpty_nil]
    rfl
  · have hnonempty : (!(g.deadPreds r).isEmpty) = true := by simpa using hdead
    rw [if_pos hnonempty, if_pos hdead, dropDead]
    simp only [ne_eq, hdead, not_false_eq_true, true_and]

theorem ruleRegion_of_preds (hpreds : (g.inputs r).toList.drop 1 = [p]) (hp : g.bringsControl p) :
    g.ruleRegion r = some (p, g.subsumeAll (g.phisOf r)) := by
  have hlive : g.livePreds r = [p] := by
    rw [livePreds, hpreds, List.filter_cons_of_pos hp, List.filter_nil]
  have hdead : g.deadPreds r = [] := by
    rw [deadPreds_eq, hpreds]
    simp [hp]
  have hinput : g.input r 1 = p := input_one_of_drop hpreds
  rw [ruleRegion_eq hopen, hlive, hdead, if_neg (List.cons_ne_nil p []), if_neg (not_not.mpr rfl),
    if_pos List.length_singleton, hinput]

end

theorem dropDead_of_nil (h : g.deadPreds r = []) : g.dropDead r = g := by
  rw [dropDead, h, if_neg fun hne => hne.1 rfl]
  rfl

/-- Region `r` of `d` with the single input `p` is replaced by that input, and its phis by their
values for it. Edges lead where `σ` says. -/
structure Collapses (r : NodeId) (p : Edge) (d g' : Graph) (σ : Edge → Edge) : Prop where
  replaced : Replaced σ (fun m => m = r ∨ m ∈ d.phisOf r) d g'
  region : σ (some r) = p
  phi : ∀ φ ∈ d.phisOf r, ∃ v, d.pairs r φ = [(p, v)] ∧ σ (some φ) = σ v
  other : ∀ e, e ≠ some r → (∀ φ ∈ d.phisOf r, e ≠ some φ) → σ e = e
  unused_phi : ∀ n ∈ g'.live, ∀ φ ∈ d.phisOf r, some φ ∉ g'.inputs n
  unused_region : p ≠ some r → ∀ n ∈ g'.live, some r ∉ g'.inputs n

/-- A region with the single input `p`. Its phis have one value each; neither the region itself is
one of these, nor do they lead in a circle. -/
structure Single (r : NodeId) (p : Edge) (d : Graph) : Prop where
  mirrored : d.Mirrored
  isRegion : (d.op r).isRegion
  ty : d.ty (some r) = .ctrl
  closed : (d.node r).inProgress = false
  preds : (d.inputs r).toList.drop 1 = [p]
  bringsControl : d.bringsControl p
  sizes : ∀ φ ∈ d.phisOf r, (d.inputs φ).size = (d.inputs r).size
  values : ∀ φ ∈ d.phisOf r, d.input φ 1 ≠ some r
  apart : ∀ φ ∈ d.phisOf r, p ≠ some φ
  acyclic : ∀ φ, ¬ Relation.TransGen (Feeds (d.input · 1) {φ | φ ∈ d.phisOf r}) φ φ

/-- All phis of region `r` of `d` are replaced, and maybe some that are already gone. -/
structure PhisGone (r : NodeId) (d g : Graph) (σ : Edge → Edge) : Prop where
  replaced : Replaced σ (fun m => m = r ∨ m ∈ d.phisOf r) d g
  follows : Follows (d.input · 1) {φ | φ ∈ d.phisOf r} {φ | φ ∈ d.phisOf r} σ

namespace Single

section

variable (h : Single r p d)

include h

theorem not_mem_phisOf : r ∉ d.phisOf r := fun hmem => by
  have hop := h.isRegion
  rw [((mem_phisOf h.mirrored.mirror).mp hmem).1] at hop
  cases hop

theorem live : r ∈ d.live := by
  refine h.mirrored.user_live r p (Array.mem_toList_iff.mp (List.mem_of_mem_drop (i := 1) ?_))
  rw [h.preds]
  exact List.mem_singleton_self p

theorem phi_live (hφ : φ ∈ d.phisOf r) : φ ∈ d.live :=
  h.mirrored.user_live φ _ (mem_inputs_of_input ((mem_phisOf h.mirrored.mirror).mp hφ).2)

theorem subsumeAll (hrep : Replaced σ (fun m => m = r ∨ m ∈ d.phisOf r) d g)
    (hf : Follows (d.input · 1) {φ | φ ∈ d.phisOf r} done σ) (hl : ∀ φ ∈ l, φ ∈ d.phisOf r)
    (hall : done ∪ {φ | φ ∈ l} = {φ | φ ∈ d.phisOf r}) :
    ∃ σ', PhisGone r d (g.subsumeAll l) σ' := by
  obtain ⟨σ', hrep', hf'⟩ := hrep.subsumeAll h.acyclic (fun _ hφ => h.phi_live hφ)
    (fun _ hφ => .inr hφ) hf hl
  exact ⟨σ', hrep', hall ▸ hf'⟩

section

variable (hgone : PhisGone r d g σ)

include hgone

theorem follow_region : σ (some r) = some r :=
  hgone.follows.other _ fun _ hφ heq => h.not_mem_phisOf (Option.some.inj heq ▸ hφ)

theorem follow_pred : σ p = p :=
  hgone.follows.other p fun φ hφ => h.apart φ hφ

theorem phisOf_subset (hφ : φ ∈ g.phisOf r) : φ ∈ d.phisOf r := by
  obtain ⟨hop, hinput⟩ := (mem_phisOf hgone.replaced.mirrored.mirror).mp hφ
  have hlive : φ ∈ g.live := hgone.replaced.mirrored.user_live φ _ (mem_inputs_of_input hinput)
  rw [hgone.replaced.input hgone.follows.none hlive] at hinput
  rw [hgone.replaced.core.op] at hop
  rcases hfirst : d.input φ 0 with _ | ψ
  · rw [hfirst, hgone.follows.none] at hinput
    cases hinput
  · rw [hfirst] at hinput
    rcases (hgone.follows.path ψ r hinput).cases_tail with rfl | ⟨χ, -, hχ, hvalue⟩
    · exact (mem_phisOf h.mirrored.mirror).mpr ⟨hop, hfirst⟩
    · exact absurd hvalue (h.values χ hχ)

theorem preds_of_live (hr : r ∈ g.live) : (g.inputs r).toList.drop 1 = [p] := by
  rw [hgone.replaced.inputs r hr, Array.toList_map, ← List.map_drop, h.preds, List.map_singleton,
    h.follow_pred hgone]

theorem collapses (hrep : Replaced (redirect r p ∘ σ) (fun m => m = r ∨ m ∈ d.phisOf r) d g') :
    Collapses r p d g' (redirect r p ∘ σ) where
  replaced := hrep
  region := by rw [Function.comp_apply, h.follow_region hgone, redirect, if_pos rfl]
  phi φ hφ := by
    refine ⟨_, pairs_of_drop h.preds (h.sizes φ hφ), ?_⟩
    rw [Function.comp_apply, Function.comp_apply, hgone.follows.phi φ hφ]
  other e hr hphi := by
    rw [Function.comp_apply, hgone.follows.other e hphi]
    exact if_neg hr
  unused_phi n hn φ hφ hmem := by
    rw [hrep.inputs n hn] at hmem
    obtain ⟨e, -, heq⟩ := Array.mem_map.mp hmem
    rw [Function.comp_apply, redirect] at heq
    split_ifs at heq
    · exact h.apart φ hφ heq
    · exact hgone.follows.never e φ hφ heq
  unused_region hne n hn hmem := by
    rw [hrep.inputs n hn] at hmem
    obtain ⟨e, -, heq⟩ := Array.mem_map.mp hmem
    rw [Function.comp_apply, redirect] at heq
    split_ifs at heq with hr
    · exact hne heq
    · exact hr heq

end

theorem collapses_subsume (hgone : PhisGone r d g σ) (hne : p ≠ some r) :
    Collapses r p d (g.subsume r p) (redirect r p ∘ σ) := by
  refine h.collapses hgone ?_
  by_cases hr : r ∈ g.live
  · refine (hgone.replaced.subsume hne fun m hm => ?_).mono fun m hm => hm.elim .inl id
    refine hgone.replaced.mirrored.input_live r m (Array.mem_toList_iff.mp ?_)
    refine List.mem_of_mem_drop (i := 1) ?_
    rw [h.preds_of_live hgone hr, ← Option.mem_def.mp hm]
    exact List.mem_singleton_self p
  · have hdead := hgone.replaced.isDead_of_not_live h.live hr
    exact ((hgone.replaced.redirect_of_not_live hr p).of_sameLinks
      (.subsume_of_isDead hgone.replaced.mirrored hdead p) (.subsume edgeFree_core g r p)).mono
        fun m hm => hm.elim .inl id

end

theorem improveAll_self (h : Single r (some r) d) {simp : Simplifier} {numbering : Bool} (k : Nat)
    (edited : Bool) (hgone : PhisGone r d g σ) :
    (improveAll simp numbering r k edited g).edge = some r ∧
      ∃ σ', PhisGone r d (improveAll simp numbering r k edited g).graph σ' := by
  induction k generalizing g σ edited with
  | zero =>
    have hop : (g.op r).isRegion := hgone.replaced.core.op r ▸ h.isRegion
    rw [improveAll, mergeEqual_of_isRegion hop]
    exact ⟨rfl, σ, hgone⟩
  | succ k ih =>
    have hop : (g.op r).isRegion := hgone.replaced.core.op r ▸ h.isRegion
    have hclosed : (g.node r).inProgress = false := (hgone.replaced.core.inProgress r).trans h.closed
    rw [improveAll, improve?_eq_ruleRegion hop ((hgone.replaced.core.ty _).trans h.ty)]
    by_cases hr : r ∈ g.live
    · have hp : g.bringsControl (some r) := by
        rw [Graph.bringsControl, hgone.replaced.core.ty]
        exact h.bringsControl
      rw [ruleRegion_of_preds hclosed (h.preds_of_live hgone hr) hp]
      dsimp only
      rw [if_pos rfl]
      have hsub (φ : NodeId) (hφ : φ ∈ g.phisOf r) : φ ∈ d.phisOf r := h.phisOf_subset hgone hφ
      obtain ⟨σ', hgone'⟩ := h.subsumeAll hgone.replaced hgone.follows hsub
        (Set.union_eq_left.mpr fun φ hφ => hsub φ hφ)
      exact ih true hgone'
    · -- with its last user the region is gone, and the rule does not apply to it
      have hnone : g.ruleRegion r = none := by
        rw [ruleRegion_eq hclosed, livePreds, hgone.replaced.mirrored.inputs_of_not_live hr]
        rfl
      rw [hnone]
      dsimp only
      rw [mergeEqual_of_isRegion hop]
      exact ⟨rfl, σ, hgone⟩

theorem improveAll (h : Single r p d) (simp : Simplifier) (numbering : Bool) (k : Nat)
    (edited : Bool) : (improveAll simp numbering r (k + 1) edited d).edge = p ∧
      ∃ σ, Collapses r p d (Graph.improveAll simp numbering r (k + 1) edited d).graph σ := by
  obtain ⟨σ, hgone⟩ := h.subsumeAll (.refl h.mirrored) .nil (fun _ hφ => hφ)
    (Set.empty_union _)
  rw [Graph.improveAll, improve?_eq_ruleRegion h.isRegion h.ty,
    ruleRegion_of_preds h.closed h.preds h.bringsControl]
  dsimp only
  by_cases hne : p = some r
  · subst hne
    rw [if_pos rfl]
    obtain ⟨hedge, σ', hgone'⟩ := h.improveAll_self k true hgone
    refine ⟨hedge, redirect r (some r) ∘ σ', h.collapses hgone' ?_⟩
    have hid : redirect r (some r) ∘ σ' = σ' := funext fun e => ite_eq_right_iff.mpr Eq.symm
    rw [hid]
    exact hgone'.replaced
  · rw [if_neg hne]
    exact ⟨rfl, _, h.collapses_subsume hgone hne⟩

end Single

theorem mem_live_of_livePreds (h : g.Mirrored) (hlive : g.livePreds r ≠ []) : r ∈ g.live := by
  obtain ⟨e, he⟩ := List.exists_mem_of_ne_nil _ hlive
  exact h.user_live r e (Array.mem_toList_iff.mp (List.mem_of_mem_drop (List.mem_of_mem_filter he)))

theorem Dropped.livePreds (h : Dropped r g d) : d.livePreds r = g.livePreds r := by
  rw [Graph.livePreds, h.preds, List.filter_eq_self]
  exact fun e he => (h.bringsControl e).trans (List.of_mem_filter he)

theorem Dropped.mem_pairs (h : Dropped r g d) (hp : g.livePreds r = [p]) (hφ : φ ∈ g.phisOf r) :
    (p, d.input φ 1) ∈ g.pairs r φ := by
  have hpairs := pairs_of_drop (h.preds.trans hp) (h.sizes φ hφ)
  rw [h.pairs φ hφ] at hpairs
  exact List.mem_of_mem_filter (hpairs ▸ List.mem_singleton_self (p, d.input φ 1))

section

variable (hop : (g.op r).isRegion) (hty : g.ty (some r) = .ctrl)
  (hclosed : (g.node r).inProgress = false)

include hop hty hclosed

theorem Dropped.single (h : g.Mirrored) (hd : Dropped r g d)
    (hvalues : ∀ φ ∈ g.phisOf r, some r ∉ (g.inputs φ).toList.drop 1) (hp : g.livePreds r = [p])
    (hapart : ∀ φ ∈ g.phisOf r, p ≠ some φ)
    (hacyclic : ∀ φ, ¬ Relation.TransGen
      (fun φ ψ => φ ∈ g.phisOf r ∧ (p, some ψ) ∈ g.pairs r φ) φ φ) : Single r p d := by
  have hphis (φ : NodeId) : φ ∈ d.phisOf r ↔ φ ∈ g.phisOf r := hd.mem_phisOf h.mirror hop
  refine ⟨hd.mirrored, hd.isRegion hop, (hd.ty _).trans hty, (hd.inProgress r).trans hclosed,
    hd.preds.trans hp, ?_, fun φ hφ => hd.sizes φ ((hphis φ).mp hφ), fun φ hφ heq => ?_,
    fun φ hφ => hapart φ ((hphis φ).mp hφ), fun φ hcycle => hacyclic φ (hcycle.lift id ?_)⟩
  · exact (hd.bringsControl p).trans (List.of_mem_filter
      (hp ▸ List.mem_singleton_self p : p ∈ g.livePreds r))
  · have hvalue := (List.of_mem_zip (hd.mem_pairs hp ((hphis φ).mp hφ))).2
    exact hvalues φ ((hphis φ).mp hφ) (heq ▸ hvalue)
  · rintro φ ψ ⟨hφ, hvalue⟩
    have hφ : φ ∈ g.phisOf r := (hphis φ).mp hφ
    exact ⟨hφ, hvalue ▸ hd.mem_pairs hp hφ⟩

theorem improveAll_dropDead (simp : Simplifier) (numbering : Bool) (hlive : g.livePreds r ≠ [])
    (k : Nat) (edited : Bool) : ∃ j edited', improveAll simp numbering r (k + 2) edited g =
      improveAll simp numbering r (j + 1) edited' (g.dropDead r) := by
  by_cases hdead : g.deadPreds r = []
  · exact ⟨k + 1, edited, by rw [dropDead_of_nil hdead]⟩
  · refine ⟨k, true, ?_⟩
    rw [improveAll, improve?_eq_ruleRegion hop hty, ruleRegion_eq hclosed, if_neg hlive,
      if_pos hdead]
    exact if_pos rfl

theorem improveAll_of_several (simp : Simplifier) (numbering : Bool) (hdead : g.deadPreds r = [])
    (hmany : 2 ≤ (g.livePreds r).length) (k : Nat) (edited : Bool) :
    improveAll simp numbering r (k + 1) edited g = ⟨some r, edited, g⟩ := by
  have hnone : g.ruleRegion r = none := by
    have hne : (g.livePreds r).length ≠ 1 := fun hone => absurd (hone ▸ hmany) (by decide)
    rw [ruleRegion_eq hclosed, if_neg (not_not.mpr hdead), if_neg hne, ite_self]
  rw [improveAll, improve?_eq_ruleRegion hop hty, hnone]
  exact mergeEqual_of_isRegion hop

end

/-- A region that is rewritten loses the inputs that bring no control, and its phis the values that
belong to them. What is left of several inputs stays a join, which is not changed any more. A single
one takes the place of the region, and the phis make place for their values; other nodes only have
their edges led elsewhere, or are gone for lack of users. -/
theorem rewrite_region_drops_dead_inputs (h : g.Mirrored) (hop : (g.op r).isRegion)
    (hty : g.ty (some r) = .ctrl) (hclosed : (g.node r).inProgress = false)
    (hlive : g.livePreds r ≠ [])
    (hsizes : ∀ φ ∈ g.phisOf r, (g.inputs φ).size = (g.inputs r).size)
    (hvalues : ∀ φ ∈ g.phisOf r, some r ∉ (g.inputs φ).toList.drop 1)
    (hapart : ∀ φ ∈ g.phisOf r, g.livePreds r ≠ [some φ])
    (hacyclic : ∀ p, g.livePreds r = [p] → ∀ φ, ¬ Relation.TransGen
      (fun φ ψ => φ ∈ g.phisOf r ∧ (p, some ψ) ∈ g.pairs r φ) φ φ) (numbering : Bool) :
    (2 ≤ (g.livePreds r).length → (g.rewrite r numbering).edge = some r ∧
      Dropped r g (g.rewrite r numbering).graph ∧ ∀ again,
        (g.rewrite r numbering).graph.rewrite r again =
          ⟨some r, false, (g.rewrite r numbering).graph⟩) ∧
    ∀ p, g.livePreds r = [p] → (g.rewrite r numbering).edge = p ∧
      ∃ d σ, Dropped r g d ∧ Collapses r p d (g.rewrite r numbering).graph σ := by
  have hd := dropped_dropDead h (mem_live_of_livePreds h hlive) hop hsizes hvalues
  obtain ⟨j, edited, hdrop⟩ :=
    improveAll_dropDead hop hty hclosed (peepholeAt g.size) numbering hlive 30 false
  change g.rewrite r numbering = _ at hdrop
  refine ⟨fun hmany => ?_, fun p hp => ?_⟩
  · -- what is left is a join again, and no rule is for it
    have hstays (simp : Simplifier) (numbering : Bool) :=
      improveAll_of_several (hd.isRegion hop) ((hd.ty _).trans hty)
        ((hd.inProgress r).trans hclosed) simp numbering hd.deadPreds (hd.livePreds.symm ▸ hmany)
    rw [hdrop, hstays _ _ j edited]
    exact ⟨rfl, hd, fun again => hstays _ again 31 false⟩
  · have hsingle := Dropped.single hop hty hclosed h hd hvalues hp
      (fun φ hφ heq => hapart φ hφ (heq ▸ hp)) (hacyclic p hp)
    obtain ⟨hedge, σ, hcollapses⟩ :=
      hsingle.improveAll (peepholeAt g.size) numbering j edited
    rw [hdrop]
    exact ⟨hedge, _, σ, hd, hcollapses⟩

end Graph

/-- A loop whose back edge is not reached, with a phi that is a value of another one. -/
def chainedPhis : List Edit := [
  .add (.param 0) #[some 0] .anyInt,
  .add (.param 1) #[some 0] .anyInt,
  .add .loop #[none, some 0, some 2] .top,
  .add .phi #[some 5, some 3, some 4] .anyInt,
  .add .phi #[some 5, some 6, some 3] .anyInt,
  .add .ret #[some 5, none, some 7] .top,
  .pushInput 1 (some 8)]

theorem rewrite_region_drops_dead_inputs_chainedPhis :
    let g := (Edit.run .empty chainedPhis).setTy 5 .ctrl
    let g' := (g.rewrite 5 true).graph
    g.op 5 = .loop ∧ g.livePreds 5 = [some 0] ∧ g.phisOf 5 = [6, 7] ∧
      g.pairs 5 7 = [(some 0, some 6), (some 2, some 3)] ∧ g'.inputs 8 = #[some 0, none, some 3] ∧
      (g.rewrite 5 true).edge = some 0 ∧
      ∃ d σ, Graph.Dropped 5 g d ∧ Graph.Collapses 5 (some 0) d g' σ := by
  intro g g'
  have hlegal : Edit.LegalRun .empty chainedPhis := by decide +kernel
  have hpred : g.livePreds 5 = [some 0] := by decide +kernel
  have hphis : g.phisOf 5 = [6, 7] := by decide +kernel
  have hsixth : g.pairs 5 6 = [(some 0, some 3), (some 2, some 4)] := by decide +kernel
  have hseventh : g.pairs 5 7 = [(some 0, some 6), (some 2, some 3)] := by decide +kernel
  have holder : ∀ φ ψ, φ ∈ g.phisOf 5 ∧ (some 0, some ψ) ∈ g.pairs 5 φ → φ > ψ := by
    rintro φ ψ ⟨hφ, hvalue⟩
    rw [hphis] at hφ
    rcases List.mem_pair.mp hφ with rfl | rfl
    · rw [hsixth] at hvalue
      obtain rfl : ψ = 3 := by simpa using hvalue
      decide
    · rw [hseventh] at hvalue
      obtain rfl : ψ = 6 := by simpa using hvalue
      decide
  have hrewrite := Graph.rewrite_region_drops_dead_inputs (g := g) (r := 5)
    ((Edit.mirrored_run Graph.mirrored_empty hlegal).congr (Graph.sameLinks_setTy _ 5 .ctrl))
    (by decide +kernel) (by decide +kernel) (by decide +kernel) (by decide +kernel)
    (by decide +kernel) (by decide +kernel) (by decide +kernel)
    (fun p hp φ hcycle => by
      obtain rfl : some 0 = p := List.singleton_inj.mp (hpred.symm.trans hp)
      have hlt : Relation.TransGen (· > ·) φ φ := hcycle.lift id holder
      rw [Relation.transGen_eq_self] at hlt
      exact Nat.lt_irrefl φ hlt) true
  exact ⟨by decide +kernel, hpred, hphis, hseventh, by decide +kernel, hrewrite.2 _ hpred⟩

/-- A region that a phi of its own has for a value, where no control comes in. -/
def regionAsValue : List Edit := [
  .add (.param 0) #[some 0] .anyInt,
  .add (.param 1) #[some 0] .anyInt,
  .add .region #[none, some 0] .top,
  .add .region #[none, some 2, some 0, some 5] .top,
  .add .phi #[some 6, some 6, some 3, some 4] .anyInt]

/-- A region that comes after a phi of its own. -/
def phiAsInput : List Edit := [
  .add (.param 0) #[some 0] .anyInt,
  .add .region #[none, none] .top,
  .add .phi #[some 4, some 3] .anyInt,
  .setInput 4 1 (some 5),
  .add .ret #[some 4, none, some 5] .top]

/-- Where a phi has its region for a value, a value is lost that comes with control. Where the region
comes after a phi of its own, edges still lead to the phi when it is gone. -/
theorem rewrite_region_loses_value :
    (let g := (Edit.run .empty regionAsValue).setTy 6 .ctrl
      let g' := (g.rewrite 6 false).graph
      g.Mirrored ∧ g.op 6 = .region ∧ g.ty (some 6) = .ctrl ∧ (g.node 6).inProgress = false ∧
        g.livePreds 6 = [some 0, some 5] ∧ (∀ φ ∈ g.phisOf 6, (g.inputs φ).size = (g.inputs 6).size) ∧
        (∀ φ ∈ g.phisOf 6, ∀ ψ ∈ g.phisOf 6, some ψ ∉ g.inputs φ) ∧ 7 ∈ g.phisOf 6 ∧
        ((g.pairs 6 7).filter fun x => g.bringsControl x.1) = [(some 0, some 3), (some 5, some 4)] ∧
        g'.inputs 6 = #[none, some 0, some 5] ∧ g'.inputs 7 = #[some 6, some 4]) ∧
    (let g := (Edit.run .empty phiAsInput).setTy 4 .ctrl
      let g' := (g.rewrite 4 false).graph
      g.Mirrored ∧ g.op 4 = .region ∧ g.ty (some 4) = .ctrl ∧ (g.node 4).inProgress = false ∧
        g.livePreds 4 = [some 5] ∧ (∀ φ ∈ g.phisOf 4, (g.inputs φ).size = (g.inputs 4).size) ∧
        (∀ φ ∈ g.phisOf 4, ∀ ψ ∈ g.phisOf 4, some ψ ∉ g.inputs φ) ∧ 5 ∈ g.phisOf 4 ∧
        g.pairs 4 5 = [(some 5, some 3)] ∧ 6 ∈ g'.live ∧ 5 ∉ g'.live ∧ some 5 ∈ g'.inputs 6) := by
  have hlegal : Edit.LegalRun .empty regionAsValue ∧ Edit.LegalRun .empty phiAsInput := by
    decide +kernel
  refine ⟨⟨?_, by decide +kernel⟩, ?_, by decide +kernel⟩
  · exact (Edit.mirrored_run Graph.mirrored_empty hlegal.1).congr (Graph.sameLinks_setTy _ 6 .ctrl)
  · exact (Edit.mirrored_run Graph.mirrored_empty hlegal.2).congr (Graph.sameLinks_setTy _ 4 .ctrl)

end SeaNodes
