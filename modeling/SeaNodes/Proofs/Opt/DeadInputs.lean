import SeaNodes.Opt.Rewrite
import SeaNodes.Proofs.Graph.Edits

namespace SeaNodes

namespace Graph

variable {g g' g'' : Graph} {r n m φ : NodeId} {e : Edge} {i : Nat} {phis : List NodeId}

def bringsControl (g : Graph) (e : Edge) : Bool := e.isSome && g.ty e != .deadCtrl

/-- The inputs of a region that bring control. -/
def livePreds (g : Graph) (r : NodeId) : List Edge :=
  ((g.inputs r).toList.drop 1).filter g.bringsControl

/-- The inputs of a region and the values that a phi has for them. -/
def pairs (g : Graph) (r φ : NodeId) : List (Edge × Edge) :=
  ((g.inputs r).toList.drop 1).zip ((g.inputs φ).toList.drop 1)

/-- The inputs of `n` behind the first that come with control at `r`. -/
def kept (g : Graph) (r n : NodeId) : List Edge :=
  ((g.pairs r n).filter fun x => g.bringsControl x.1).map Prod.snd

theorem mem_phisOf (h : g.Mirror) : φ ∈ g.phisOf r ↔ g.op φ = .phi ∧ g.input φ 0 = some r := by
  simp only [phisOf, List.mem_filter, Array.mem_toList_iff, Bool.and_eq_true, beq_iff_eq]
  refine ⟨fun hφ => hφ.2, fun hφ => ⟨?_, hφ⟩⟩
  exact h.mem_usesOf_iff.mpr (mem_inputs_of_input hφ.2)

theorem nodup_phisOf (h : g.Mirror)
    (hvalues : ∀ φ ∈ g.phisOf r, some r ∉ (g.inputs φ).toList.drop 1) : (g.phisOf r).Nodup := by
  rw [List.nodup_iff_count_le_one]
  intro φ
  by_cases hφ : φ ∈ g.phisOf r
  · have hcount : (g.usesOf r).toList.count φ = (g.inputs φ).toList.count (some r) := by
      rw [Array.count_toList, Array.count_toList, h]
    -- it uses the region as often as it has an edge there, and only the first one is
    refine (List.Sublist.count_le φ List.filter_sublist).trans (hcount.trans_le ?_)
    rw [← List.take_append_drop 1 (g.inputs φ).toList, List.count_append,
      List.count_eq_zero.mpr (hvalues φ hφ), Nat.add_zero]
    exact List.count_le_length.trans (List.length_take_le 1 _)
  · exact (List.count_eq_zero.mpr hφ).trans_le (Nat.zero_le 1)

theorem deadPreds_eq (g : Graph) (r : NodeId) : g.deadPreds r =
    (((g.inputs r).toList.drop 1).zipIdx 1).filterMap
      fun x => if g.bringsControl x.1 then none else some x.2 := by
  have hdrop (l : List Edge) : l.zipIdx.drop 1 = (l.drop 1).zipIdx 1 := by
    cases l <;> rfl
  rw [deadPreds, hdrop]
  refine List.filterMap_congr fun x _ => ?_
  rcases x with ⟨_ | n, i⟩ <;> simp [bringsControl]

theorem length_deadPreds (g : Graph) (r : NodeId) :
    (g.inputs r).size - 1 - (g.deadPreds r).length = (g.livePreds r).length := by
  have hsum (l : List Edge) (k : Nat) : ((l.zipIdx k).filterMap
      fun x => if g.bringsControl x.1 then none else some x.2).length +
        (l.filter g.bringsControl).length = l.length := by
    induction l generalizing k with
    | nil => rfl
    | cons e l ih =>
      rw [List.zipIdx_cons, List.filterMap_cons, List.filter_cons, List.length_cons, ← ih (k + 1)]
      split_ifs <;> simp only [List.length_cons] <;> omega
  have h := hsum ((g.inputs r).toList.drop 1) 1
  rw [← deadPreds_eq, List.length_drop, ← livePreds, (g.inputs r).length_toList] at h
  omega

theorem foldr_eraseIdx {α β : Type} (keep : α → Bool) (xs : List α) (ys pre : List β)
    (hlength : ys.length = xs.length) :
    ((xs.zipIdx pre.length).filterMap fun x => if keep x.1 then none else some x.2).foldr
        (fun i l => l.eraseIdx i) (pre ++ ys) =
      pre ++ ((xs.zip ys).filter fun x => keep x.1).map Prod.snd := by
  induction xs generalizing ys pre with
  | nil => rw [List.length_eq_zero_iff.mp hlength]; rfl
  | cons x xs ih =>
    obtain ⟨y, ys, rfl⟩ := List.exists_cons_of_length_eq_add_one hlength
    have hrest := ih ys (pre ++ [y]) (Nat.succ.inj hlength)
    rw [List.length_append, List.length_singleton, List.append_assoc, List.append_assoc,
      List.singleton_append] at hrest
    rw [List.zipIdx_cons, List.filterMap_cons, List.zip_cons_cons, List.filter_cons]
    -- what comes later was erased before, so `y` is still where it was
    split_ifs with hx
    · exact hrest
    · rw [List.foldr_cons, hrest, List.eraseIdx_append_of_length_le (Nat.le_refl _), Nat.sub_self]
      rfl

theorem foldl_eraseIdx_deadPreds (hsize : (g.inputs n).size = (g.inputs r).size) :
    (g.deadPreds r).reverse.foldl List.eraseIdx (g.inputs n).toList =
      (g.inputs n).toList.take 1 ++ g.kept r n := by
  rw [← Array.length_toList, ← Array.length_toList] at hsize
  rw [deadPreds_eq, List.foldl_reverse, kept, pairs]
  rcases hxs : (g.inputs r).toList with _ | ⟨x, xs⟩
  · rw [hxs] at hsize
    rw [List.length_eq_zero_iff.mp hsize]
    rfl
  · rw [hxs] at hsize
    obtain ⟨y, ys, hys⟩ := List.exists_cons_of_length_eq_add_one hsize
    rw [hys] at hsize ⊢
    exact foldr_eraseIdx g.bringsControl xs ys [y] (Nat.succ.inj hsize)

theorem zip_map_snd {α β : Type} (keep : α → Bool) (xs : List α) (ys : List β)
    (hlength : ys.length = xs.length) :
    (xs.filter keep).zip (((xs.zip ys).filter fun x => keep x.1).map Prod.snd) =
      (xs.zip ys).filter fun x => keep x.1 := by
  induction xs generalizing ys with
  | nil => rfl
  | cons x xs ih =>
    obtain ⟨y, ys, rfl⟩ := List.exists_cons_of_length_eq_add_one hlength
    rw [List.filter_cons, List.zip_cons_cons, List.filter_cons]
    split_ifs
    · rw [List.map_cons, List.zip_cons_cons, ih ys (Nat.succ.inj hlength)]
    · exact ih ys (Nat.succ.inj hlength)

theorem length_zip_filter {α β : Type} (keep : α → Bool) (xs : List α) (ys : List β)
    (hlength : ys.length = xs.length) :
    (((xs.zip ys).filter fun x => keep x.1).map Prod.snd).length = (xs.filter keep).length := by
  induction xs generalizing ys with
  | nil => rfl
  | cons x xs ih =>
    obtain ⟨y, ys, rfl⟩ := List.exists_cons_of_length_eq_add_one hlength
    rw [List.zip_cons_cons, List.filter_cons, List.filter_cons]
    split_ifs
    · rw [List.map_cons, List.length_cons, List.length_cons, ih ys (Nat.succ.inj hlength)]
    · exact ih ys (Nat.succ.inj hlength)

theorem kept_self (g : Graph) (r : NodeId) : g.kept r r = g.livePreds r := by
  have hself (l : List Edge) :
      ((l.zip l).filter fun x => g.bringsControl x.1).map Prod.snd = l.filter g.bringsControl := by
    induction l with
    | nil => rfl
    | cons e l ih =>
      rw [List.zip_cons_cons, List.filter_cons, List.filter_cons]
      split_ifs
      · rw [List.map_cons, ih]
      · exact ih
  exact hself _

section

variable (hsize : (g.inputs n).size = (g.inputs r).size)

include hsize

theorem length_drop_inputs :
    ((g.inputs n).toList.drop 1).length = ((g.inputs r).toList.drop 1).length := by
  rw [List.length_drop, List.length_drop, Array.length_toList, Array.length_toList, hsize]

theorem length_kept : (g.kept r n).length = (g.livePreds r).length :=
  length_zip_filter _ _ _ (length_drop_inputs hsize)

theorem zip_kept :
    (g.livePreds r).zip (g.kept r n) = (g.pairs r n).filter fun x => g.bringsControl x.1 :=
  zip_map_snd _ _ _ (length_drop_inputs hsize)

end

theorem take_one_append_kept (g : Graph) (r n : NodeId) :
    ((g.inputs n).toList.take 1 ++ g.kept r n).drop 1 = g.kept r n ∧
      ((g.inputs n).toList.take 1 ++ g.kept r n)[0]? = (g.inputs n).toList[0]? := by
  rcases hl : (g.inputs n).toList with _ | ⟨e, l⟩
  · have hnone : g.kept r n = [] := by
      rw [kept, pairs, hl, List.drop_nil, List.zip_nil_right, List.filter_nil, List.map_nil]
    rw [hnone]
    exact ⟨rfl, rfl⟩
  · exact ⟨rfl, rfl⟩

/-- The inputs `is` of the nodes of `who` are erased, one after the other. -/
structure Erased (who : NodeId → Prop) (is : List Nat) (g g' : Graph) : Prop where
  core : Same Node.core g g'
  mirrored : g'.Mirrored
  live : ∀ m, m ∈ g'.live ↔ m ∈ g.live
  inputs : ∀ m, who m → (g'.inputs m).toList = is.foldl List.eraseIdx (g.inputs m).toList
  others : ∀ m, ¬ who m → g'.inputs m = g.inputs m

namespace Erased

variable {who : NodeId → Prop} {is js : List Nat}

theorem refl (h : g.Mirrored) : Erased who [] g g :=
  ⟨.refl g, h, fun _ => Iff.rfl, fun _ _ => rfl, fun _ _ => rfl⟩

theorem trans (h : Erased who is g g') (h' : Erased who js g' g'') :
    Erased who (is ++ js) g g'' where
  core := h.core.trans h'.core
  mirrored := h'.mirrored
  live m := (h'.live m).trans (h.live m)
  inputs m hm := by rw [h'.inputs m hm, h.inputs m hm, List.foldl_append]
  others m hm := (h'.others m hm).trans (h.others m hm)

theorem removeInput (h : g.Mirrored) (hn : n ∈ g.live) (i : Nat) :
    Erased (· = n) [i] g (g.removeInput n i) := by
  have hr := relinked_removeInput h.mirror n i
  refine ⟨.of_updated edgeFree_core (g.updated_removeInput n i) fun x => edgeFree_core.inputs x _,
    h.removeInput hn i, fun m => hr.mem_live, fun m hm => ?_, fun m hm => ?_⟩
  · rw [hr.inputs, if_pos hm.symm, toList_eraseIdxIfInBounds, hm]
    rfl
  · rw [hr.inputs, if_neg (Ne.symm hm)]

theorem or {who' : NodeId → Prop} (h : Erased who [i] g g') (h' : Erased who' [i] g' g'')
    (hapart : ∀ m, who m → ¬ who' m) : Erased (fun m => who m ∨ who' m) [i] g g'' where
  core := h.core.trans h'.core
  mirrored := h'.mirrored
  live m := (h'.live m).trans (h.live m)
  inputs m hm := by
    by_cases hwho : who m
    · rw [h'.others m (hapart m hwho), h.inputs m hwho]
    · rw [h'.inputs m (hm.resolve_left hwho), h.others m hwho]
  others m hm := by
    rw [not_or] at hm
    rw [h'.others m hm.2, h.others m hm.1]

theorem congr {who' : NodeId → Prop} (h : Erased who is g g') (hwho : ∀ m, who m ↔ who' m) :
    Erased who' is g g' :=
  funext (fun m => propext (hwho m)) ▸ h

theorem removeInputs (h : g.Mirrored) (hnodup : phis.Nodup) (hlive : ∀ φ ∈ phis, φ ∈ g.live)
    (i : Nat) : Erased (· ∈ phis) [i] g (phis.foldl (·.removeInput · i) g) := by
  induction phis generalizing g with
  | nil => exact ⟨.refl g, h, fun _ => Iff.rfl, fun m hm => absurd hm List.not_mem_nil, fun _ _ => rfl⟩
  | cons φ phis ih =>
    rw [List.nodup_cons] at hnodup
    rw [List.forall_mem_cons] at hlive
    have hfirst := removeInput h hlive.1 i
    have hrest := ih hfirst.mirrored hnodup.2 fun ψ hψ => (hfirst.live ψ).mpr (hlive.2 ψ hψ)
    refine (hfirst.or hrest fun m hm => hm ▸ hnodup.1).congr fun m => List.mem_cons.symm

theorem dropPred (h : g.Mirrored) (hnodup : phis.Nodup) (hlive : ∀ φ ∈ phis, φ ∈ g.live)
    (hr : r ∈ g.live) (hnot : r ∉ phis) (i : Nat) :
    Erased (fun m => m = r ∨ m ∈ phis) [i] g (Graph.dropPred r phis g i) := by
  have hphis := removeInputs h hnodup hlive i
  have hregion := removeInput hphis.mirrored ((hphis.live r).mpr hr) i
  exact (hphis.or hregion fun m hm heq => hnot (heq ▸ hm)).congr fun m => or_comm

theorem dropPreds (h : g.Mirrored) (hnodup : phis.Nodup) (hlive : ∀ φ ∈ phis, φ ∈ g.live)
    (hr : r ∈ g.live) (hnot : r ∉ phis) (is : List Nat) :
    Erased (fun m => m = r ∨ m ∈ phis) is g (is.foldl (Graph.dropPred r phis) g) := by
  induction is generalizing g with
  | nil => exact .refl h
  | cons i is ih =>
    have hfirst := dropPred h hnodup hlive hr hnot i
    exact hfirst.trans (ih hfirst.mirrored (fun φ hφ => (hfirst.live φ).mpr (hlive φ hφ))
      ((hfirst.live r).mpr hr))

end Erased

def dropDead (g : Graph) (r : NodeId) : Graph :=
  (g.deadPreds r).reverse.foldl (dropPred r (g.phisOf r))
    (if g.deadPreds r ≠ [] ∧ g.op r = .loop then g.setOp r .region else g)

/-- Region `r` and its phis are without the inputs that bring no control. -/
structure Dropped (r : NodeId) (g d : Graph) : Prop where
  mirrored : d.Mirrored
  live : ∀ n, n ∈ d.live ↔ n ∈ g.live
  first : ∀ n, d.input n 0 = g.input n 0
  preds : (d.inputs r).toList.drop 1 = g.livePreds r
  pairs : ∀ φ ∈ g.phisOf r, d.pairs r φ = (g.pairs r φ).filter fun x => g.bringsControl x.1
  sizes : ∀ φ ∈ g.phisOf r, (d.inputs φ).size = (d.inputs r).size
  others : ∀ n, n ≠ r → n ∉ g.phisOf r → d.inputs n = g.inputs n
  op : ∀ n, d.op n = if n = r ∧ g.deadPreds r ≠ [] then .region else g.op n
  ty : ∀ e, d.ty e = g.ty e
  inProgress : ∀ n, (d.node n).inProgress = (g.node n).inProgress

namespace Dropped

variable {d : Graph}

theorem mem_phisOf (h : Dropped r g d) (hg : g.Mirror) (hr : (g.op r).isRegion) :
    φ ∈ d.phisOf r ↔ φ ∈ g.phisOf r := by
  rw [Graph.mem_phisOf h.mirrored.mirror, Graph.mem_phisOf hg, h.first, h.op]
  split_ifs with hφ
  · rw [hφ.1]
    refine iff_of_false (fun h => nomatch h.1) fun h => ?_
    rw [h.1] at hr
    cases hr
  · rfl

theorem isRegion (h : Dropped r g d) (hr : (g.op r).isRegion) : (d.op r).isRegion := by
  rw [h.op]
  split_ifs
  · rfl
  · exact hr

theorem bringsControl (h : Dropped r g d) (e : Edge) :
    d.bringsControl e = g.bringsControl e := by
  rw [Graph.bringsControl, Graph.bringsControl, h.ty]

theorem deadPreds (h : Dropped r g d) : d.deadPreds r = [] := by
  rw [deadPreds_eq, h.preds, List.filterMap_eq_nil_iff]
  intro x hx
  have hkept := List.of_mem_filter (List.fst_mem_of_mem_zipIdx hx)
  rw [h.bringsControl, if_pos hkept]

end Dropped

theorem setOp_region_spec (hop : (g.op r).isRegion) (dead : List Nat)
    (hg' : g' = if dead ≠ [] ∧ g.op r = .loop then g.setOp r .region else g) :
    g.SameLinks g' ∧ (∀ n, g'.op n = if n = r ∧ dead ≠ [] then .region else g.op n) ∧
      (∀ e, g'.ty e = g.ty e) ∧ ∀ n, (g'.node n).inProgress = (g.node n).inProgress := by
  subst hg'
  split_ifs with h
  · have hu := g.updated_modifyNode r ({ · with op := .region })
    refine ⟨(SameLinks.unnumber g r).trans (.modifyNode (f := ({ · with op := .region }))
      (fun _ => rfl) (fun _ => rfl) _ r), fun n => ?_, fun e => ?_, fun n => ?_⟩
    · by_cases hn : n = r
      · have hlt : r < g.size := by
          by_contra hge
          rw [op, node_of_size_le (Nat.le_of_not_lt hge)] at h
          cases h.2
        rw [if_pos ⟨hn, h.1⟩, hn, op, setOp, node_modifyNode, (SameLinks.unnumber g r).size,
          if_pos ⟨rfl, hlt⟩]
      · rw [if_neg fun h => hn h.1]
        exact congrArg Node.op (hu.of_ne (Ne.symm hn))
    · cases e with
      | none => rfl
      | some n => exact hu.field Node.ty (fun _ => rfl) (fun _ _ => rfl) n
    · exact hu.field Node.inProgress (fun _ => rfl) (fun _ _ => rfl) n
  · refine ⟨.refl g, fun n => ?_, fun _ => rfl, fun _ => rfl⟩
    split_ifs with hn
    · -- what is not made a region was one, as it is no loop
      have hloop : g.op r ≠ .loop := fun hloop => h ⟨hn.2, hloop⟩
      rw [hn.1]
      cases hr : g.op r with
      | region => rfl
      | loop => exact absurd hr hloop
      | _ => rw [hr] at hop; cases hop
    · rfl

/-- Dropping the dead inputs of a region whose phis have as many inputs as it has itself. -/
theorem dropped_dropDead (h : g.Mirrored) (hr : r ∈ g.live) (hop : (g.op r).isRegion)
    (hsizes : ∀ φ ∈ g.phisOf r, (g.inputs φ).size = (g.inputs r).size)
    (hvalues : ∀ φ ∈ g.phisOf r, some r ∉ (g.inputs φ).toList.drop 1) :
    Dropped r g (g.dropDead r) := by
  obtain ⟨hlinks, hops, htys, hopen⟩ := setOp_region_spec hop (g.deadPreds r) rfl
  have hnot : r ∉ g.phisOf r := fun hmem => by
    rw [((mem_phisOf h.mirror).mp hmem).1] at hop
    cases hop
  have hphi (φ : NodeId) (hφ : φ ∈ g.phisOf r) : φ ∈ g.live :=
    h.user_live φ _ (mem_inputs_of_input ((mem_phisOf h.mirror).mp hφ).2)
  have herased := Erased.dropPreds (h.congr hlinks) (nodup_phisOf h.mirror hvalues)
    (fun φ hφ => hlinks.mem_live.mpr (hphi φ hφ)) (hlinks.mem_live.mpr hr) hnot
    (g.deadPreds r).reverse
  change Erased _ _ _ (g.dropDead r) at herased
  have hsize (n : NodeId) (hn : n = r ∨ n ∈ g.phisOf r) : (g.inputs n).size = (g.inputs r).size :=
    hn.elim (fun hn => hn ▸ rfl) (hsizes n)
  have hleft (n : NodeId) (hn : n = r ∨ n ∈ g.phisOf r) :
      ((g.dropDead r).inputs n).toList = (g.inputs n).toList.take 1 ++ g.kept r n := by
    rw [herased.inputs n hn, hlinks.inputs, foldl_eraseIdx_deadPreds (hsize n hn)]
  have hother (n : NodeId) (hn : ¬ (n = r ∨ n ∈ g.phisOf r)) :
      (g.dropDead r).inputs n = g.inputs n := (herased.others n hn).trans (hlinks.inputs n)
  have hdrop (n : NodeId) (hn : n = r ∨ n ∈ g.phisOf r) :
      ((g.dropDead r).inputs n).toList.drop 1 = g.kept r n := by
    rw [hleft n hn, (g.take_one_append_kept r n).1]
  have hcount (n : NodeId) (hn : n = r ∨ n ∈ g.phisOf r) :
      ((g.dropDead r).inputs n).size = min 1 (g.inputs r).size + (g.livePreds r).length := by
    rw [← Array.length_toList, hleft n hn, List.length_append, length_kept (hsize n hn),
      List.length_take, Array.length_toList, hsize n hn]
  have hpreds : ((g.dropDead r).inputs r).toList.drop 1 = g.livePreds r :=
    (hdrop r (.inl rfl)).trans (g.kept_self r)
  refine ⟨herased.mirrored, fun n => (herased.live n).trans hlinks.mem_live, fun n => ?_, hpreds,
    fun φ hφ => ?_, fun φ hφ => ?_, fun n hnr hnφ => hother n (not_or.mpr ⟨hnr, hnφ⟩),
    fun n => (herased.core.op n).trans (hops n), fun e => (herased.core.ty e).trans (htys e),
    fun n => (herased.core.inProgress n).trans (hopen n)⟩
  · by_cases hn : n = r ∨ n ∈ g.phisOf r
    · rw [input_eq_getElem?, input_eq_getElem?, ← Array.getElem?_toList, ← Array.getElem?_toList,
        hleft n hn, (g.take_one_append_kept r n).2]
    · rw [input_eq_getElem?, input_eq_getElem?, hother n hn]
  · rw [Graph.pairs, hpreds, hdrop φ (.inr hφ), zip_kept (hsizes φ hφ)]
  · rw [hcount φ (.inr hφ), hcount r (.inl rfl)]

end Graph

end SeaNodes
