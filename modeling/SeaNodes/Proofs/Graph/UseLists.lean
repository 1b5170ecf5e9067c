import Mathlib.Data.List.Perm.Basic
import SeaNodes.Proofs.Graph.WellFormed

namespace SeaNodes

open scoped List in
theorem perm_swapErase {a : Array NodeId} {x : NodeId} (h : x ∈ a) :
    a.toList ~ x :: (swapErase a x).toList := by
  have hfound : (a.findIdx? (· == x)).isSome := by
    rw [Array.findIdx?_isSome, Array.any_eq_true']
    exact ⟨x, h, beq_self_eq_true x⟩
  obtain ⟨i, hi⟩ := Option.isSome_iff_exists.mp hfound
  obtain ⟨hlt, hx, -⟩ := Array.findIdx?_eq_some_iff_getElem.mp hi
  have hlast : a.size - 1 < a.size := by omega
  unfold swapErase
  simp only [hi]
  have hswap : a.swapIfInBounds i (a.size - 1) = a.swap i (a.size - 1) hlt hlast := by
    rw [Array.swapIfInBounds_def, dif_pos hlt, dif_pos hlast]
  have hsize : (a.swap i (a.size - 1) hlt hlast).size ≠ 0 := by
    rw [Array.size_swap]
    omega
  have hpush := Array.eq_push_pop_back!_of_size_ne_zero hsize
  have hback : (a.swap i (a.size - 1) hlt hlast).back! = x := by
    rw [← beq_iff_eq.mp hx]
    simp [Array.back!, hlast]
  rw [hswap]
  have hperm := (Array.perm_iff_toList_perm.mp (Array.swap_perm hlt hlast)).symm
  rw [hpush, hback, Array.toList_push] at hperm
  exact hperm.trans (List.perm_append_singleton x _)

theorem count_swapErase (a : Array NodeId) (x u : NodeId) :
    (swapErase a x).count u = a.count u - if x = u then 1 else 0 := by
  by_cases hx : x ∈ a
  · have hcount := (perm_swapErase hx).count_eq u
    rw [List.count_cons, Array.count_toList, Array.count_toList] at hcount
    simp only [beq_iff_eq] at hcount
    omega
  · have hnone : a.findIdx? (· == x) = none := by
      rw [Array.findIdx?_eq_none_iff]
      intro y hy
      exact beq_false_of_ne fun h => hx (h ▸ hy)
    have hsame : swapErase a x = a := by
      simp only [swapErase, hnone]
    rw [hsame]
    split_ifs with hu
    · rw [← hu, Array.count_eq_zero.mpr hx]
    · rfl

namespace Graph

variable {g g' : Graph} {n m d u : NodeId} {e : Edge}

@[simp] theorem size_modifyNode (g : Graph) (n : NodeId) (f : Node → Node) :
    (g.modifyNode n f).size = g.size := Array.size_modify ..

theorem node_modifyNode (g : Graph) (n m : NodeId) (f : Node → Node) :
    (g.modifyNode n f).node m = if n = m ∧ n < g.size then f (g.node m) else g.node m :=
  getD_modify ..

@[simp] theorem usesOf_modifyNode (g : Graph) (n d : NodeId) (f : Node → Node) :
    (g.modifyNode n f).usesOf d = g.usesOf d := rfl

theorem field_modifyNode {α : Type} {field : Node → α} {f : Node → Node}
    (hf : ∀ x, field (f x) = field x) (g : Graph) (n m : NodeId) :
    field ((g.modifyNode n f).node m) = field (g.node m) := by
  rw [node_modifyNode]
  split_ifs
  · exact hf _
  · rfl

@[simp] theorem node_addUse (g : Graph) (e : Edge) (n m : NodeId) :
    (g.addUse e n).node m = g.node m := by
  cases e <;> rfl

@[simp] theorem size_addUse (g : Graph) (e : Edge) (n : NodeId) : (g.addUse e n).size = g.size := by
  cases e <;> rfl

@[simp] theorem node_removeUse (g : Graph) (e : Edge) (n m : NodeId) :
    (g.removeUse e n).node m = g.node m := by
  cases e <;> rfl

@[simp] theorem size_removeUse (g : Graph) (e : Edge) (n : NodeId) :
    (g.removeUse e n).size = g.size := by
  cases e <;> rfl

theorem count_usesOf_addUse (g : Graph) (e : Edge) (n d u : NodeId) :
    ((g.addUse e n).usesOf d).count u =
      (g.usesOf d).count u + if e = some d ∧ n = u then 1 else 0 := by
  cases e with
  | none => simp [addUse]
  | some c =>
    show ((g.uses.modify c (·.push n)).get d).count u = _
    rw [SideTable.get_modify]
    by_cases hc : c = d
    · simp [hc, Array.count_push, usesOf]
    · simp [hc, usesOf]

theorem count_usesOf_removeUse (g : Graph) (e : Edge) (n d u : NodeId) :
    ((g.removeUse e n).usesOf d).count u =
      (g.usesOf d).count u - if e = some d ∧ n = u then 1 else 0 := by
  cases e with
  | none => simp [removeUse]
  | some c =>
    show ((g.uses.modify c (swapErase · n)).get d).count u = _
    rw [SideTable.get_modify]
    by_cases hc : c = d
    · simp [hc, count_swapErase, usesOf]
    · simp [hc, usesOf]

/-- The same nodes with the same inputs and uses. -/
structure SameLinks (g g' : Graph) : Prop where
  size : g'.size = g.size
  inputs : ∀ n, g'.inputs n = g.inputs n
  isDead : ∀ n, g'.isDead n = g.isDead n
  usesOf : ∀ n, g'.usesOf n = g.usesOf n

namespace SameLinks

theorem refl (g : Graph) : g.SameLinks g := ⟨rfl, fun _ => rfl, fun _ => rfl, fun _ => rfl⟩

theorem trans {g'' : Graph} (h : g.SameLinks g') (h' : g'.SameLinks g'') : g.SameLinks g'' :=
  ⟨h'.size.trans h.size, fun n => (h'.inputs n).trans (h.inputs n),
    fun n => (h'.isDead n).trans (h.isDead n), fun n => (h'.usesOf n).trans (h.usesOf n)⟩

theorem mem_live (h : g.SameLinks g') : n ∈ g'.live ↔ n ∈ g.live := by
  rw [Graph.mem_live, Graph.mem_live, h.size, h.isDead]

theorem modifyNode {f : Node → Node} (hinputs : ∀ x, (f x).inputs = x.inputs)
    (hdead : ∀ x, (f x).dead = x.dead) (g : Graph) (n : NodeId) :
    g.SameLinks (g.modifyNode n f) :=
  ⟨size_modifyNode .., field_modifyNode hinputs g n, field_modifyNode hdead g n, fun _ => rfl⟩

theorem unnumber (g : Graph) (n : NodeId) : g.SameLinks (g.unnumber n) := by
  unfold Graph.unnumber
  dsimp only
  have hflag := modifyNode (f := ({ · with numbered := false })) (fun _ => rfl) (fun _ => rfl) g n
  split_ifs
  · exact hflag.trans ⟨rfl, fun _ => rfl, fun _ => rfl, fun _ => rfl⟩
  · exact hflag
  · exact refl g

theorem number (g : Graph) (n : NodeId) : g.SameLinks (g.number n) := by
  unfold Graph.number
  dsimp only
  split_ifs
  · have hentry : g.SameLinks { g with numbers := g.numbers.insert (g.node n).key n } :=
      ⟨rfl, fun _ => rfl, fun _ => rfl, fun _ => rfl⟩
    exact hentry.trans (modifyNode (f := ({ · with numbered := true })) (fun _ => rfl)
      (fun _ => rfl) _ n)
  · exact refl g

end SameLinks

theorem sameLinks_setTy (g : Graph) (n : NodeId) (t : Ty) : g.SameLinks (g.setTy n t) :=
  .modifyNode (f := ({ · with ty := t })) (fun _ => rfl) (fun _ => rfl) g n

/-- Every edge stands in the use list of the node it leads to. -/
def Mirror (g : Graph) : Prop := ∀ d u, (g.usesOf d).count u = (g.inputs u).count (some d)

theorem Mirror.mem_usesOf_iff (h : g.Mirror) : u ∈ g.usesOf d ↔ some d ∈ g.inputs u := by
  rw [← Array.count_pos_iff, ← Array.count_pos_iff, h]

theorem Mirror.congr (h : g.Mirror) (hsame : g.SameLinks g') : g'.Mirror := by
  intro d u
  rw [hsame.usesOf, hsame.inputs]
  exact h d u

/-- Node `n` has the inputs `xs`, and stands in the use lists accordingly. -/
structure Relinked (n : NodeId) (xs : Array Edge) (g g' : Graph) : Prop where
  size : g'.size = g.size
  isDead : ∀ m, g'.isDead m = g.isDead m
  inputs : ∀ m, g'.inputs m = if n = m then xs else g.inputs m
  count : ∀ d u, (g'.usesOf d).count u =
    if n = u then xs.count (some d) else (g.usesOf d).count u

namespace Relinked

variable {xs : Array Edge}

theorem mirror (hr : Relinked n xs g g') (h : g.Mirror) : g'.Mirror := by
  intro d u
  rw [hr.count, hr.inputs]
  split_ifs
  · rfl
  · exact h d u

theorem mem_live (hr : Relinked n xs g g') : m ∈ g'.live ↔ m ∈ g.live := by
  rw [Graph.mem_live, Graph.mem_live, hr.size, hr.isDead]

theorem of_modify {f : Array Edge → Array Edge} (hrange : g.size ≤ n → f #[] = #[])
    (hsize : g'.size = g.size)
    (hnode : ∀ m, g'.node m = ((g.unnumber n).modifyNode n
      fun x => { x with inputs := f x.inputs }).node m)
    (huses : ∀ d, (g'.usesOf d).count n = (f (g.inputs n)).count (some d))
    (hothers : ∀ d u, n ≠ u → (g'.usesOf d).count u = (g.usesOf d).count u) :
    Relinked n (f (g.inputs n)) g g' := by
  have hsame := SameLinks.unnumber g n
  refine ⟨hsize, fun m => ?_, fun m => ?_, fun d u => ?_⟩
  · rw [← hsame.isDead, Graph.isDead, hnode]
    exact field_modifyNode (f := fun x => { x with inputs := f x.inputs }) (fun _ => rfl) _ n m
  · rw [Graph.inputs, hnode, node_modifyNode, hsame.size]
    by_cases hm : n = m
    · subst hm
      rw [if_pos rfl]
      split_ifs with hlt
      · exact congrArg f (hsame.inputs n)
      · have hbeyond : g.size ≤ n := Nat.le_of_not_lt fun h => hlt ⟨rfl, h⟩
        rw [inputs_of_size_le hbeyond, hrange hbeyond]
        exact (hsame.inputs n).trans (inputs_of_size_le hbeyond)
    · rw [if_neg hm, if_neg fun h => hm h.1]
      exact hsame.inputs m
  · split_ifs with hu
    · exact hu ▸ huses d
    · exact hothers d u hu

end Relinked

theorem relinked_setInput (h : g.Mirror) {i : Nat} (hi : i < (g.inputs n).size) (e : Edge) :
    Relinked n ((g.inputs n).setIfInBounds i e) g (g.setInput n i e) := by
  have hold : g.input n i = (g.inputs n)[i] := by
    rw [input_eq_getElem?, Array.getElem?_eq_getElem hi]
    rfl
  have hset : (g.inputs n).setIfInBounds i e = (g.inputs n).set i e hi := dif_pos hi
  unfold Graph.setInput
  dsimp only
  split_ifs with heq
  · have hsame : (g.inputs n).setIfInBounds i e = g.inputs n := by
      rw [hset, ← heq, hold, Array.set_getElem_self]
    refine ⟨rfl, fun _ => rfl, fun m => ?_, fun d u => ?_⟩
    · rw [hsame]
      split_ifs with hm
      · rw [hm]
      · rfl
    · rw [hsame, h]
      split_ifs with hu
      · rw [hu]
      · rfl
  · refine .of_modify (f := (·.setIfInBounds i e)) (fun _ => Array.setIfInBounds_empty ..) ?_
      (fun m => ?_) (fun d => ?_) fun d u hu => ?_
    · rw [size_addUse, size_modifyNode, size_removeUse, (SameLinks.unnumber g n).size]
    · rw [node_addUse, node_modifyNode, node_modifyNode, size_removeUse, node_removeUse]
    · rw [count_usesOf_addUse, usesOf_modifyNode, count_usesOf_removeUse,
        (SameLinks.unnumber g n).usesOf, hset, Array.count_set, hold, h]
      simp only [and_true, beq_iff_eq]
    · rw [count_usesOf_addUse, usesOf_modifyNode, count_usesOf_removeUse,
        (SameLinks.unnumber g n).usesOf, if_neg fun h => hu h.2, if_neg fun h => hu h.2]
      rfl

theorem relinked_pushInput (h : g.Mirror) (hn : n < g.size) (e : Edge) :
    Relinked n ((g.inputs n).push e) g (g.pushInput n e) := by
  refine .of_modify (f := (·.push e)) (fun hle => absurd hn (Nat.not_lt_of_le hle)) ?_
    (fun m => ?_) (fun d => ?_) fun d u hu => ?_
  · rw [Graph.pushInput, size_addUse, size_modifyNode, (SameLinks.unnumber g n).size]
  · rw [Graph.pushInput, node_addUse]
  · rw [Graph.pushInput, count_usesOf_addUse, usesOf_modifyNode, (SameLinks.unnumber g n).usesOf,
      h, Array.count_push]
    simp only [and_true, beq_iff_eq]
  · rw [Graph.pushInput, count_usesOf_addUse, usesOf_modifyNode, (SameLinks.unnumber g n).usesOf,
      if_neg fun h => hu h.2, Nat.add_zero]

theorem toList_eraseIdxIfInBounds (xs : Array Edge) (i : Nat) :
    (xs.eraseIdxIfInBounds i).toList = xs.toList.eraseIdx i := by
  unfold Array.eraseIdxIfInBounds
  split_ifs with hi
  · exact Array.toList_eraseIdx ..
  · exact (List.eraseIdx_of_length_le (by simpa using hi)).symm

theorem count_eraseIdxIfInBounds (xs : Array Edge) (i : Nat) (d : NodeId) :
    (xs.eraseIdxIfInBounds i).count (some d) =
      xs.count (some d) - if (xs[i]?).join = some d then 1 else 0 := by
  rw [← Array.count_toList, ← Array.count_toList, toList_eraseIdxIfInBounds]
  by_cases hi : i < xs.size
  · have hcount := (List.getElem_cons_eraseIdx_perm (l := xs.toList) (by simpa using hi)).count_eq
      (some d)
    rw [List.count_cons] at hcount
    simp only [beq_iff_eq, Array.getElem_toList] at hcount
    rw [Array.getElem?_eq_getElem hi, Option.join_some]
    omega
  · rw [List.eraseIdx_of_length_le (by simpa using hi), Array.getElem?_eq_none (Nat.le_of_not_lt hi)]
    rfl

theorem relinked_removeInput (h : g.Mirror) (n : NodeId) (i : Nat) :
    Relinked n ((g.inputs n).eraseIdxIfInBounds i) g (g.removeInput n i) := by
  have hold : (g.unnumber n).input n i = ((g.inputs n)[i]?).join := by
    rw [input_eq_getElem?, (SameLinks.unnumber g n).inputs]
  refine .of_modify (f := (·.eraseIdxIfInBounds i)) (fun _ => ?_) ?_ (fun m => ?_) (fun d => ?_)
    fun d u hu => ?_
  · rfl
  · rw [Graph.removeInput, size_removeUse, size_modifyNode, (SameLinks.unnumber g n).size]
  · rw [Graph.removeInput, node_removeUse]
  · rw [Graph.removeInput, count_usesOf_removeUse, usesOf_modifyNode,
      (SameLinks.unnumber g n).usesOf, h, hold, count_eraseIdxIfInBounds]
    simp only [and_true]
  · rw [Graph.removeInput, count_usesOf_removeUse, usesOf_modifyNode,
      (SameLinks.unnumber g n).usesOf, if_neg fun h => hu h.2]
    rfl

theorem perm_swapIfInBounds (xs : Array Edge) (i j : Nat) : (xs.swapIfInBounds i j).Perm xs := by
  rw [Array.swapIfInBounds_def]
  split_ifs
  · exact Array.swap_perm ..
  all_goals exact .refl _

theorem relinked_swapInputs (h : g.Mirror) (n : NodeId) (i j : Nat) :
    Relinked n ((g.inputs n).swapIfInBounds i j) g (g.swapInputs n i j) := by
  have hlist := Array.perm_iff_toList_perm.mp (perm_swapIfInBounds (g.inputs n) i j)
  refine .of_modify (f := (·.swapIfInBounds i j)) (fun _ => rfl) ?_ (fun m => rfl)
    (fun d => ?_) fun d u hu => ?_
  · rw [Graph.swapInputs, size_modifyNode, (SameLinks.unnumber g n).size]
  · rw [Graph.swapInputs, usesOf_modifyNode, (SameLinks.unnumber g n).usesOf, h,
      ← Array.count_toList, ← Array.count_toList]
    exact (hlist.count_eq _).symm
  · rw [Graph.swapInputs, usesOf_modifyNode, (SameLinks.unnumber g n).usesOf]

theorem count_usesOf_foldl_addUse (es : List Edge) (g : Graph) (n d u : NodeId) :
    ((es.foldl (fun g e => g.addUse e n) g).usesOf d).count u =
      (g.usesOf d).count u + if n = u then es.count (some d) else 0 := by
  induction es generalizing g with
  | nil => simp
  | cons e es ih =>
    rw [List.foldl_cons, ih, count_usesOf_addUse, List.count_cons]
    by_cases hu : n = u
    · simp only [hu, and_true, if_true, beq_iff_eq]
      omega
    · simp [hu]

theorem node_foldl_addUse (es : List Edge) (g : Graph) (n m : NodeId) :
    (es.foldl (fun g e => g.addUse e n) g).node m = g.node m := by
  induction es generalizing g with
  | nil => rfl
  | cons e es ih => rw [List.foldl_cons, ih, node_addUse]

theorem size_foldl_addUse (es : List Edge) (g : Graph) (n : NodeId) :
    (es.foldl (fun g e => g.addUse e n) g).size = g.size := by
  induction es generalizing g with
  | nil => rfl
  | cons e es ih => rw [List.foldl_cons, ih, size_addUse]

theorem add_spec (g : Graph) (op : Op) (xs : Array Edge) (decl : Ty) :
    (g.add op xs decl).2.size = g.size + 1 ∧
      (∀ m, (g.add op xs decl).2.node m =
        if g.size = m then { op, inputs := xs, decl } else g.node m) ∧
      ∀ d u, ((g.add op xs decl).2.usesOf d).count u =
        (g.usesOf d).count u + if g.size = u then xs.count (some d) else 0 := by
  unfold add
  dsimp only
  rw [← Array.foldl_toList]
  refine ⟨?_, fun m => ?_, fun d u => ?_⟩
  · rw [size_foldl_addUse]
    exact Array.size_push ..
  · rw [node_foldl_addUse, node, node, Array.getD_eq_getD_getElem?, Array.getElem?_push,
      Array.getD_eq_getD_getElem?]
    by_cases hm : g.size = m
    · rw [if_pos hm, if_pos (show m = g.nodes.size from hm.symm)]
      rfl
    · rw [if_neg hm, if_neg (show ¬ m = g.nodes.size from fun h => hm h.symm)]
  · rw [count_usesOf_foldl_addUse, Array.count_toList]
    rfl

theorem Mirror.add (h : g.Mirror) (op : Op) (xs : Array Edge) (decl : Ty) :
    (g.add op xs decl).2.Mirror := by
  obtain ⟨-, hnode, huses⟩ := g.add_spec op xs decl
  intro d u
  rw [huses, inputs, hnode, h]
  by_cases hu : g.size = u
  · rw [if_pos hu, if_pos hu, ← hu, inputs_of_size_le le_rfl, Array.count_empty, Nat.zero_add]
  · rw [if_neg hu, if_neg hu]
    rfl

theorem Mirror.const (h : g.Mirror) (t : Ty) : (g.const t).2.Mirror := by
  unfold Graph.const
  dsimp only
  split
  · exact h
  · have htyped := SameLinks.modifyNode (f := fun x => { x with ty := t, numbered := true })
      (fun _ => rfl) (fun _ => rfl) (g.add (.const t) #[]).2 (g.add (.const t) #[]).1
    exact (h.add (.const t) #[] .top).congr
      (htyped.trans ⟨rfl, fun _ => rfl, fun _ => rfl, fun _ => rfl⟩)

def redirect (old : NodeId) (new : Edge) (e : Edge) : Edge := if e = some old then new else e

theorem redirect_redirect {old : NodeId} {new : Edge} (hne : new ≠ some old) (e : Edge) :
    redirect old new (redirect old new e) = redirect old new e := by
  unfold redirect
  split_ifs <;> simp_all

theorem count_map_redirect {old : NodeId} {new : Edge} (hne : new ≠ some old) (d : NodeId)
    (xs : List Edge) : (xs.map (redirect old new)).count (some d) =
      (if d = old then 0 else xs.count (some d)) + if new = some d then xs.count (some old) else 0 := by
  induction xs with
  | nil => simp
  | cons x xs ih =>
    rw [List.map_cons, List.count_cons, ih, List.count_cons, List.count_cons]
    simp only [redirect, beq_iff_eq]
    by_cases hx : x = some old
    · have hd : x = some d ↔ d = old := by rw [hx, Option.some.injEq, eq_comm]
      by_cases hdold : d = old
      · simp [hx, hdold, hne]
      · simp only [hx, if_true, if_neg hdold, Option.some.injEq, if_neg (Ne.symm hdold)]
        split_ifs <;> omega
    · simp only [if_neg hx, Nat.add_zero]
      by_cases hdold : d = old
      · simp [hx, hdold, hne]
      · simp only [if_neg hdold]
        omega

section Redirection

variable {old : NodeId} {new : Edge}

def redirectAll (g : Graph) (old : NodeId) (new : Edge) (users : List NodeId) : Graph :=
  users.foldl (fun g u => (g.unnumber u).modifyNode u
    fun x => { x with inputs := x.inputs.map (redirect old new) }) g

theorem inputs_redirectAll (hne : new ≠ some old) (us : List NodeId) (g : Graph) (m : NodeId) :
    (g.redirectAll old new us).inputs m =
      if m ∈ us then (g.inputs m).map (redirect old new) else g.inputs m := by
  induction us generalizing g with
  | nil => rw [redirectAll, List.foldl_nil, if_neg List.not_mem_nil]
  | cons u us ih =>
    have hhead : ((g.unnumber u).modifyNode u
        fun x => { x with inputs := x.inputs.map (redirect old new) }).inputs m =
        if u = m then (g.inputs m).map (redirect old new) else g.inputs m := by
      rw [inputs, node_modifyNode, (SameLinks.unnumber g u).size]
      by_cases hu : u = m
      · rw [if_pos hu]
        split_ifs with hlt
        · exact congrArg (Array.map _) ((SameLinks.unnumber g u).inputs m)
        · have hbeyond : g.size ≤ m := Nat.le_of_not_lt fun h => hlt ⟨hu, hu ▸ h⟩
          rw [inputs_of_size_le hbeyond, Array.map_empty]
          exact ((SameLinks.unnumber g u).inputs m).trans (inputs_of_size_le hbeyond)
      · rw [if_neg hu, if_neg fun h => hu h.1]
        exact (SameLinks.unnumber g u).inputs m
    refine (ih _).trans ?_
    rw [hhead]
    by_cases hu : u = m
    · have hmem : m ∈ u :: us := hu ▸ List.mem_cons_self
      rw [if_pos hu, if_pos hmem, Array.map_map]
      split_ifs
      · exact congrArg (Array.map · (g.inputs m)) (funext (redirect_redirect hne))
      · rfl
    · rw [if_neg hu]
      exact if_congr (List.mem_cons.trans (or_iff_right (Ne.symm hu))).symm rfl rfl

theorem redirectAll_spec (old : NodeId) (new : Edge) (us : List NodeId) (g : Graph) :
    (g.redirectAll old new us).size = g.size ∧
      (∀ m, (g.redirectAll old new us).isDead m = g.isDead m) ∧
      ∀ m, (g.redirectAll old new us).usesOf m = g.usesOf m := by
  induction us generalizing g with
  | nil => exact ⟨rfl, fun _ => rfl, fun _ => rfl⟩
  | cons u us ih =>
    have hsame := SameLinks.unnumber g u
    let redirected (x : Node) : Node := { x with inputs := x.inputs.map (redirect old new) }
    obtain ⟨hsize, hdead, huses⟩ := ih ((g.unnumber u).modifyNode u redirected)
    refine ⟨hsize.trans ?_, fun m => (hdead m).trans ?_, fun m => (huses m).trans ?_⟩
    · rw [size_modifyNode, hsame.size]
    · exact (field_modifyNode (f := redirected) (fun _ => rfl) _ u m).trans (hsame.isDead m)
    · exact hsame.usesOf m

theorem replaceAllUses_of_ne (hne : new ≠ some old) : g.replaceAllUses old new =
    let g' := redirectAll { g with uses := g.uses.set old #[] } old new (g.usesOf old).toList
    new.elim g' fun m => { g' with uses := g'.uses.modify m (· ++ g.usesOf old) } := by
  unfold Graph.replaceAllUses
  dsimp only
  rw [if_neg hne, ← Array.foldl_toList]
  cases new <;> rfl

theorem exists_redirected (g : Graph) (hne : new ≠ some old) : ∃ r uses,
    redirectAll { g with uses := g.uses.set old #[] } old new (g.usesOf old).toList = r ∧
      g.replaceAllUses old new = { r with uses } := by
  rw [replaceAllUses_of_ne hne]
  cases new with
  | none => exact ⟨_, _, rfl, rfl⟩
  | some m => exact ⟨_, _, rfl, rfl⟩

theorem replaceAllUses_spec (hne : new ≠ some old) :
    (g.replaceAllUses old new).size = g.size ∧
      (∀ m, (g.replaceAllUses old new).isDead m = g.isDead m) ∧
      (∀ m, (g.replaceAllUses old new).inputs m =
        if m ∈ g.usesOf old then (g.inputs m).map (redirect old new) else g.inputs m) ∧
      ∀ d, (g.replaceAllUses old new).usesOf d =
        (if old = d then #[] else g.usesOf d) ++ if new = some d then g.usesOf old else #[] := by
  have hinputs := inputs_redirectAll hne (g.usesOf old).toList { g with uses := g.uses.set old #[] }
  simp only [Array.mem_toList_iff] at hinputs
  obtain ⟨hsize, hdead, huses⟩ := redirectAll_spec old new (g.usesOf old).toList
    { g with uses := g.uses.set old #[] }
  have hcleared (d : NodeId) : usesOf { g with uses := g.uses.set old #[] } d =
      if old = d then #[] else g.usesOf d := SideTable.get_set ..
  rw [replaceAllUses_of_ne hne]
  generalize redirectAll _ old new (g.usesOf old).toList = r at hsize hdead huses hinputs ⊢
  cases new with
  | none =>
    refine ⟨hsize, hdead, hinputs, fun d => ((huses d).trans (hcleared d)).trans ?_⟩
    have hnone : none ≠ some d := Option.some_ne_none d |>.symm
    rw [if_neg hnone, Array.append_empty]
  | some m =>
    refine ⟨hsize, hdead, hinputs, fun d => (SideTable.get_modify ..).trans ?_⟩
    rw [← hcleared, ← huses, ite_congr (Option.some.injEq m d) (fun _ => rfl) (fun _ => rfl)]
    split_ifs
    · rfl
    · exact Array.append_empty.symm

theorem inputs_replaceAllUses (h : g.Mirror) (hne : new ≠ some old) (m : NodeId) :
    (g.replaceAllUses old new).inputs m = (g.inputs m).map (redirect old new) := by
  rw [(replaceAllUses_spec hne).2.2.1]
  split_ifs with hm
  · rfl
  · have hsame : (g.inputs m).map (redirect old new) = (g.inputs m).map id := by
      refine Array.map_congr_left fun e he => if_neg fun heq => hm ?_
      rw [h.mem_usesOf_iff, ← heq]
      exact he
    rw [hsame, Array.map_id]

theorem Mirror.replaceAllUses (h : g.Mirror) (old : NodeId) (new : Edge) :
    (g.replaceAllUses old new).Mirror := by
  by_cases hne : new = some old
  · rw [Graph.replaceAllUses, if_pos hne]
    exact h
  intro d u
  have hmap : ((g.inputs u).map (redirect old new)).count (some d) =
      ((g.inputs u).toList.map (redirect old new)).count (some d) := by
    rw [← Array.count_toList, Array.toList_map]
  rw [(replaceAllUses_spec hne).2.2.2, inputs_replaceAllUses h hne, Array.count_append, hmap,
    count_map_redirect hne, Array.count_toList, Array.count_toList]
  congr 1
  · split_ifs with hd hd' hd'
    · exact Array.count_empty
    · exact absurd hd.symm hd'
    · exact absurd hd'.symm hd
    · exact h d u
  · split_ifs
    · exact h old u
    · exact Array.count_empty

theorem mem_inputs_replaceAllUses (h : g.Mirror) {e : Edge}
    (he : e ∈ (g.replaceAllUses old new).inputs m) : e ∈ g.inputs m ∨ e = new ∧ some old ∈ g.inputs m := by
  by_cases hne : new = some old
  · rw [Graph.replaceAllUses, if_pos hne] at he
    exact .inl he
  rw [inputs_replaceAllUses h hne, Array.mem_map] at he
  obtain ⟨e', he', heq⟩ := he
  unfold redirect at heq
  split_ifs at heq with hold
  · exact .inr ⟨heq.symm, hold ▸ he'⟩
  · exact .inl (heq ▸ he')

end Redirection

theorem count_usesOf_foldl_removeUse (es : List Edge) (g : Graph) (n d u : NodeId) :
    ((es.foldl (fun g e => g.removeUse e n) g).usesOf d).count u =
      (g.usesOf d).count u - if n = u then es.count (some d) else 0 := by
  induction es generalizing g with
  | nil => simp
  | cons e es ih =>
    rw [List.foldl_cons, ih, count_usesOf_removeUse, List.count_cons]
    by_cases hu : n = u
    · simp only [hu, and_true, if_true, beq_iff_eq]
      omega
    · simp [hu]

theorem node_foldl_removeUse (es : List Edge) (g : Graph) (n m : NodeId) :
    (es.foldl (fun g e => g.removeUse e n) g).node m = g.node m := by
  induction es generalizing g with
  | nil => rfl
  | cons e es ih => rw [List.foldl_cons, ih, node_removeUse]

theorem size_foldl_removeUse (es : List Edge) (g : Graph) (n : NodeId) :
    (es.foldl (fun g e => g.removeUse e n) g).size = g.size := by
  induction es generalizing g with
  | nil => rfl
  | cons e es ih => rw [List.foldl_cons, ih, size_removeUse]

theorem bury_snd (g : Graph) (n : NodeId) : (g.bury n).2 =
    (g.inputs n).toList.foldl (fun g e => g.removeUse e n)
      ((g.unnumber n).modifyNode n ({ · with dead := true, inputs := #[] })) := by
  unfold bury
  dsimp only
  rw [← Array.foldl_toList]
  refine (List.foldl_hom Prod.snd fun s e => ?_).symm
  cases e with
  | none => rfl
  | some d =>
    dsimp only
    split_ifs <;> rfl

/-- Node `n` is dead, has no inputs and stands in no use list. -/
structure Buried (n : NodeId) (g g' : Graph) : Prop where
  size : g'.size = g.size
  isDead : ∀ m, g'.isDead m = if n = m ∧ n < g.size then true else g.isDead m
  inputs : ∀ m, g'.inputs m = if n = m then #[] else g.inputs m
  count : ∀ d u, (g'.usesOf d).count u = if n = u then 0 else (g.usesOf d).count u

theorem buried_bury (h : g.Mirror) (n : NodeId) : Buried n g (g.bury n).2 := by
  have hsame := SameLinks.unnumber g n
  have hnode (m : NodeId) : (g.bury n).2.node m = ((g.unnumber n).modifyNode n
      ({ · with dead := true, inputs := #[] })).node m := by
    rw [bury_snd, node_foldl_removeUse]
  refine ⟨?_, fun m => ?_, fun m => ?_, fun d u => ?_⟩
  · rw [bury_snd, size_foldl_removeUse, size_modifyNode, hsame.size]
  · rw [isDead, hnode, node_modifyNode, hsame.size]
    split_ifs
    · rfl
    · exact hsame.isDead m
  · rw [inputs, hnode, node_modifyNode, hsame.size]
    by_cases hm : n = m
    · rw [if_pos hm]
      split_ifs with hlt
      · rfl
      · rw [← inputs, hsame.inputs]
        exact inputs_of_size_le (Nat.le_of_not_lt fun h => hlt ⟨hm, hm ▸ h⟩)
    · rw [if_neg hm, if_neg fun h => hm h.1]
      exact hsame.inputs m
  · rw [bury_snd, count_usesOf_foldl_removeUse, usesOf_modifyNode, hsame.usesOf, Array.count_toList]
    split_ifs with hu
    · rw [← hu, h, Nat.sub_self]
    · exact Nat.sub_zero _

theorem Buried.mirror (hb : Buried n g g') (h : g.Mirror) : g'.Mirror := by
  intro d u
  rw [hb.count, hb.inputs]
  split_ifs
  · rfl
  · exact h d u

theorem not_isKept_of_dropWhile {keep : Edge} {work rest : List NodeId}
    (h : work.dropWhile (g.isKept keep) = n :: rest) :
    isRoot n = false ∧ g.usesOf n = #[] := by
  have hhead := List.head?_dropWhile_not (g.isKept keep) work
  rw [h] at hhead
  have hkept : g.isKept keep n = false := by simpa using hhead
  simp only [isKept, Bool.or_eq_false_iff, bne_eq_false_iff_eq] at hkept
  exact ⟨hkept.1.2, Array.size_eq_zero_iff.mp hkept.2⟩

def markDead (g : Graph) (ns : List NodeId) : Graph :=
  ns.foldl (fun g n => (g.unnumber n).modifyNode n ({ · with dead := true })) g

theorem markDead_spec (ns : List NodeId) (g : Graph) (hns : ∀ n ∈ ns, n < g.size) :
    (g.markDead ns).size = g.size ∧ (∀ m, (g.markDead ns).inputs m = g.inputs m) ∧
      (∀ m, (g.markDead ns).usesOf m = g.usesOf m) ∧
      ∀ m, (g.markDead ns).isDead m = (g.isDead m || ns.contains m) := by
  induction ns generalizing g with
  | nil => exact ⟨rfl, fun _ => rfl, fun _ => rfl, fun m => (Bool.or_false _).symm⟩
  | cons n ns ih =>
    rw [List.forall_mem_cons] at hns
    have hsame := SameLinks.unnumber g n
    let marked := (g.unnumber n).modifyNode n ({ · with dead := true })
    have hmarked : marked.size = g.size := (size_modifyNode ..).trans hsame.size
    obtain ⟨hsize, hinputs, huses, hdead⟩ := ih marked fun m hm => hmarked ▸ hns.2 m hm
    refine ⟨hsize.trans hmarked, fun m => (hinputs m).trans ?_,
      fun m => (huses m).trans (hsame.usesOf m), fun m => (hdead m).trans ?_⟩
    · exact (field_modifyNode (f := ({ · with dead := true })) (fun _ => rfl) _ n m).trans
        (hsame.inputs m)
    · have hm : marked.isDead m = (g.isDead m || m == n) := by
        rw [isDead, node_modifyNode, hsame.size]
        by_cases hm : n = m
        · rw [if_pos ⟨hm, hns.1⟩]
          simp [hm]
        · rw [if_neg fun h => hm h.1, beq_false_of_ne (Ne.symm hm), Bool.or_false]
          exact hsame.isDead m
      rw [hm, List.contains_cons, Bool.or_assoc]

theorem removeLiveUses_spec (es : List Edge) (g : Graph) (n : NodeId) :
    let g' := es.foldl (fun g e => if e.any (!g.isDead ·) then g.removeUse e n else g) g
    g'.size = g.size ∧ (∀ m, g'.node m = g.node m) ∧ ∀ d u, (g'.usesOf d).count u =
      (g.usesOf d).count u - if n = u ∧ g.isDead d = false then es.count (some d) else 0 := by
  induction es generalizing g with
  | nil => exact ⟨rfl, fun _ => rfl, fun d u => by simp⟩
  | cons e es ih =>
    rw [List.foldl_cons]
    by_cases he : e.any (!g.isDead ·)
    · rw [if_pos he]
      obtain ⟨hsize, hnode, huses⟩ := ih (g.removeUse e n)
      have hdead (m : NodeId) : (g.removeUse e n).isDead m = g.isDead m :=
        congrArg Node.dead (node_removeUse ..)
      refine ⟨hsize.trans (size_removeUse ..), fun m => (hnode m).trans (node_removeUse ..),
        fun d u => (huses d u).trans ?_⟩
      rw [count_usesOf_removeUse, hdead, List.count_cons]
      obtain ⟨c, rfl⟩ := Option.isSome_iff_exists.mp (Option.isSome_of_any he)
      simp only [beq_iff_eq, Option.some.injEq]
      by_cases hd : c = d
      · subst hd
        have hc : g.isDead c = false := by simpa using he
        simp only [hc, and_true, true_and, if_true]
        split_ifs <;> omega
      · simp only [hd, false_and, if_false, Nat.sub_zero, Nat.add_zero]
    · rw [if_neg he]
      obtain ⟨hsize, hnode, huses⟩ := ih g
      refine ⟨hsize, hnode, fun d u => (huses d u).trans ?_⟩
      rw [List.count_cons]
      split_ifs with hu hd
      · rw [beq_iff_eq] at hd
        subst hd
        simp [hu.2] at he
      · rfl
      · rfl

/-- Cutting a node off changes no node but by emptying its inputs. -/
theorem node_detach (g : Graph) (n m : NodeId) :
    (g.detach n).node m = (g.modifyNode n ({ · with inputs := #[] })).node m := by
  unfold detach
  dsimp only
  rw [← Array.foldl_toList]
  exact (removeLiveUses_spec (g.inputs n).toList (g.modifyNode n _) n).2.1 m

theorem detach_spec (g : Graph) (n : NodeId) :
    (g.detach n).size = g.size ∧ (∀ m, (g.detach n).isDead m = g.isDead m) ∧
      (∀ m, (g.detach n).inputs m = if n = m then #[] else g.inputs m) ∧
      ∀ d u, ((g.detach n).usesOf d).count u =
        if n = d then 0 else (g.usesOf d).count u -
          if n = u ∧ g.isDead d = false then (g.inputs n).count (some d) else 0 := by
  let cut (x : Node) : Node := { x with inputs := #[] }
  have hdead (m : NodeId) : (g.modifyNode n cut).isDead m = g.isDead m :=
    field_modifyNode (f := cut) (fun _ => rfl) g n m
  have hclear (h : Graph) (d : NodeId) : usesOf { h with uses := h.uses.set n #[] } d =
      if n = d then #[] else h.usesOf d := SideTable.get_set ..
  unfold detach
  dsimp only
  rw [← Array.foldl_toList]
  obtain ⟨hsize, hnode, huses⟩ := removeLiveUses_spec (g.inputs n).toList (g.modifyNode n cut) n
  generalize List.foldl _ _ _ = r at hsize hnode huses ⊢
  refine ⟨hsize.trans (size_modifyNode ..), fun m => ?_, fun m => ?_, fun d u => ?_⟩
  · exact (congrArg Node.dead (hnode m)).trans (hdead m)
  · refine (congrArg Node.inputs (hnode m)).trans ?_
    rw [node_modifyNode]
    by_cases hm : n = m
    · rw [if_pos hm]
      split_ifs with hlt
      · rfl
      · exact inputs_of_size_le (Nat.le_of_not_lt fun h => hlt ⟨hm, hm ▸ h⟩)
    · rw [if_neg hm, if_neg fun h => hm h.1]
      rfl
  · rw [hclear]
    by_cases hd : n = d
    · rw [if_pos hd, if_pos hd]
      exact Array.count_empty
    · rw [if_neg hd, if_neg hd]
      refine (huses d u).trans ?_
      rw [usesOf_modifyNode, hdead, Array.count_toList]

theorem detachAll_spec (ns : List NodeId) (g : Graph) :
    let g' := ns.foldl detach g
    g'.size = g.size ∧ (∀ m, g'.isDead m = g.isDead m) ∧
      (∀ m, g'.inputs m = if m ∈ ns then #[] else g.inputs m) ∧
      ∀ d u, (g'.usesOf d).count u = if d ∈ ns then 0 else (g.usesOf d).count u -
        if u ∈ ns ∧ g.isDead d = false then (g.inputs u).count (some d) else 0 := by
  induction ns generalizing g with
  | nil => exact ⟨rfl, fun _ => rfl, fun _ => rfl, fun d u => by simp⟩
  | cons n ns ih =>
    obtain ⟨hsize, hdead, hinputs, huses⟩ := g.detach_spec n
    obtain ⟨hsize', hdead', hinputs', huses'⟩ := ih (g.detach n)
    refine ⟨hsize'.trans hsize, fun m => (hdead' m).trans (hdead m), fun m => (hinputs' m).trans ?_,
      fun d u => (huses' d u).trans ?_⟩
    · rw [hinputs]
      by_cases hm : m ∈ ns <;> by_cases hn : n = m <;> simp [hm, hn, eq_comm (a := m)]
    · rw [hdead, hinputs, huses]
      simp only [List.mem_cons, eq_comm (b := n)]
      by_cases hd : d ∈ ns
      · simp [hd]
      by_cases hnd : n = d
      · simp [hd, hnd]
      by_cases hnu : n = u
      · simp [hd, hnu]
      · simp [hd, hnd, hnu]

theorem sweep_spec (g : Graph) :
    (∀ m, m ∈ g.sweep.2.live ↔ m ∈ g.live ∧ m ∉ g.unreachable) ∧
      (∀ m, g.sweep.2.inputs m = if m ∈ g.unreachable then #[] else g.inputs m) ∧
      ∀ d u, (g.sweep.2.usesOf d).count u = if d ∈ g.unreachable then 0 else
        (g.usesOf d).count u -
          if u ∈ g.unreachable ∧ g.isDead d = false then (g.inputs u).count (some d) else 0 := by
  have hgone (m : NodeId) (hm : m ∈ g.unreachable) : m < g.size :=
    (mem_live.mp (List.mem_of_mem_filter hm)).1
  obtain ⟨hsize, hinputs, huses, hdead⟩ := markDead_spec g.unreachable g hgone
  obtain ⟨hsize', hdead', hinputs', huses'⟩ :=
    detachAll_spec g.unreachable (g.markDead g.unreachable)
  refine ⟨fun m => ?_, fun m => (hinputs' m).trans (by rw [hinputs]), fun d u => ?_⟩
  · change m ∈ (g.unreachable.foldl detach (g.markDead g.unreachable)).live ↔ _
    rw [mem_live, mem_live, hsize', hsize, hdead', hdead, Bool.or_eq_false_iff, and_assoc]
    simp
  · refine (huses' d u).trans ?_
    rw [huses, hinputs, hdead]
    by_cases hd : d ∈ g.unreachable
    · rw [if_pos hd, if_pos hd]
    · have hmark : (g.isDead d || g.unreachable.contains d) = g.isDead d := by
        rw [List.contains_eq_mem, decide_eq_false hd, Bool.or_false]
      rw [if_neg hd, if_neg hd, hmark]

end Graph

end SeaNodes
