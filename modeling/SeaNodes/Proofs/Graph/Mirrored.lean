import SeaNodes.Proofs.Graph.UseLists
import SeaNodes.Proofs.Sets

namespace SeaNodes

namespace Graph

variable {g g' : Graph} {n m d u : NodeId} {e : Edge}

/-- Use lists mirror inputs, and links are between live nodes only. -/
structure Mirrored (g : Graph) : Prop where
  mirror : g.Mirror
  user_live : ∀ u, ∀ e ∈ g.inputs u, u ∈ g.live
  input_live : ∀ u d, some d ∈ g.inputs u → d ∈ g.live
  root_live : ∀ r, isRoot r → r ∈ g.live

namespace Mirrored

theorem congr (h : g.Mirrored) (hsame : g.SameLinks g') : g'.Mirrored := by
  refine ⟨h.mirror.congr hsame, fun u e he => ?_, fun u d hd => ?_, fun r hr => ?_⟩
  · rw [hsame.inputs] at he
    exact hsame.mem_live.mpr (h.user_live u e he)
  · rw [hsame.inputs] at hd
    exact hsame.mem_live.mpr (h.input_live u d hd)
  · exact hsame.mem_live.mpr (h.root_live r hr)

theorem inputs_of_not_live (h : g.Mirrored) (hn : n ∉ g.live) : g.inputs n = #[] := by
  by_contra hne
  obtain ⟨e, he⟩ := Array.exists_mem_of_ne_empty _ hne
  exact hn (h.user_live n e he)

theorem usesOf_of_not_live (h : g.Mirrored) (hd : d ∉ g.live) : g.usesOf d = #[] := by
  by_contra hne
  obtain ⟨u, hu⟩ := Array.exists_mem_of_ne_empty _ hne
  exact hd (h.input_live u d (h.mirror.mem_usesOf_iff.mp hu))

theorem relinked {xs : Array Edge} (h : g.Mirrored) (hr : Relinked n xs g g') (hn : n ∈ g.live)
    (hxs : ∀ d, some d ∈ xs → d ∈ g.live) : g'.Mirrored := by
  refine ⟨hr.mirror h.mirror, fun u e he => ?_, fun u d hd => ?_,
    fun r hroot => hr.mem_live.mpr (h.root_live r hroot)⟩
  · rw [hr.inputs] at he
    rw [hr.mem_live]
    split_ifs at he with hu
    · exact hu ▸ hn
    · exact h.user_live u e he
  · rw [hr.inputs] at hd
    rw [hr.mem_live]
    split_ifs at hd
    · exact hxs d hd
    · exact h.input_live u d hd

theorem setInput (h : g.Mirrored) (hn : n ∈ g.live) {i : Nat} (hi : i < (g.inputs n).size)
    (he : ∀ d ∈ e, d ∈ g.live) : (g.setInput n i e).Mirrored := by
  refine h.relinked (relinked_setInput h.mirror hi e) hn fun d hd => ?_
  rw [Array.setIfInBounds, dif_pos hi] at hd
  rcases Array.mem_or_eq_of_mem_set hd with hd | hd
  · exact h.input_live n d hd
  · exact he d hd.symm

theorem pushInput (h : g.Mirrored) (hn : n ∈ g.live) (he : ∀ d ∈ e, d ∈ g.live) :
    (g.pushInput n e).Mirrored := by
  refine h.relinked (relinked_pushInput h.mirror (mem_live.mp hn).1 e) hn fun d hd => ?_
  rcases Array.mem_push.mp hd with hd | hd
  · exact h.input_live n d hd
  · exact he d hd.symm

theorem removeInput (h : g.Mirrored) (hn : n ∈ g.live) (i : Nat) : (g.removeInput n i).Mirrored := by
  refine h.relinked (relinked_removeInput h.mirror n i) hn fun d hd => ?_
  rw [← Array.mem_toList_iff, toList_eraseIdxIfInBounds] at hd
  exact h.input_live n d (Array.mem_toList_iff.mp (List.mem_of_mem_eraseIdx hd))

theorem swapInputs (h : g.Mirrored) (hn : n ∈ g.live) (i j : Nat) :
    (g.swapInputs n i j).Mirrored :=
  h.relinked (relinked_swapInputs h.mirror n i j) hn fun d hd =>
    h.input_live n d ((perm_swapIfInBounds (g.inputs n) i j).mem_iff.mp hd)

theorem setOp (h : g.Mirrored) (n : NodeId) (op : Op) : (g.setOp n op).Mirrored :=
  h.congr ((SameLinks.unnumber g n).trans
    (.modifyNode (f := ({ · with op })) (fun _ => rfl) (fun _ => rfl) _ n))

theorem add (h : g.Mirrored) (op : Op) {xs : Array Edge}
    (hxs : ∀ d, some d ∈ xs → d ∈ g.live) (decl : Ty) : (g.add op xs decl).2.Mirrored := by
  obtain ⟨hsize, hnode, -⟩ := g.add_spec op xs decl
  have hlive (m : NodeId) (hm : m ∈ g.live) : m ∈ (g.add op xs decl).2.live := by
    obtain ⟨hlt, hdead⟩ := mem_live.mp hm
    refine mem_live.mpr ⟨hsize ▸ Nat.lt_succ_of_lt hlt, ?_⟩
    rw [isDead, hnode, if_neg (Nat.ne_of_gt hlt)]
    exact hdead
  refine ⟨h.mirror.add op xs decl, fun u e he => ?_, fun u d hd => ?_,
    fun r hr => hlive r (h.root_live r hr)⟩
  · rw [inputs, hnode] at he
    split_ifs at he with hu
    · refine mem_live.mpr ⟨hu ▸ hsize ▸ Nat.lt_succ_self _, ?_⟩
      rw [isDead, hnode, if_pos hu]
    · exact hlive u (h.user_live u e he)
  · rw [inputs, hnode] at hd
    split_ifs at hd
    · exact hlive d (hxs d hd)
    · exact hlive d (h.input_live u d hd)

theorem const (h : g.Mirrored) (t : Ty) : (g.const t).2.Mirrored := by
  unfold Graph.const
  dsimp only
  split
  · exact h
  · have hnone (d : NodeId) (hd : some d ∈ (#[] : Array Edge)) : d ∈ g.live :=
      absurd hd (Array.not_mem_empty _)
    have htyped := SameLinks.modifyNode (f := fun x => { x with ty := t, numbered := true })
      (fun _ => rfl) (fun _ => rfl) (g.add (.const t) #[]).2 (g.add (.const t) #[]).1
    exact (h.add (.const t) hnone .top).congr
      (htyped.trans ⟨rfl, fun _ => rfl, fun _ => rfl, fun _ => rfl⟩)

theorem replaceAllUses {old : NodeId} {new : Edge} (h : g.Mirrored)
    (hnew : ∀ m ∈ new, m ∈ g.live) : (g.replaceAllUses old new).Mirrored := by
  by_cases hne : new = some old
  · rw [Graph.replaceAllUses, if_pos hne]
    exact h
  obtain ⟨hsize, hdead, -, -⟩ := replaceAllUses_spec (g := g) hne
  have hlive (m : NodeId) : m ∈ (g.replaceAllUses old new).live ↔ m ∈ g.live := by
    rw [mem_live, mem_live, hsize, hdead]
  refine ⟨h.mirror.replaceAllUses old new, fun u e he => (hlive u).mpr ?_,
    fun u d hd => (hlive d).mpr ?_, fun r hr => (hlive r).mpr (h.root_live r hr)⟩
  · rcases mem_inputs_replaceAllUses h.mirror he with he | ⟨-, he⟩
    · exact h.user_live u e he
    · exact h.user_live u _ he
  · rcases mem_inputs_replaceAllUses h.mirror hd with hd | ⟨heq, -⟩
    · exact h.input_live u d hd
    · exact hnew d heq.symm

theorem bury (h : g.Mirrored) (hunused : g.usesOf n = #[]) (hroot : isRoot n = false) :
    (g.bury n).2.Mirrored := by
  have hb := buried_bury h.mirror n
  have hlive (m : NodeId) (hm : m ∈ g.live) (hne : m ≠ n) : m ∈ (g.bury n).2.live := by
    obtain ⟨hlt, hdead⟩ := mem_live.mp hm
    refine mem_live.mpr ⟨hb.size ▸ hlt, ?_⟩
    rw [hb.isDead, if_neg fun h => hne h.1.symm]
    exact hdead
  refine ⟨hb.mirror h.mirror, fun u e he => ?_, fun u d hd => ?_, fun r hr => ?_⟩
  · rw [hb.inputs] at he
    split_ifs at he with hu
    · exact absurd he (Array.not_mem_empty e)
    · exact hlive u (h.user_live u e he) (Ne.symm hu)
  · rw [hb.inputs] at hd
    split_ifs at hd with hu
    · exact absurd hd (Array.not_mem_empty _)
    · refine hlive d (h.input_live u d hd) ?_
      rintro rfl
      rw [← h.mirror.mem_usesOf_iff, hunused] at hd
      exact Array.not_mem_empty u hd
  · refine hlive r (h.root_live r hr) ?_
    rintro rfl
    rw [hroot] at hr
    cases hr

theorem reapAll (keep : Edge) (k : Nat) (work : List NodeId) (h : g.Mirrored) :
    (Graph.reapAll keep k work g).Mirrored := by
  induction k generalizing work g with
  | zero => exact h
  | succ k ih =>
    rw [Graph.reapAll]
    split
    case h_1 => exact h
    case h_2 n rest hwork =>
      obtain ⟨hroot, hunused⟩ := not_isKept_of_dropWhile hwork
      exact ih _ (h.bury hunused hroot)

theorem subsume (h : g.Mirrored) (he : ∀ m ∈ e, m ∈ g.live) (n : NodeId) :
    (g.subsume n e).Mirrored := by
  unfold Graph.subsume
  split_ifs
  · exact h
  · exact (h.replaceAllUses he).reapAll ..

end Mirrored

theorem mem_roots {r : NodeId} : r ∈ [stop, start, deadCtrl] ↔ isRoot r := by
  simp only [isRoot, List.mem_cons, List.not_mem_nil, or_false, Bool.or_eq_true, beq_iff_eq]
  tauto

theorem mem_reduceOption_inputs : d ∈ (g.inputs n).toList.reduceOption ↔ some d ∈ g.inputs n := by
  rw [List.reduceOption_mem_iff, Array.mem_toList_iff]

theorem mem_or_mem_dropWhile {α : Type} (p : α → Bool) {l : List α} {x : α} (hx : x ∈ l) :
    p x ∨ x ∈ l.dropWhile p := by
  induction l with
  | nil => exact absurd hx List.not_mem_nil
  | cons y l ih =>
    rw [List.dropWhile_cons]
    split_ifs with hy
    · rcases List.mem_cons.mp hx with rfl | hx
      · exact .inl hy
      · exact ih hx
    · exact .inr hx

theorem contains_insert_or_mem {seen : BitSet} {work rest : List NodeId}
    (hcons : work.dropWhile seen.contains = n :: rest) (hm : seen.contains m ∨ m ∈ work)
    (next : List NodeId) : (seen.insert n).contains m ∨ m ∈ next ++ rest := by
  rw [BitSet.contains_insert, Bool.or_eq_true, decide_eq_true_eq]
  rcases hm with hm | hm
  · exact .inl (.inr hm)
  · rcases mem_or_mem_dropWhile seen.contains hm with h | h
    · exact .inl (.inr h)
    · rw [hcons, List.mem_cons] at h
      exact h.imp .inl (List.mem_append_right next)

/-- A search with a step for every node that is missing keeps what it has, seen or waiting, and ends
with all inputs of what it has seen. -/
theorem reachable_closed (hinput : ∀ u d, some d ∈ g.inputs u → d < g.size) (k : Nat)
    (work : List NodeId) (seen : BitSet) (hwork : ∀ n ∈ work, n < g.size)
    (hseen : ∀ u d, seen.contains u → some d ∈ g.inputs u → seen.contains d ∨ d ∈ work)
    (hk : (seen.missing g.size).card ≤ k) :
    (∀ n, seen.contains n ∨ n ∈ work → (g.reachable k work seen).contains n) ∧
      ∀ u d, (g.reachable k work seen).contains u → some d ∈ g.inputs u →
        (g.reachable k work seen).contains d := by
  induction k generalizing work seen with
  | zero =>
    have hall (n : NodeId) (hn : n < g.size) : seen.contains n :=
      BitSet.contains_of_missing_eq_empty hk hn
    exact ⟨fun n hn => hn.elim id fun h => hall n (hwork n h),
      fun u d _ hd => hall d (hinput u d hd)⟩
  | succ k ih =>
    rw [reachable]
    split
    case h_1 hnil =>
      have hin (n : NodeId) (hn : seen.contains n ∨ n ∈ work) : seen.contains n := by
        rcases hn with hn | hn
        · exact hn
        · have h := mem_or_mem_dropWhile seen.contains hn
          rw [hnil] at h
          exact h.resolve_right List.not_mem_nil
      exact ⟨hin, fun u d hu hd => hin d (hseen u d hu hd)⟩
    case h_2 n rest hcons =>
      have hsub : ∀ m ∈ n :: rest, m ∈ work := fun m hm =>
        List.dropWhile_subset seen.contains (hcons ▸ hm)
      have hnew : seen.contains n = false := by
        have h := List.head?_dropWhile_not seen.contains work
        rw [hcons] at h
        simpa using h
      dsimp only
      obtain ⟨hin, hclosed⟩ := ih _ (seen.insert n)
        (fun m hm => (List.mem_append.mp hm).elim
          (fun h => hinput n m (mem_reduceOption_inputs.mp (List.mem_of_mem_filter h)))
          fun h => hwork m (hsub m (List.mem_cons_of_mem n h)))
        (fun u d hu hd => by
          rw [BitSet.contains_insert, Bool.or_eq_true, decide_eq_true_eq] at hu
          rcases hu with rfl | hu
          · by_cases hdseen : seen.contains d
            · exact contains_insert_or_mem hcons (.inl hdseen) _
            · exact .inr (List.mem_append_left rest (List.mem_filter.mpr
                ⟨mem_reduceOption_inputs.mpr hd, Bool.not_eq_true' _ |>.mpr (Bool.eq_false_iff.mpr hdseen)⟩))
          · exact contains_insert_or_mem hcons (hseen u d hu hd) _)
        (by
          have := seen.card_missing_insert_lt (hwork n (hsub n List.mem_cons_self)) hnew
          omega)
      exact ⟨fun m hm => hin m (contains_insert_or_mem hcons hm _), hclosed⟩

/-- `m` is reached from `n` along one input. -/
def Uses (g : Graph) (n m : NodeId) : Prop := some m ∈ g.inputs n

theorem exists_uses_of_reachable (k : Nat) (work : List NodeId) (seen : BitSet)
    (h : (g.reachable k work seen).contains n) :
    seen.contains n ∨ ∃ m ∈ work, Relation.ReflTransGen g.Uses m n := by
  induction k generalizing work seen with
  | zero => exact .inl h
  | succ k ih =>
    rw [reachable] at h
    split at h
    case h_1 => exact .inl h
    case h_2 x rest hwork =>
      have hsub : x :: rest ⊆ work := hwork ▸ (List.dropWhile_suffix _).subset
      rcases ih _ _ h with hseen | ⟨m, hm, hpath⟩
      · rw [BitSet.contains_insert, Bool.or_eq_true, decide_eq_true_eq] at hseen
        rcases hseen with hx | hseen
        · exact .inr ⟨x, hsub List.mem_cons_self, hx ▸ .refl⟩
        · exact .inl hseen
      · rcases List.mem_append.mp hm with hm | hm
        · rw [List.mem_filter, List.reduceOption_mem_iff, Array.mem_toList_iff] at hm
          exact .inr ⟨x, hsub List.mem_cons_self, hpath.head hm.1⟩
        · exact .inr ⟨m, hsub (List.mem_cons_of_mem x hm), hpath⟩

/-- A live node is unreachable unless a root uses it, directly or not. -/
theorem exists_uses_of_not_mem_unreachable (hn : n ∈ g.live) (h : n ∉ g.unreachable) :
    ∃ r, isRoot r ∧ Relation.ReflTransGen g.Uses r n := by
  have hseen : (g.reachable g.size [stop, start, deadCtrl] (.withCapacity g.size)).contains n := by
    by_contra hnot
    exact h (List.mem_filter.mpr ⟨hn, by simpa using hnot⟩)
  rcases exists_uses_of_reachable _ _ _ hseen with hempty | ⟨r, hr, hpath⟩
  · rw [BitSet.contains_withCapacity] at hempty
    cases hempty
  · exact ⟨r, mem_roots.mp hr, hpath⟩

theorem unreachable_spec (hinput : ∀ u d, some d ∈ g.inputs u → d < g.size)
    (hroot : ∀ r, isRoot r → r < g.size) :
    (∀ r, isRoot r → r ∉ g.unreachable) ∧
      ∀ u ∈ g.live, ∀ d, u ∉ g.unreachable → some d ∈ g.inputs u → d ∉ g.unreachable := by
  obtain ⟨hin, hclosed⟩ := reachable_closed hinput g.size [stop, start, deadCtrl]
    (.withCapacity g.size) (fun r hr => hroot r (mem_roots.mp hr))
    (fun u d hu => by simp at hu) ((Finset.card_filter_le _ _).trans (Finset.card_range _).le)
  unfold unreachable
  refine ⟨fun r hr hmem => ?_, fun u hlive d hu hd hmem => ?_⟩
  · simp [hin r (.inr (mem_roots.mpr hr))] at hmem
  · have hseen : (g.reachable g.size [stop, start, deadCtrl] (.withCapacity g.size)).contains u := by
      by_contra hnot
      exact hu (List.mem_filter.mpr ⟨hlive, by simpa using hnot⟩)
    have hdseen := hclosed u d hseen hd
    simp [hdseen] at hmem

theorem Mirrored.unreachable_spec (h : g.Mirrored) :
    (∀ r, isRoot r → r ∉ g.unreachable) ∧
      ∀ u d, u ∉ g.unreachable → some d ∈ g.inputs u → d ∉ g.unreachable := by
  obtain ⟨hroots, hclosed⟩ := Graph.unreachable_spec
    (fun u d hd => (mem_live.mp (h.input_live u d hd)).1) fun r hr => (mem_live.mp (h.root_live r hr)).1
  exact ⟨hroots, fun u d hu hd => hclosed u (h.user_live u _ hd) d hu hd⟩

theorem Mirrored.sweep (h : g.Mirrored) : g.sweep.2.Mirrored := by
  obtain ⟨hroots, hclosed⟩ := h.unreachable_spec
  obtain ⟨hlive, hinputs, huses⟩ := g.sweep_spec
  refine ⟨fun d u => ?_, fun u e he => ?_, fun u d hd => ?_, fun r hr => ?_⟩
  · rw [huses, hinputs, h.mirror]
    by_cases hd : d ∈ g.unreachable
    · rw [if_pos hd]
      split_ifs with hu
      · exact Array.count_empty.symm
      · exact (Array.count_eq_zero.mpr fun hmem => hclosed u d hu hmem hd).symm
    · rw [if_neg hd]
      by_cases hu : u ∈ g.unreachable
      · rw [if_pos hu, Array.count_empty]
        by_cases hdead : g.isDead d = false
        · rw [if_pos ⟨hu, hdead⟩, Nat.sub_self]
        · rw [if_neg fun h => hdead h.2, Nat.sub_zero, ← h.mirror,
            h.usesOf_of_not_live fun hlive => hdead (mem_live.mp hlive).2, Array.count_empty]
      · rw [if_neg hu, if_neg fun h => hu h.1, Nat.sub_zero]
  · rw [hinputs] at he
    split_ifs at he with hu
    · exact absurd he (Array.not_mem_empty e)
    · exact (hlive u).mpr ⟨h.user_live u e he, hu⟩
  · rw [hinputs] at hd
    split_ifs at hd with hu
    · exact absurd hd (Array.not_mem_empty _)
    · exact (hlive d).mpr ⟨h.input_live u d hd, hclosed u d hu hd⟩
  · exact (hlive r).mpr ⟨h.root_live r hr, hroots r hr⟩

theorem Mirrored.verify (h : g.Mirrored) : g.verify = .ok () := by
  have hdead (n : NodeId) : g.deadInput? n = none := by
    rw [deadInput?, Option.map_eq_none_iff, List.find?_eq_none]
    intro d hd
    rw [mem_reduceOption_inputs] at hd
    simp [(mem_live.mp (h.input_live n d hd)).2]
  have huse (n : NodeId) : g.useFlaw? n = none := by
    rw [useFlaw?, Option.or_eq_none_iff, List.findSome?_eq_none_iff, List.findSome?_eq_none_iff]
    simp [edgeCount, h.mirror _ _]
  rw [Graph.verify, List.findSome?_eq_none_iff.mpr fun n _ => hdead n,
    List.findSome?_eq_none_iff.mpr fun n _ => huse n]
  rfl

theorem mirrored_empty : empty.Mirrored := by
  have hinputs (n : NodeId) : empty.inputs n = #[] := by
    rcases Nat.lt_or_ge n 3 with hlt | hge
    · interval_cases n <;> rfl
    · exact inputs_of_size_le hge
  refine ⟨fun d u => ?_, fun u e he => ?_, fun u d hd => ?_, fun r hr => ?_⟩
  · rw [hinputs]
    rfl
  · rw [hinputs] at he
    exact absurd he (Array.not_mem_empty e)
  · rw [hinputs] at hd
    exact absurd hd (Array.not_mem_empty _)
  · simp only [isRoot, Bool.or_eq_true, beq_iff_eq] at hr
    obtain (rfl | rfl) | rfl := hr <;> decide

end Graph

/-- A call that changes a graph. -/
inductive Edit where
  | add (op : Op) (inputs : Array Edge) (decl : Ty)
  | const (t : Ty)
  | setInput (n : NodeId) (i : Nat) (new : Edge)
  | pushInput (n : NodeId) (new : Edge)
  | removeInput (n : NodeId) (i : Nat)
  | swapInputs (n : NodeId) (i j : Nat)
  | setOp (n : NodeId) (op : Op)
  | replaceAllUses (old : NodeId) (new : Edge)
  | subsume (old : NodeId) (new : Edge)
  | kill (n : NodeId)
  | sweep
  | number (n : NodeId)
  | unnumber (n : NodeId)

namespace Edit

/-- The graph that the call leaves. -/
def apply (g : Graph) : Edit → Graph
  | add op inputs decl => (g.add op inputs decl).2
  | const t => (g.const t).2
  | setInput n i new => g.setInput n i new
  | pushInput n new => g.pushInput n new
  | removeInput n i => g.removeInput n i
  | swapInputs n i j => g.swapInputs n i j
  | setOp n op => g.setOp n op
  | replaceAllUses old new => g.replaceAllUses old new
  | subsume old new => g.subsume old new
  | kill n => g.kill n
  | sweep => g.sweep.2
  | number n => g.number n
  | unnumber n => g.unnumber n

/-- Nodes that are named are live, and inputs that are named exist. -/
def Legal (g : Graph) : Edit → Prop
  | add _ inputs _ => ∀ e ∈ inputs, ∀ d ∈ e, d ∈ g.live
  | const _ | sweep => True
  | setInput n i new => n ∈ g.live ∧ i < (g.inputs n).size ∧ ∀ d ∈ new, d ∈ g.live
  | pushInput n new => n ∈ g.live ∧ ∀ d ∈ new, d ∈ g.live
  | removeInput n i => n ∈ g.live ∧ i < (g.inputs n).size
  | swapInputs n i j => n ∈ g.live ∧ i < (g.inputs n).size ∧ j < (g.inputs n).size
  | setOp n _ | kill n | number n | unnumber n => n ∈ g.live
  | replaceAllUses old new | subsume old new => old ∈ g.live ∧ ∀ d ∈ new, d ∈ g.live

instance (g : Graph) : (e : Edit) → Decidable (e.Legal g)
  | add _ inputs _ => inferInstanceAs (Decidable (∀ e ∈ inputs, ∀ d ∈ e, d ∈ g.live))
  | const _ | sweep => isTrue trivial
  | setInput n i new =>
    inferInstanceAs (Decidable (n ∈ g.live ∧ i < (g.inputs n).size ∧ ∀ d ∈ new, d ∈ g.live))
  | pushInput n new => inferInstanceAs (Decidable (n ∈ g.live ∧ ∀ d ∈ new, d ∈ g.live))
  | removeInput n i => inferInstanceAs (Decidable (n ∈ g.live ∧ i < (g.inputs n).size))
  | swapInputs n i j =>
    inferInstanceAs (Decidable (n ∈ g.live ∧ i < (g.inputs n).size ∧ j < (g.inputs n).size))
  | setOp n _ | kill n | number n | unnumber n => inferInstanceAs (Decidable (n ∈ g.live))
  | replaceAllUses old new | subsume old new =>
    inferInstanceAs (Decidable (old ∈ g.live ∧ ∀ d ∈ new, d ∈ g.live))

/-- The graph after a sequence of edits. -/
def run (g : Graph) (es : List Edit) : Graph := es.foldl apply g

/-- Each edit of a sequence is legal when it is made. -/
def LegalRun : Graph → List Edit → Prop
  | _, [] => True
  | g, e :: es => e.Legal g ∧ LegalRun (e.apply g) es

instance LegalRun.decidable : (g : Graph) → (es : List Edit) → Decidable (LegalRun g es)
  | _, [] => isTrue trivial
  | g, e :: es =>
    have := LegalRun.decidable (e.apply g) es
    inferInstanceAs (Decidable (e.Legal g ∧ LegalRun (e.apply g) es))

theorem mirrored_apply {g : Graph} {e : Edit} (h : g.Mirrored) (he : e.Legal g) :
    (e.apply g).Mirrored := by
  cases e with
  | add op inputs decl => exact h.add op (fun d hd => he _ hd d rfl) decl
  | const t => exact h.const t
  | setInput n i new => exact h.setInput he.1 he.2.1 he.2.2
  | pushInput n new => exact h.pushInput he.1 he.2
  | removeInput n i => exact h.removeInput he.1 i
  | swapInputs n i j => exact h.swapInputs he.1 i j
  | setOp n op => exact h.setOp n op
  | replaceAllUses old new => exact h.replaceAllUses he.2
  | subsume old new => exact h.subsume he.2 old
  | kill n => exact h.reapAll ..
  | sweep => exact h.sweep
  | number n => exact h.congr (.number g n)
  | unnumber n => exact h.congr (.unnumber g n)

theorem mirrored_run {g : Graph} {es : List Edit} (h : g.Mirrored) (hes : LegalRun g es) :
    (run g es).Mirrored := by
  induction es generalizing g with
  | nil => exact h
  | cons e es ih => exact ih (mirrored_apply h hes.1) hes.2

end Edit

/-- Whatever legal edits are made to an empty graph, each edge stands in the use list of the node it
leads to as often as it is there, no live node uses a dead one, a dead node neither has inputs nor
uses a live one, and the roots are live. -/
theorem useLists_mirror_inputs {es : List Edit} (h : Edit.LegalRun .empty es) :
    let g := Edit.run .empty es
    (∀ d ∈ g.live, ∀ u ∈ g.live, (g.usesOf d).count u = (g.inputs u).count (some d)) ∧
      (∀ u ∈ g.live, ∀ d, some d ∈ g.inputs u → d ∈ g.live) ∧
      (∀ n, g.isDead n → g.inputs n = #[] ∧ ∀ d ∈ g.live, n ∉ g.usesOf d) ∧
      g.verify = .ok () ∧
      Graph.start ∈ g.live ∧ Graph.stop ∈ g.live ∧ Graph.deadCtrl ∈ g.live := by
  have hg := Edit.mirrored_run Graph.mirrored_empty h
  dsimp only
  refine ⟨fun d _ u _ => hg.mirror d u, fun u _ d hd => hg.input_live u d hd, fun n hn => ?_,
    hg.verify, hg.root_live _ rfl, hg.root_live _ rfl, hg.root_live _ rfl⟩
  have hlive : n ∉ (Edit.run .empty es).live := by
    rw [Graph.mem_live, hn]
    exact fun h => Bool.noConfusion h.2
  have hinputs := hg.inputs_of_not_live hlive
  refine ⟨hinputs, fun d _ hd => ?_⟩
  rw [hg.mirror.mem_usesOf_iff, hinputs] at hd
  exact Array.not_mem_empty _ hd

/-- A parameter that is added to itself, a phi that uses itself, and their removal. -/
def selfUses : List Edit := [
  .add (.param 0) #[some 0] .anyInt,
  .add (.arith .add) #[none, some 3, some 3] .top,
  .add .loop #[none, some 0] .top,
  .pushInput 5 (some 5),
  .add .phi #[some 5, some 4] .anyInt,
  .pushInput 6 (some 6),
  .number 4,
  .subsume 4 (some 3),
  .removeInput 6 1,
  .swapInputs 6 0 1,
  .kill 3,
  .add .ret #[some 5, none, some 6] .top,
  .pushInput 1 (some 7),
  .setInput 7 2 none,
  .sweep]

theorem useLists_mirror_inputs_selfUses : Edit.LegalRun .empty selfUses ∧
    (Edit.run .empty selfUses).live = [0, 1, 2, 5, 7] ∧
    (Edit.run .empty selfUses).verify = .ok () := by
  have hlegal : Edit.LegalRun .empty selfUses := by decide +kernel
  exact ⟨hlegal, by decide +kernel, (useLists_mirror_inputs hlegal).2.2.2.1⟩

end SeaNodes
