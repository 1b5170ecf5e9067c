import Mathlib.Data.Set.Card
import Mathlib.Logic.Relation
import SeaNodes.Proofs.Sets
import SeaNodes.Table

namespace SeaNodes

theorem mem_drop_zipIdx {α : Type} {l : List α} {x : α} {i k : Nat} :
    (x, i) ∈ l.zipIdx.drop k ↔ k ≤ i ∧ l[i]? = some x := by
  constructor
  · intro h
    obtain ⟨j, hj⟩ := List.mem_iff_getElem?.mp h
    rw [List.getElem?_drop, List.getElem?_zipIdx, Option.map_eq_some_iff] at hj
    obtain ⟨y, hy, heq⟩ := hj
    obtain ⟨rfl, rfl⟩ := Prod.mk.inj heq
    exact ⟨by omega, by rwa [Nat.zero_add]⟩
  · rintro ⟨hk, hx⟩
    refine List.mem_of_getElem? (i := i - k) ?_
    rw [List.getElem?_drop, List.getElem?_zipIdx, Nat.add_sub_cancel' hk, hx, Option.map_some,
      Nat.zero_add]

namespace Except

variable {ε α β σ : Type}

theorem bind_eq_ok {x : Except ε α} {f : α → Except ε β} {b : β} (h : x >>= f = .ok b) :
    ∃ a, x = .ok a ∧ f a = .ok b := by
  cases x with
  | error e => exact nomatch h
  | ok a => exact ⟨a, rfl, h⟩

theorem bind_eq_error {x : Except ε α} {f : α → Except ε β} {e : ε} (h : x >>= f = .error e) :
    x = .error e ∨ ∃ a, x = .ok a ∧ f a = .error e := by
  cases x with
  | error e' => exact .inl (congrArg Except.error (Except.error.inj h))
  | ok a => exact .inr ⟨a, rfl, h⟩

theorem exists_bind {x : Except ε α} {f : α → Except ε β} (hx : ∃ a, x = .ok a)
    (hf : ∀ a, ∃ b, f a = .ok b) : ∃ b, x >>= f = .ok b := by
  obtain ⟨a, rfl⟩ := hx
  exact hf a

theorem exists_of_any_toOption {x : Except ε α} {p : α → Bool} (h : x.toOption.any p = true) :
    ∃ a, x = .ok a ∧ p a = true := by
  cases x with
  | error e => exact nomatch h
  | ok a => exact ⟨a, rfl, h⟩

theorem exists_of_any {x : Except ε α} {p : α → Prop} [DecidablePred p]
    (h : x.toOption.any (fun a => decide (p a)) = true) : ∃ a, x = .ok a ∧ p a := by
  obtain ⟨a, ha, hp⟩ := exists_of_any_toOption h
  exact ⟨a, ha, of_decide_eq_true hp⟩

theorem exists_of_mem_mapM {f : α → Except ε β} {xs : List α} {ys : List β}
    (h : xs.mapM f = .ok ys) {y : β} (hy : y ∈ ys) : ∃ x ∈ xs, f x = .ok y := by
  induction xs generalizing ys with
  | nil =>
    obtain rfl := Except.ok.inj h
    exact absurd hy List.not_mem_nil
  | cons x xs ih =>
    rw [List.mapM_cons] at h
    obtain ⟨z, hz, h⟩ := bind_eq_ok h
    obtain ⟨zs, hzs, h⟩ := bind_eq_ok h
    obtain rfl := Except.ok.inj h
    rcases List.mem_cons.mp hy with rfl | hy
    · exact ⟨x, List.mem_cons_self, hz⟩
    · obtain ⟨a, ha, hay⟩ := ih hzs hy
      exact ⟨a, List.mem_cons_of_mem x ha, hay⟩

theorem exists_of_mapM_getElem? {f : α → Except ε β} {xs : List α} {ys : List β}
    (h : xs.mapM f = .ok ys) {j : Nat} {y : β} (hy : ys[j]? = some y) :
    ∃ x, xs[j]? = some x ∧ f x = .ok y := by
  induction xs generalizing ys j with
  | nil =>
    obtain rfl := Except.ok.inj h
    exact nomatch hy
  | cons x xs ih =>
    rw [List.mapM_cons] at h
    obtain ⟨z, hz, h⟩ := bind_eq_ok h
    obtain ⟨zs, hzs, h⟩ := bind_eq_ok h
    obtain rfl := Except.ok.inj h
    cases j with
    | zero => exact ⟨x, rfl, Option.some.inj hy ▸ hz⟩
    | succ j => exact ih hzs hy

theorem exists_of_getElem?_mapM {f : α → Except ε β} {xs : List α} {ys : List β}
    (h : xs.mapM f = .ok ys) {j : Nat} {x : α} (hx : xs[j]? = some x) :
    ∃ y, ys[j]? = some y ∧ f x = .ok y := by
  induction xs generalizing ys j with
  | nil => exact nomatch hx
  | cons x' xs ih =>
    rw [List.mapM_cons] at h
    obtain ⟨z, hz, h⟩ := bind_eq_ok h
    obtain ⟨zs, hzs, h⟩ := bind_eq_ok h
    obtain rfl := Except.ok.inj h
    cases j with
    | zero => exact ⟨z, rfl, Option.some.inj hx ▸ hz⟩
    | succ j => exact ih hzs hx

theorem map_eq_of_mapM {f : α → Except ε β} {r : α → σ} {s : β → σ} {xs : List α} {ys : List β}
    (h : xs.mapM f = .ok ys) (hf : ∀ x y, f x = .ok y → s y = r x) : ys.map s = xs.map r := by
  induction xs generalizing ys with
  | nil =>
    obtain rfl := Except.ok.inj h
    rfl
  | cons x xs ih =>
    rw [List.mapM_cons] at h
    obtain ⟨y, hy, h⟩ := bind_eq_ok h
    obtain ⟨zs, hzs, h⟩ := bind_eq_ok h
    obtain rfl := Except.ok.inj h
    rw [List.map_cons, List.map_cons, hf x y hy, ih hzs]

theorem exists_mapM {f : α → Except ε β} (xs : List α) (h : ∀ x ∈ xs, ∃ y, f x = .ok y) :
    ∃ ys, xs.mapM f = .ok ys := by
  induction xs with
  | nil => exact ⟨[], rfl⟩
  | cons x xs ih =>
    rw [List.forall_mem_cons] at h
    obtain ⟨y, hy⟩ := h.1
    obtain ⟨ys, hys⟩ := ih h.2
    exact ⟨y :: ys, by rw [List.mapM_cons, hy, hys]; rfl⟩

theorem mapM_eq_map {f : α → Except ε β} {r : α → β} (xs : List α)
    (h : ∀ x ∈ xs, f x = .ok (r x)) : xs.mapM f = .ok (xs.map r) := by
  induction xs with
  | nil => rfl
  | cons x xs ih =>
    rw [List.forall_mem_cons] at h
    rw [List.mapM_cons, h.1, ih h.2]
    rfl

theorem filterMapM_eq_filterMap {f : α → Except ε (Option β)} {r : α → Option β} (xs : List α)
    (h : ∀ x ∈ xs, f x = .ok (r x)) : xs.filterMapM f = .ok (xs.filterMap r) := by
  induction xs with
  | nil => rfl
  | cons x xs ih =>
    rw [List.forall_mem_cons] at h
    rw [List.filterMapM_cons, h.1, ih h.2, List.filterMap_cons]
    cases r x <;> rfl

theorem exists_of_mapM_eq_error {f : α → Except ε β} {xs : List α} {e : ε}
    (h : xs.mapM f = .error e) : ∃ x ∈ xs, f x = .error e := by
  induction xs with
  | nil => exact nomatch h
  | cons x xs ih =>
    rw [List.mapM_cons] at h
    rcases bind_eq_error h with h | ⟨y, -, h⟩
    · exact ⟨x, List.mem_cons_self, h⟩
    · rcases bind_eq_error h with h | ⟨ys, -, h⟩
      · obtain ⟨z, hz, hfz⟩ := ih h
        exact ⟨z, List.mem_cons_of_mem x hz, hfz⟩
      · exact nomatch h

theorem foldlM_induction {f : σ → α → Except ε σ} {P : σ → Prop} {xs : List α} {s s' : σ}
    (h : xs.foldlM f s = .ok s') (hs : P s)
    (hstep : ∀ x ∈ xs, ∀ s s', P s → f s x = .ok s' → P s') : P s' := by
  induction xs generalizing s with
  | nil =>
    obtain rfl := Except.ok.inj h
    exact hs
  | cons x xs ih =>
    rw [List.foldlM_cons] at h
    obtain ⟨t, ht, h⟩ := bind_eq_ok h
    rw [List.forall_mem_cons] at hstep
    exact ih h (hstep.1 s t hs ht) hstep.2

theorem foldlM_processed {f : σ → α → Except ε σ} {P : List α → σ → Prop} {xs : List α} {s s' : σ}
    (h : xs.foldlM f s = .ok s') (hs : P [] s)
    (hstep : ∀ done x s s', x ∈ xs → P done s → f s x = .ok s' → P (done ++ [x]) s') :
    P xs s' := by
  have hgo (done rest : List α) (hrest : rest ⊆ xs) (s : σ) (hs : P done s)
      (h : rest.foldlM f s = .ok s') : P (done ++ rest) s' := by
    induction rest generalizing done s with
    | nil =>
      obtain rfl := Except.ok.inj h
      rwa [List.append_nil]
    | cons x rest ih =>
      rw [List.foldlM_cons] at h
      obtain ⟨t, ht, h⟩ := bind_eq_ok h
      rw [List.cons_subset] at hrest
      have := ih (done ++ [x]) hrest.2 t (hstep done x s t hrest.1 hs ht) h
      rwa [List.append_assoc] at this
  exact hgo [] xs (List.Subset.refl xs) s hs h

end Except

namespace SideTable

variable {α : Type} [Inhabited α] (t : SideTable α) (i j : Nat)

theorem getD_reserve (n : Nat) :
    (t.reserve n).items.getD i default = t.items.getD i default := by
  unfold reserve
  split
  · rfl
  · rw [Array.getD_eq_getD_getElem?, Array.getD_eq_getD_getElem?, Array.getElem?_append]
    split
    · rfl
    · rename_i hi
      rw [Array.getElem?_replicate, Array.getElem?_eq_none (Nat.le_of_not_lt hi)]
      split <;> rfl

theorem le_size_reserve (n : Nat) : n ≤ (t.reserve n).items.size := by
  unfold reserve
  split
  · assumption
  · simp only [Array.size_append, Array.size_replicate]
    omega

theorem get_set (a : α) : (t.set i a).get j = if i = j then a else t.get j := by
  have hsize : i < (t.reserve (i + 1)).items.size := t.le_size_reserve (i + 1)
  rw [get, set, getD_setIfInBounds, getD_reserve, get]
  simp only [hsize, and_true]

theorem get_modify (f : α → α) : (t.modify i f).get j = if i = j then f (t.get j) else t.get j := by
  have hsize : i < (t.reserve (i + 1)).items.size := t.le_size_reserve (i + 1)
  rw [get, modify, getD_modify, getD_reserve, get]
  simp only [hsize, and_true]

end SideTable

section

variable {R : Nat → Nat → Prop} {m n N : Nat} (hacyclic : ∀ n, ¬ Relation.TransGen R n n)
  (hbound : ∀ n m, R n m → m < N)

include hbound in
theorem transGen_subset_range (n : Nat) :
    {m | Relation.TransGen R n m} ⊆ (Finset.range N : Set Nat) := by
  intro m hm
  obtain ⟨p, -, hpm⟩ := Relation.TransGen.tail'_iff.mp hm
  rw [Finset.coe_range]
  exact hbound p m hpm

include hacyclic hbound

theorem ncard_transGen_lt (h : R n m) :
    {x | Relation.TransGen R m x}.ncard < {x | Relation.TransGen R n x}.ncard := by
  refine Set.ncard_lt_ncard ⟨fun x hx => ?_, fun hsub => ?_⟩
    ((Finset.range N).finite_toSet.subset (transGen_subset_range hbound n))
  · exact Relation.TransGen.head h hx
  · exact hacyclic m (hsub (Relation.TransGen.single h))

theorem ncard_transGen_lt_bound (hn : n < N) : {x | Relation.TransGen R n x}.ncard < N := by
  have hlt : {x | Relation.TransGen R n x}.ncard < (Finset.range N : Set Nat).ncard := by
    refine Set.ncard_lt_ncard ⟨transGen_subset_range hbound n, fun hsub => ?_⟩
      (Finset.range N).finite_toSet
    exact hacyclic n (hsub (by simpa using hn))
  rwa [Set.ncard_coe_finset, Finset.card_range] at hlt

end

end SeaNodes
