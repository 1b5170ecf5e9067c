import Mathlib.Tactic
import SeaNodes.BitSet
import SeaNodes.Machine.Registers
import SeaNodes.Worklist

namespace SeaNodes

theorem getD_setIfInBounds {α : Type} (a : Array α) (i j : Nat) (x d : α) :
    (a.setIfInBounds i x).getD j d = if i = j ∧ i < a.size then x else a.getD j d := by
  rw [Array.getD_eq_getD_getElem?, Array.getElem?_setIfInBounds, Array.getD_eq_getD_getElem?]
  by_cases hj : i = j
  · subst hj
    by_cases hi : i < a.size <;> simp [hi]
  · simp [hj]

theorem getD_modify {α : Type} (a : Array α) (i j : Nat) (f : α → α) (d : α) :
    (a.modify i f).getD j d = if i = j ∧ i < a.size then f (a.getD j d) else a.getD j d := by
  rw [Array.getD_eq_getD_getElem?, Array.getElem?_modify, Array.getD_eq_getD_getElem?]
  by_cases hj : i = j
  · subst hj
    by_cases hi : i < a.size <;> simp [hi]
  · simp [hj]

namespace BitSet

variable (s t : BitSet) (i j : Nat)

theorem contains_eq : s.contains i = s.flags[i]?.getD false := by
  rw [contains, Array.getD_eq_getD_getElem?]

theorem lt_of_contains {s : BitSet} {i : Nat} (h : s.contains i) : i < s.flags.size := by
  by_contra hi
  rw [contains_eq, Array.getElem?_eq_none (Nat.le_of_not_lt hi)] at h
  exact absurd h (by decide)

@[simp] theorem contains_empty : empty.contains i = false := by
  simp [contains_eq, empty]

@[simp] theorem contains_withCapacity (n : Nat) : (withCapacity n).contains i = false := by
  rw [contains_eq, withCapacity, Array.getElem?_replicate]
  split_ifs <;> rfl

theorem le_groupSize (n : Nat) : n ≤ groupSize n := by
  unfold groupSize
  omega

@[simp] theorem contains_reserve (n : Nat) : (s.reserve n).contains i = s.contains i := by
  unfold reserve
  split_ifs with h
  · rfl
  · by_cases hi : i < s.flags.size
    · simp [contains_eq, Array.getElem?_append_left hi]
    · rw [contains_eq, contains_eq, Array.getElem?_append_right (Nat.le_of_not_lt hi),
        Array.getElem?_eq_none (Nat.le_of_not_lt hi), Array.getElem?_replicate]
      split_ifs <;> rfl

theorem le_size_reserve (n : Nat) : n ≤ (s.reserve n).flags.size := by
  unfold reserve
  split_ifs with h
  · exact h
  · have := le_groupSize n
    simp only [Array.size_append, Array.size_replicate]
    omega

@[simp] theorem contains_insert :
    (s.insert i).contains j = (decide (j = i) || s.contains j) := by
  have hi : i < (s.reserve (i + 1)).flags.size := s.le_size_reserve (i + 1)
  rw [insert, contains_eq, Array.getElem?_setIfInBounds]
  by_cases h : j = i
  · simp [h, hi]
  · rw [if_neg (Ne.symm h), ← contains_eq, contains_reserve]
    simp [h]

@[simp] theorem contains_erase :
    (s.erase i).contains j = (decide (j ≠ i) && s.contains j) := by
  rw [erase, contains_eq, Array.getElem?_setIfInBounds]
  by_cases h : j = i
  · subst h
    by_cases hj : j < s.flags.size <;> simp [hj]
  · rw [if_neg (Ne.symm h), ← contains_eq]
    simp [h]

@[simp] theorem contains_union : (s.union t).contains i = (s.contains i || t.contains i) := by
  rw [union, contains_eq, Array.getElem?_mapIdx]
  by_cases hi : i < (s.reserve t.flags.size).flags.size
  · have h := contains_reserve s i t.flags.size
    rw [contains_eq, Array.getElem?_eq_getElem hi, Option.getD_some] at h
    simp [Array.getElem?_eq_getElem hi, h]
  · have hs : s.contains i = false := by
      rw [← contains_reserve s i t.flags.size, contains_eq,
        Array.getElem?_eq_none (Nat.le_of_not_lt hi)]
      rfl
    have ht : t.contains i = false := by
      rw [Bool.eq_false_iff]
      intro h
      exact hi ((lt_of_contains h).trans_le (s.le_size_reserve _))
    rw [Array.getElem?_eq_none (Nat.le_of_not_lt hi), hs, ht]
    rfl

@[simp] theorem mem_toList {s : BitSet} {i : Nat} : i ∈ s.toList ↔ s.contains i := by
  simp only [toList, List.mem_filter, List.mem_range, and_iff_right_iff_imp]
  exact lt_of_contains

variable {i}

theorem contains_foldl_insert {α : Type} (f : α → Nat) (l : List α) (s : BitSet) :
    (l.foldl (fun s a => s.insert (f a)) s).contains i ↔ s.contains i ∨ ∃ a ∈ l, f a = i := by
  induction l generalizing s with
  | nil => simp
  | cons a l ih =>
    rw [List.foldl_cons, ih]
    simp only [contains_insert, Bool.or_eq_true, decide_eq_true_eq, List.mem_cons,
      exists_eq_or_imp, eq_comm (a := i)]
    tauto

theorem contains_foldl_erase {α : Type} (f : α → Nat) (l : List α) (s : BitSet) :
    (l.foldl (fun s a => s.erase (f a)) s).contains i ↔ s.contains i ∧ ∀ a ∈ l, f a ≠ i := by
  induction l generalizing s with
  | nil => simp
  | cons a l ih =>
    rw [List.foldl_cons, ih]
    simp only [contains_erase, Bool.and_eq_true, decide_eq_true_eq, List.forall_mem_cons,
      ne_comm (a := i)]
    tauto

theorem contains_foldl_union {α : Type} (f : α → BitSet) (l : List α) (s : BitSet) :
    (l.foldl (fun s a => s.union (f a)) s).contains i ↔
      s.contains i ∨ ∃ a ∈ l, (f a).contains i := by
  induction l generalizing s with
  | nil => simp
  | cons a l ih =>
    rw [List.foldl_cons, ih]
    simp only [contains_union, Bool.or_eq_true, List.mem_cons, exists_eq_or_imp]
    tauto

def missing (size : Nat) (s : BitSet) : Finset Nat :=
  (Finset.range size).filter fun i => s.contains i = false

theorem card_missing_insert_lt {size : Nat} (hi : i < size) (hnew : s.contains i = false) :
    ((s.insert i).missing size).card < (s.missing size).card := by
  apply Finset.card_lt_card
  rw [Finset.ssubset_iff_of_subset]
  · exact ⟨i, by simp [missing, hi, hnew], by simp [missing]⟩
  · intro j
    simp only [missing, Finset.mem_filter, contains_insert, Bool.or_eq_false_iff]
    exact fun h => ⟨h.1, h.2.2⟩

theorem card_missing_mono (size : Nat) {s s' : BitSet} (h : ∀ i, s.contains i → s'.contains i) :
    (s'.missing size).card ≤ (s.missing size).card := by
  refine Finset.card_le_card fun i hi => ?_
  simp only [missing, Finset.mem_filter] at hi ⊢
  refine ⟨hi.1, Bool.eq_false_iff.mpr fun hs => ?_⟩
  rw [h i hs] at hi
  cases hi.2

theorem contains_of_missing_eq_empty {size : Nat} {s : BitSet} (h : (s.missing size).card ≤ 0)
    (hi : i < size) : s.contains i := by
  by_contra hnot
  have hmem : i ∈ s.missing size := by simpa [missing, hi] using hnot
  rw [Finset.card_eq_zero.mp (Nat.le_zero.mp h)] at hmem
  exact absurd hmem (Finset.notMem_empty i)

end BitSet

namespace RegMask

variable (a b m : RegMask) (r q : Reg)

@[simp] theorem contains_empty : empty.contains r = false := by
  simp [contains, empty]

theorem lt_of_contains {m : RegMask} {r : Reg} (h : m.contains r) : r < 128 :=
  BitVec.lt_of_getLsbD h

@[simp] theorem contains_inter : (a.inter b).contains r = (a.contains r && b.contains r) := by
  simp [contains, inter]

@[simp] theorem contains_union : (a.union b).contains r = (a.contains r || b.contains r) := by
  simp [contains, union]

theorem contains_diff : (a.diff b).contains r = (a.contains r && !b.contains r) := by
  by_cases h : r < 128
  · simp [contains, diff, h]
  · have hr : 128 ≤ r := Nat.le_of_not_lt h
    simp [contains, diff, BitVec.getLsbD_of_ge _ _ hr]

theorem contains_single : (single r).contains q = (decide (r = q) && decide (q < 128)) := by
  rw [contains, single, BitVec.getLsbD_twoPow]
  by_cases h : r = q
  · simp [h]
  · simp [h]

theorem contains_insert : (m.insert r).contains q =
    (m.contains q || (decide (r = q) && decide (q < 128))) := by
  rw [insert, contains_union, contains_single]

theorem contains_erase : (m.erase r).contains q = (m.contains q && !decide (r = q)) := by
  rw [erase, contains_diff, contains_single]
  by_cases h : m.contains q
  · simp [lt_of_contains h]
  · simp [h]

theorem isEmpty_iff {m : RegMask} : m.isEmpty ↔ ∀ r, m.contains r = false := by
  constructor
  · intro h r
    have hm : m.bits = 0 := by simpa [isEmpty] using h
    simp [contains, hm]
  · intro h
    have hm : m.bits = 0 := by
      apply BitVec.eq_of_getLsbD_eq
      intro i _
      simpa [contains] using h i
    simp [isEmpty, hm]

theorem contains_of_first? {m : RegMask} {r : Reg} (h : m.first? = some r) : m.contains r :=
  List.find?_some h

theorem contains_ofList {rs : List Reg} {q : Nat} : (ofList rs).contains q = true ↔ q ∈ rs ∧ q < 128 := by
  have h (m : RegMask) : (rs.foldl insert m).contains q = true ↔
      m.contains q = true ∨ (q ∈ rs ∧ q < 128) := by
    induction rs generalizing m with
    | nil => simp
    | cons r rs ih =>
      rw [List.foldl_cons, ih, contains_insert, List.mem_cons, Bool.or_eq_true, Bool.and_eq_true,
        decide_eq_true_iff, decide_eq_true_iff, @eq_comm _ r q]
      tauto
  simp [ofList, h]

theorem contains_range {lo hi q : Nat} (h : hi ≤ 128) :
    (range lo hi).contains q = true ↔ lo ≤ q ∧ q < hi := by
  rw [range, contains_ofList, List.mem_range'_1]
  omega

/-- All members are in `b`. -/
def Within (m b : RegMask) : Prop := ∀ r, m.contains r → b.contains r

theorem Within.diff {m b : RegMask} (h : m.Within b) (x : RegMask) : (m.diff x).Within b := by
  intro r hr
  rw [contains_diff, Bool.and_eq_true] at hr
  exact h r hr.1

theorem within_of_diff {m b : RegMask} (h : (m.diff b).isEmpty) : m.Within b := by
  intro r hr
  have hr' := isEmpty_iff.mp h r
  rwa [contains_diff, hr, Bool.true_and, Bool.not_eq_false'] at hr'

end RegMask

namespace Worklist

variable {w w' : Worklist} {n m : Nat}

/-- The set of waiting numbers tells what the list holds. -/
structure Consistent (w : Worklist) : Prop where
  queued : ∀ n, w.queued.contains n ↔ n ∈ w.toList
  nodup : w.toList.Nodup

theorem consistent_empty : ({} : Worklist).Consistent where
  queued n := by simp [toList, show ({} : BitSet) = BitSet.empty from rfl]
  nodup := List.nodup_nil

theorem toList_push (h : w.Consistent) :
    (w.push n).toList = if n ∈ w.toList then w.toList else w.toList ++ [n] := by
  unfold push
  by_cases hn : n ∈ w.toList
  · rw [if_pos ((h.queued n).mpr hn), if_pos hn]
  · rw [if_neg fun hc => hn ((h.queued n).mp hc), if_neg hn]
    simp [toList]

theorem Consistent.push (h : w.Consistent) : (w.push n).Consistent := by
  by_cases hn : n ∈ w.toList
  · have heq : w.push n = w := by
      unfold Worklist.push
      rw [if_pos ((h.queued n).mpr hn)]
    rwa [heq]
  · have hlist := toList_push h (n := n)
    rw [if_neg hn] at hlist
    refine ⟨fun m => ?_, ?_⟩
    · rw [hlist]
      unfold Worklist.push
      rw [if_neg fun hc => hn ((h.queued n).mp hc)]
      simp [h.queued m, or_comm]
    · rw [hlist]
      refine h.nodup.append (List.nodup_singleton n) ?_
      simpa using hn

theorem mem_push (h : w.Consistent) : m ∈ (w.push n).toList ↔ m ∈ w.toList ∨ m = n := by
  rw [toList_push h]
  split_ifs with hn
  · exact ⟨.inl, fun hm => hm.elim id fun heq => heq ▸ hn⟩
  · simp

theorem pushAll_spec (h : w.Consistent) (ns : List Nat) :
    (w.pushAll ns).Consistent ∧ ∀ m, m ∈ (w.pushAll ns).toList ↔ m ∈ w.toList ∨ m ∈ ns := by
  induction ns generalizing w with
  | nil => exact ⟨h, by simp [pushAll]⟩
  | cons n ns ih =>
    obtain ⟨hcons, hmem⟩ := ih (h.push (n := n))
    refine ⟨hcons, fun m => (hmem m).trans ?_⟩
    rw [mem_push h, List.mem_cons, or_assoc]

theorem Consistent.pop? (h : w.Consistent) (hpop : w.pop? = some (n, w')) :
    w.toList = n :: w'.toList ∧ w'.Consistent := by
  have hsplit : w.toList = n :: w'.toList ∧ w'.queued = w.queued.erase n := by
    unfold Worklist.pop? at hpop
    split at hpop
    case h_1 k front hfront =>
      obtain ⟨rfl, rfl⟩ := Prod.mk.inj (Option.some.inj hpop)
      simp [toList, hfront]
    case h_2 hfront =>
      split at hpop
      case h_1 k back hback =>
        obtain ⟨rfl, rfl⟩ := Prod.mk.inj (Option.some.inj hpop)
        simp [toList, hfront, hback]
      case h_2 => exact nomatch hpop
  obtain ⟨hlist, hqueued⟩ := hsplit
  have hnodup := h.nodup
  rw [hlist, List.nodup_cons] at hnodup
  refine ⟨hlist, fun m => ?_, hnodup.2⟩
  rw [hqueued, BitSet.contains_erase, Bool.and_eq_true, decide_eq_true_eq, h.queued, hlist,
    List.mem_cons]
  constructor
  · exact fun hm => hm.2.resolve_left hm.1
  · exact fun hm => ⟨fun heq => hnodup.1 (heq ▸ hm), .inr hm⟩

theorem toList_of_pop? (h : w.pop? = none) : w.toList = [] := by
  unfold Worklist.pop? at h
  split at h
  case h_1 => exact nomatch h
  case h_2 hfront =>
    split at h
    case h_1 => exact nomatch h
    case h_2 hback => simp [toList, hfront, hback]

end Worklist

end SeaNodes
