import Mathlib.Data.Set.Card
import SeaNodes.Flow.Loops
import SeaNodes.Proofs.Tables

namespace SeaNodes

namespace Cfg

/-- A walk from the entry along edges, the last block first. -/
inductive Walk (c : Cfg) : List BlockId → Prop where
  | entry : Walk c [entry]
  | step {p b : BlockId} {rest : List BlockId} (hp : p ∈ (c.block b).preds)
      (hrest : Walk c (p :: rest)) : Walk c (b :: p :: rest)

/-- Every walk to `b` goes through `a`. -/
def Dominates (c : Cfg) (a b : BlockId) : Prop :=
  ∀ rest, c.Walk (b :: rest) → a ∈ b :: rest

/-- `p` is the strict dominator of `b` that all other strict dominators of `b` dominate. -/
def ImmediatelyDominates (c : Cfg) (p b : BlockId) : Prop :=
  c.Dominates p b ∧ p ≠ b ∧ ∀ a, c.Dominates a b → a ≠ b → c.Dominates a p

noncomputable def strictCount (c : Cfg) (b : BlockId) : Nat :=
  {a | c.Dominates a b ∧ a ≠ b}.ncard

/-- All blocks are reached from the entry. -/
def Connected (c : Cfg) : Prop := ∀ b < c.size, ∃ rest, c.Walk (b :: rest)

/-- Edges come from blocks. -/
def PredsInside (c : Cfg) : Prop := ∀ b, ∀ p ∈ (c.block b).preds, p < c.size

variable {c : Cfg} {a b d p x : BlockId} {pre post post' rest l : List BlockId}

theorem block_of_size_le (h : c.size ≤ b) : c.block b = default := by
  rw [block, Array.getD_eq_getD_getElem?, Array.getElem?_eq_none h]
  rfl

theorem lt_size_of_mem {α : Type} {x : α} (part : Block → List α) (hempty : part default = [])
    (hx : x ∈ part (c.block b)) : b < c.size := by
  by_contra h
  rw [block_of_size_le (Nat.le_of_not_lt h), hempty] at hx
  exact absurd hx List.not_mem_nil

theorem lt_size_of_mem_preds (h : p ∈ (c.block b).preds) : b < c.size :=
  lt_size_of_mem Block.preds rfl h

theorem Walk.lt_size (h : c.Walk rest) (hsize : 0 < c.size) : ∀ x ∈ rest, x < c.size := by
  induction h with
  | entry =>
    intro x hx
    rwa [List.mem_singleton.mp hx]
  | step hp _ ih =>
    intro x hx
    rcases List.mem_cons.mp hx with rfl | hx
    · exact lt_size_of_mem_preds hp
    · exact ih x hx

theorem Walk.of_append (pre : List BlockId) (h : c.Walk (pre ++ b :: rest)) :
    c.Walk (b :: rest) := by
  induction pre with
  | nil => exact h
  | cons x pre ih =>
    apply ih
    cases pre with
    | nil =>
      cases h with
      | step _ hrest => exact hrest
    | cons y pre =>
      cases h with
      | step _ hrest => exact hrest

theorem Walk.of_preds {c' : Cfg} (h : c.Walk rest)
    (hpreds : ∀ b, (c.block b).preds = (c'.block b).preds) : c'.Walk rest := by
  induction h with
  | entry => exact .entry
  | step hp _ ih => exact .step (hpreds _ ▸ hp) ih

theorem Walk.exists_of_mem (h : c.Walk rest) (ha : a ∈ rest) :
    ∃ pre post, rest = pre ++ a :: post ∧ c.Walk (a :: post) := by
  obtain ⟨pre, post, rfl⟩ := List.append_of_mem ha
  exact ⟨pre, post, rfl, h.of_append pre⟩

theorem Walk.replace {rest' : List BlockId} (pre : List BlockId) (h : c.Walk (pre ++ b :: rest))
    (h' : c.Walk (b :: rest')) : c.Walk (pre ++ b :: rest') := by
  induction pre with
  | nil => exact h'
  | cons x pre ih =>
    cases pre with
    | nil =>
      cases h with
      | step hp hrest => exact .step hp h'
    | cons y pre =>
      cases h with
      | step hp hrest => exact .step hp (ih hrest)

theorem Walk.entry_mem (h : c.Walk rest) : Cfg.entry ∈ rest := by
  induction h with
  | entry => exact List.mem_singleton_self _
  | step _ _ ih => exact List.mem_cons_of_mem _ ih

namespace Dominates

theorem refl (c : Cfg) (b : BlockId) : c.Dominates b b := fun _ _ => List.mem_cons_self

theorem trans (hab : c.Dominates a b) (hbd : c.Dominates b d) : c.Dominates a d := by
  intro rest hwalk
  obtain ⟨pre, post, heq, hpost⟩ := hwalk.exists_of_mem (hbd rest hwalk)
  rw [heq]
  exact List.mem_append_right pre (hab post hpost)

theorem of_pred (hab : c.Dominates a b) (hne : a ≠ b) (hp : p ∈ (c.block b).preds) :
    c.Dominates a p := by
  intro rest hwalk
  rcases List.mem_cons.mp (hab _ (hwalk.step hp)) with h | h
  · exact absurd h hne
  · exact h

theorem of_preds {c' : Cfg} (h : c.Dominates a b)
    (hpreds : ∀ b, (c.block b).preds = (c'.block b).preds) : c'.Dominates a b :=
  fun rest hwalk => h rest (hwalk.of_preds fun b => (hpreds b).symm)

theorem eq_entry (h : c.Dominates a entry) : a = entry :=
  List.mem_singleton.mp (h [] .entry)

theorem of_entry (c : Cfg) (b : BlockId) : c.Dominates entry b :=
  fun _ hwalk => hwalk.entry_mem

theorem lt_size (h : c.Dominates a b) (hc : c.Connected) (hb : b < c.size) : a < c.size := by
  obtain ⟨rest, hwalk⟩ := hc b hb
  exact hwalk.lt_size (Nat.zero_lt_of_lt hb) a (h rest hwalk)

/-- Two blocks that are reached do not dominate each other: a walk to one through the other would
have no first of the two. -/
theorem antisymm (hab : c.Dominates a b) (hba : c.Dominates b a) (hwalk : c.Walk (b :: rest)) :
    a = b := by
  by_contra hne
  induction hn : rest.length using Nat.strong_induction_on generalizing rest with
  | h n ih =>
    have ha : a ∈ rest := (List.mem_cons.mp (hab rest hwalk)).resolve_left hne
    obtain ⟨pre, post, rfl⟩ := List.append_of_mem ha
    have hpost : c.Walk (a :: post) := hwalk.of_append (b :: pre)
    have hb : b ∈ post := (List.mem_cons.mp (hba post hpost)).resolve_left (Ne.symm hne)
    obtain ⟨pre', post', rfl⟩ := List.append_of_mem hb
    have hpost' : c.Walk (b :: post') := hpost.of_append (a :: pre')
    refine ih post'.length ?_ hpost' rfl
    simp only [← hn, List.length_append, List.length_cons]
    omega

theorem mem_replace (h : c.Dominates a b) (hwalk : c.Walk (b :: rest))
    (heq : b :: rest = pre ++ x :: post) (hpost : c.Walk (x :: post')) : a ∈ pre ++ x :: post' := by
  rw [heq] at hwalk
  have hnew := hwalk.replace pre hpost
  cases pre with
  | nil =>
    obtain ⟨rfl, -⟩ := List.cons.inj heq
    exact h _ hnew
  | cons y pre =>
    obtain ⟨rfl, -⟩ := List.cons.inj heq
    exact h _ hnew

theorem total (ha : c.Dominates a b) (hd : c.Dominates d b) (hwalk : c.Walk (b :: rest)) :
    c.Dominates a d ∨ c.Dominates d a := by
  obtain ⟨pre, post, heq, hpre⟩ := List.eq_append_cons_of_mem (ha rest hwalk)
  by_cases hd' : d ∈ pre
  · obtain ⟨pre₁, pre₂, rfl, -⟩ := List.eq_append_cons_of_mem hd'
    rw [List.append_assoc, List.cons_append] at heq
    rw [List.mem_append, not_or] at hpre
    refine .inl fun post' hpost' => ?_
    have hmem := ha.mem_replace hwalk heq hpost'
    exact (List.mem_append.mp hmem).resolve_left hpre.1
  · refine .inr fun post' hpost' => ?_
    have hmem := hd.mem_replace hwalk heq hpost'
    exact (List.mem_append.mp hmem).resolve_left hd'

end Dominates

theorem finite_strict (hc : c.Connected) (hb : b < c.size) :
    {a | c.Dominates a b ∧ a ≠ b}.Finite :=
  (Set.finite_Iio c.size).subset fun _ ha => ha.1.lt_size hc hb

theorem strictCount_lt (hc : c.Connected) (hb : b < c.size) (h : c.Dominates a b) (hne : a ≠ b) :
    c.strictCount a < c.strictCount b := by
  refine Set.ncard_lt_ncard ⟨fun x hx => ⟨hx.1.trans h, ?_⟩, fun hsub => ?_⟩ (finite_strict hc hb)
  · rintro rfl
    obtain ⟨rest, hwalk⟩ := hc x hb
    exact hne (h.antisymm hx.1 hwalk)
  · exact (hsub ⟨h, hne⟩).2 rfl

theorem strictCount_le (hc : c.Connected) (hb : b < c.size) (h : c.Dominates a b) :
    c.strictCount a ≤ c.strictCount b := by
  by_cases hne : a = b
  · rw [hne]
  · exact (strictCount_lt hc hb h hne).le

theorem strictCount_le_size (hc : c.Connected) (hb : b < c.size) : c.strictCount b ≤ c.size := by
  have hsub : {a | c.Dominates a b ∧ a ≠ b} ⊆ Set.Iio c.size := fun _ ha => ha.1.lt_size hc hb
  refine (Set.ncard_le_ncard hsub (Set.finite_Iio c.size)).trans ?_
  rw [← Finset.coe_range, Set.ncard_coe_finset, Finset.card_range]

theorem strictCount_entry (c : Cfg) : c.strictCount entry = 0 := by
  have hempty : {a | c.Dominates a entry ∧ a ≠ entry} = ∅ :=
    Set.eq_empty_of_forall_notMem fun _ ha => ha.2 ha.1.eq_entry
  rw [strictCount, hempty, Set.ncard_empty]

namespace ImmediatelyDominates

theorem unique (hc : c.Connected) (hb : b < c.size) (h : c.ImmediatelyDominates p b)
    (h' : c.ImmediatelyDominates d b) : p = d := by
  obtain ⟨rest, hwalk⟩ := hc d (h'.1.lt_size hc hb)
  exact (h'.2.2 p h.1 h.2.1).antisymm (h.2.2 d h'.1 h'.2.1) hwalk

theorem strictCount_eq (hc : c.Connected) (hb : b < c.size) (h : c.ImmediatelyDominates p b) :
    c.strictCount b = c.strictCount p + 1 := by
  have hp := h.1.lt_size hc hb
  have hset : {a | c.Dominates a b ∧ a ≠ b} = insert p {a | c.Dominates a p ∧ a ≠ p} := by
    ext a
    rw [Set.mem_insert_iff]
    constructor
    · intro ha
      by_cases hap : a = p
      · exact .inl hap
      · exact .inr ⟨h.2.2 a ha.1 ha.2, hap⟩
    · rintro (rfl | ha)
      · exact ⟨h.1, h.2.1⟩
      · refine ⟨ha.1.trans h.1, ?_⟩
        rintro rfl
        obtain ⟨rest, hwalk⟩ := hc p hp
        exact ha.2 (ha.1.antisymm h.1 hwalk)
  rw [strictCount, hset, Set.ncard_insert_of_notMem (fun hp => hp.2 rfl) (finite_strict hc hp),
    strictCount]

end ImmediatelyDominates

theorem walk_number : c.number.Walk l ↔ c.Walk l :=
  ⟨fun h => h.of_preds fun _ => rfl, fun h => h.of_preds fun _ => rfl⟩

theorem dominates_number : c.number.Dominates a b ↔ c.Dominates a b := by
  simp only [Dominates, walk_number]

theorem connected_number (hc : c.Connected) : c.number.Connected := fun b hb =>
  (hc b hb).imp fun _ => walk_number.mpr

end Cfg

end SeaNodes
