import SeaNodes.Proofs.Lattice.Members
import SeaNodes.Proofs.Lattice.Order

namespace SeaNodes

namespace Nullness

theorem le_null_iff {n : Nullness} : n ≤ null ↔ n ≠ notNull := by
  rw [← inf_eq_left]
  cases n <;> decide

theorem le_notNull_iff {n : Nullness} : n ≤ notNull ↔ n ≠ null := by
  rw [← inf_eq_left]
  cases n <;> decide

theorem isSome_join? {n n₁ n₂ : Nullness} (h₁ : n₁ ≤ n) (h₂ : n₂ ≤ n) : (n₁.join? n₂).isSome := by
  rw [← inf_eq_left] at h₁ h₂
  revert h₁ h₂
  cases n <;> cases n₁ <;> cases n₂ <;> decide

end Nullness

namespace Pointee

/-- Whether an object of layout `s` may be pointed at. -/
def covers : Pointee → StructId → Bool
  | .top, _ => false
  | .layout s', s => s' = s
  | .any, _ => true

theorem le_layout_iff {o : Pointee} {s : StructId} : o ≤ layout s ↔ o.covers s := by
  rw [← inf_eq_left]
  show o.meet (layout s) = o ↔ _
  cases o with
  | top => simp [meet, covers]
  | any => simp [meet, covers]
  | layout s' =>
    by_cases h : s' = s
    · simp [meet, covers, h]
    · simp [meet, covers, h]

theorem isSome_join? {o o₁ o₂ : Pointee} (h₁ : o₁ ≤ o) (h₂ : o₂ ≤ o) :
    (o₁.join? o₂).isSome ∨
      ∃ s₁ s₂, s₁ ≠ s₂ ∧ o₁ = layout s₁ ∧ o₂ = layout s₂ ∧ o = top := by
  cases o₁ with
  | top => cases o₂ <;> exact .inl rfl
  | any => exact .inl rfl
  | layout s₁ =>
    cases o₂ with
    | top | any => exact .inl rfl
    | layout s₂ =>
      by_cases heq : s₁ = s₂
      · left
        simp [join?, heq]
      · refine .inr ⟨s₁, s₂, heq, rfl, rfl, ?_⟩
        cases o with
        | top => rfl
        | any => exact nomatch le_antisymm h₁ (any_le _)
        | layout s =>
          rw [le_layout_iff, covers, decide_eq_true_eq] at h₁ h₂
          exact absurd (h₁.trans h₂.symm) heq

end Pointee

/-- The most precise type of a value, where `layoutOf` tells the layouts of objects. -/
def Value.ty (layoutOf : Nat → StructId) : Value → Ty
  | .int x => .ofInt x
  | .float x => .ofDouble x
  | .ref none => .null
  | .ref (some o) => .ref (layoutOf o) false
  | .fn i => .fn (some i)
  | .mem => .mem

namespace Ty

variable {a b c t : Ty} {v : Value} {layoutOf : Nat → StructId}

/-- Whether a value is a member of a type, where `layoutOf` tells the layouts of objects. Unlike for
`Ty.has`, no value is control or the outcome of a branch, and objects count only for references to
their layout. -/
def holds (layoutOf : Nat → StructId) : Ty → Value → Bool
  | .bottom, _ => true
  | .mem, .mem => true
  | .int lo hi, .int x => lo ≤ x ∧ x ≤ hi
  | .float x, .float y => x.all (· = y)
  | .ptr _ nil, .ref none => nil ≠ .notNull
  | .ptr obj nil, .ref (some o) => nil ≠ .null ∧ obj.covers (layoutOf o)
  | .fn i, .fn j => i.all (· = j)
  | _, _ => false

theorem ptr_le_ptr_iff {o o' : Pointee} {n n' : Nullness} :
    ptr o' n' ≤ ptr o n ↔ o' ≤ o ∧ n' ≤ n := by
  rw [below_iff]
  constructor
  · intro h
    cases h with
    | refl => exact ⟨le_rfl, le_rfl⟩
    | ptr ho hn => exact ⟨ho, hn⟩
  · exact fun h => .ptr h.1 h.2

theorem int_le_int_iff {l h l' h' : Int64} :
    int l' h' ≤ int l h ↔ l'.toInt ≤ l.toInt ∧ h.toInt ≤ h'.toInt := by
  rw [below_iff]
  constructor
  · intro h
    cases h with
    | refl => exact ⟨le_rfl, le_rfl⟩
    | int hl hh => exact ⟨hl, hh⟩
  · exact fun h => .int h.1 h.2

/-- A value is a member of the types at or below its own. -/
theorem holds_iff_le : t.holds layoutOf v ↔ t ≤ v.ty layoutOf := by
  cases v with
  | int x =>
    cases t with
    | bottom => exact iff_of_true rfl bot_le
    | int lo hi =>
      rw [Value.ty, ofInt, int_le_int_iff, holds, decide_eq_true_eq, Int64.le_iff_toInt_le,
        Int64.le_iff_toInt_le]
    | _ => exact iff_of_false Bool.false_ne_true fun h => by cases below_iff.mp h
  | float y =>
    cases t with
    | bottom => exact iff_of_true rfl bot_le
    | float x =>
      cases x with
      | none => exact iff_of_true rfl (below_iff.mpr (.float _))
      | some z =>
        have heq : float (some z) ≤ float (some y) ↔ z = y := by
          refine ⟨fun h => ?_, fun h => h ▸ le_rfl⟩
          cases below_iff.mp h with
          | refl => rfl
        simp [holds, Value.ty, ofDouble, heq]
    | _ => exact iff_of_false Bool.false_ne_true fun h => by cases below_iff.mp h
  | ref p =>
    cases p with
    | none =>
      cases t with
      | bottom => exact iff_of_true rfl bot_le
      | ptr o n =>
        rw [Value.ty, null, ptr_le_ptr_iff, Nullness.le_null_iff, holds, decide_eq_true_eq,
          and_iff_right (Pointee.le_top o)]
      | _ => exact iff_of_false Bool.false_ne_true fun h => by cases below_iff.mp h
    | some p =>
      cases t with
      | bottom => exact iff_of_true rfl bot_le
      | ptr o n =>
        rw [Value.ty, ref, if_neg Bool.false_ne_true, ptr_le_ptr_iff, Pointee.le_layout_iff,
          Nullness.le_notNull_iff, and_comm, holds, decide_eq_true_eq]
      | _ => exact iff_of_false Bool.false_ne_true fun h => by cases below_iff.mp h
  | fn i =>
    cases t with
    | bottom => exact iff_of_true rfl bot_le
    | fn f =>
      cases f with
      | none => exact iff_of_true rfl (below_iff.mpr (.fn _))
      | some j =>
        have heq : fn (some j) ≤ fn (some i) ↔ j = i := by
          refine ⟨fun h => ?_, fun h => h ▸ le_rfl⟩
          cases below_iff.mp h with
          | refl => rfl
        simp [holds, Value.ty, heq]
    | _ => exact iff_of_false Bool.false_ne_true fun h => by cases below_iff.mp h
  | mem =>
    cases t with
    | bottom | mem => exact iff_of_true rfl (below_iff.mpr (by constructor))
    | _ => exact iff_of_false Bool.false_ne_true fun h => by cases below_iff.mp h

theorem holds_of_le (hab : a ≤ b) (h : b.holds layoutOf v) : a.holds layoutOf v :=
  holds_iff_le.mpr (hab.trans (holds_iff_le.mp h))

/-- `Ty.meet` makes the types a semilattice between `bottom` and `top`, whose order is `Ty.le` and,
the other way round, `Ty.isA`. A meet has the members of both types. -/
theorem meet_semilattice (a b c : Ty) :
    (a.meet b = b.meet a ∧ (a.meet b).meet c = a.meet (b.meet c) ∧ a.meet a = a) ∧
      (a.meet .top = a ∧ a.meet .bottom = .bottom) ∧
      (a.le a ∧ (a.le b → b.le c → a.le c) ∧ (a.le b → b.le a → a = b)) ∧
      ((a.meet b).le a ∧ (a.meet b).le b ∧ (c.le a → c.le b → c.le (a.meet b))) ∧
      (a.isA b ↔ b.le a) ∧
      (∀ layoutOf v, a.holds layoutOf v ∨ b.holds layoutOf v → (a.meet b).holds layoutOf v) ∧
      ∀ l₁ h₁ l₂ h₂ : Int64, l₁ ≤ h₁ → l₂ ≤ h₂ →
        ∃ l h, (int l₁ h₁).meet (int l₂ h₂) = int l h ∧ l ≤ h := by
  have hcomm : a.meet b = b.meet a := inf_comm a b
  have htrans (hab : a ≤ b) (hbc : b ≤ c) : a ≤ c := hab.trans hbc
  have hantisymm (hab : a ≤ b) (hba : b ≤ a) : a = b := le_antisymm hab hba
  have hleft : a.meet b ≤ a := inf_le_left
  have hright : a.meet b ≤ b := inf_le_right
  have hgreatest (hca : c ≤ a) (hcb : c ≤ b) : c ≤ a.meet b := le_inf hca hcb
  refine ⟨⟨hcomm, inf_assoc a b c, meet_self a⟩, ⟨meet_top a, inf_bot_eq a⟩,
    ⟨le_refl a, htrans, hantisymm⟩, ⟨hleft, hright, hgreatest⟩, ?_, ?_, ?_⟩
  · rw [isA, le, hcomm]
  · rintro layoutOf v (h | h)
    · exact holds_of_le hleft h
    · exact holds_of_le hright h
  · intro l₁ h₁ l₂ h₂ hle₁ hle₂
    refine ⟨_, _, int_meet_int l₁ h₁ l₂ h₂, ?_⟩
    rw [Int64.le_iff_toInt_le] at *
    rw [toInt_min, toInt_max]
    omega

/-- A kind of values of which it has none, such as the integers from 2 to 1. -/
def Vacant (t : Ty) : Prop := t.isValue ∧ ∀ layoutOf v, ¬ t.holds layoutOf v

theorem toInt_le_of_not_vacant {l h : Int64} (hv : ¬ (int l h).Vacant) : l.toInt ≤ h.toInt := by
  by_contra hlt
  refine hv ⟨rfl, fun layoutOf v hmem => hlt ?_⟩
  cases v with
  | int x =>
    rw [holds, decide_eq_true_eq, Int64.le_iff_toInt_le, Int64.le_iff_toInt_le] at hmem
    exact hmem.1.trans hmem.2
  | _ => exact nomatch hmem

theorem vacant_ptr_top : (ptr .top .notNull).Vacant := by
  refine ⟨rfl, fun layoutOf v hv => ?_⟩
  cases v with
  | ref o => cases o <;> simp [holds, Pointee.covers] at hv
  | _ => exact nomatch hv

/-- Whether two types are references to different layouts that may both be null. -/
def onlyNullShared : Ty → Ty → Bool
  | .ptr (.layout s₁) n₁, .ptr (.layout s₂) n₂ => s₁ ≠ s₂ ∧ n₁ ≠ .notNull ∧ n₂ ≠ .notNull
  | _, _ => false

theorem join_self (a : Ty) : a.join a = a := if_pos rfl

theorem join_bottom (a : Ty) : a.join .bottom = a := by
  cases a <;> rfl

theorem bottom_join (b : Ty) : Ty.bottom.join b = b := by
  cases b <;> rfl

theorem exists_of_le_int {l h : Int64} (hle : a ≤ int l h) (ha : a ≠ bottom) :
    ∃ l' h', a = int l' h' ∧ l'.toInt ≤ l.toInt ∧ h.toInt ≤ h'.toInt := by
  cases below_iff.mp hle with
  | refl => exact ⟨l, h, rfl, le_rfl, le_rfl⟩
  | bottom => exact absurd rfl ha
  | int hl hh => exact ⟨_, _, rfl, hl, hh⟩

theorem exists_of_le_float {x : Option Double} (hle : a ≤ float x) (ha : a ≠ bottom) :
    ∃ y, a = float y ∧ (y = x ∨ y = none) := by
  cases below_iff.mp hle with
  | refl => exact ⟨x, rfl, .inl rfl⟩
  | bottom => exact absurd rfl ha
  | float => exact ⟨none, rfl, .inr rfl⟩

theorem exists_of_le_ptr {o : Pointee} {n : Nullness} (hle : a ≤ ptr o n) (ha : a ≠ bottom) :
    ∃ o' n', a = ptr o' n' ∧ o' ≤ o ∧ n' ≤ n := by
  cases below_iff.mp hle with
  | refl => exact ⟨o, n, rfl, le_rfl, le_rfl⟩
  | bottom => exact absurd rfl ha
  | ptr ho hn => exact ⟨_, _, rfl, ho, hn⟩

theorem exists_of_le_fn {f : Option Nat} (hle : a ≤ fn f) (ha : a ≠ bottom) :
    ∃ g, a = fn g ∧ (g = f ∨ g = none) := by
  cases below_iff.mp hle with
  | refl => exact ⟨f, rfl, .inl rfl⟩
  | bottom => exact absurd rfl ha
  | fn => exact ⟨none, rfl, .inr rfl⟩

theorem exists_of_le_branch {t f : Bool} (hle : a ≤ branch t f) (ha : a ≠ bottom) :
    ∃ t' f', a = branch t' f' := by
  cases below_iff.mp hle with
  | refl => exact ⟨t, f, rfl⟩
  | bottom => exact absurd rfl ha
  | branch => exact ⟨_, _, rfl⟩

theorem int_join_ne_top {l₁ h₁ l₂ h₂ : Int64} (h : max l₁.toInt l₂.toInt ≤ min h₁.toInt h₂.toInt) :
    (int l₁ h₁).join (int l₂ h₂) ≠ top := by
  unfold join
  split_ifs with heq
  · exact nofun
  · have hle : max l₁ l₂ ≤ min h₁ h₂ := by
      rwa [Int64.le_iff_toInt_le, toInt_max, toInt_min]
    simp [hle]

theorem float_join_ne_top {x y z : Option Double} (hx : x = z ∨ x = none) (hy : y = z ∨ y = none) :
    (float x).join (float y) ≠ top := by
  rcases hx with rfl | rfl
  · rcases hy with rfl | rfl
    · rw [join_self]
      exact nofun
    · cases x <;> exact nofun
  · cases y <;> exact nofun

theorem fn_join_ne_top {f g i : Option Nat} (hf : f = i ∨ f = none) (hg : g = i ∨ g = none) :
    (fn f).join (fn g) ≠ top := by
  rcases hf with rfl | rfl
  · rcases hg with rfl | rfl
    · rw [join_self]
      exact nofun
    · cases f <;> exact nofun
  · cases g <;> exact nofun

theorem ptr_join_ne_top {o₁ o₂ : Pointee} {n₁ n₂ : Nullness} (ho : (o₁.join? o₂).isSome)
    (hn : (n₁.join? n₂).isSome) : (ptr o₁ n₁).join (ptr o₂ n₂) ≠ top := by
  obtain ⟨o, ho⟩ := Option.isSome_iff_exists.mp ho
  obtain ⟨n, hn⟩ := Option.isSome_iff_exists.mp hn
  unfold join
  split_ifs
  · exact nofun
  · simp [ho, hn]

/-- Only an empty intersection is joined to `top`, and that of two nullable references. -/
theorem join_ne_top (hac : a ≤ c) (hbc : b ≤ c) (htop : c ≠ .top) (hvacant : ¬ c.Vacant)
    (hnull : a.onlyNullShared b = false) : a.join b ≠ .top := by
  by_cases ha : a = .bottom
  · rw [ha, bottom_join]
    exact ne_top_of_le hbc htop
  by_cases hb : b = .bottom
  · rw [hb, join_bottom]
    exact ne_top_of_le hac htop
  cases c with
  | top => exact absurd rfl htop
  | bottom => exact absurd (le_bot_iff.mp hac) ha
  | int l h =>
    obtain ⟨l₁, h₁, rfl, hl₁, hh₁⟩ := exists_of_le_int hac ha
    obtain ⟨l₂, h₂, rfl, hl₂, hh₂⟩ := exists_of_le_int hbc hb
    have hrange := toInt_le_of_not_vacant hvacant
    exact int_join_ne_top ((max_le hl₁ hl₂).trans (hrange.trans (le_min hh₁ hh₂)))
  | float x =>
    obtain ⟨y, rfl, hy⟩ := exists_of_le_float hac ha
    obtain ⟨z, rfl, hz⟩ := exists_of_le_float hbc hb
    exact float_join_ne_top hy hz
  | ptr o n =>
    obtain ⟨o₁, n₁, rfl, ho₁, hn₁⟩ := exists_of_le_ptr hac ha
    obtain ⟨o₂, n₂, rfl, ho₂, hn₂⟩ := exists_of_le_ptr hbc hb
    rcases Pointee.isSome_join? ho₁ ho₂ with ho | ⟨s₁, s₂, hne, rfl, rfl, rfl⟩
    · exact ptr_join_ne_top ho (Nullness.isSome_join? hn₁ hn₂)
    · -- a bound of two layouts that is not vacant has null, and so have both references
      have hn : n ≤ .null := Nullness.le_null_iff.mpr fun h => hvacant (h ▸ vacant_ptr_top)
      simp [onlyNullShared, hne, Nullness.le_null_iff.mp (hn₁.trans hn),
        Nullness.le_null_iff.mp (hn₂.trans hn)] at hnull
  | fn f =>
    obtain ⟨g, rfl, hg⟩ := exists_of_le_fn hac ha
    obtain ⟨i, rfl, hi⟩ := exists_of_le_fn hbc hb
    exact fn_join_ne_top hg hi
  | branch t f =>
    obtain ⟨t₁, f₁, rfl⟩ := exists_of_le_branch hac ha
    obtain ⟨t₂, f₂, rfl⟩ := exists_of_le_branch hbc hb
    unfold join
    split_ifs <;> exact nofun
  | ctrl | deadCtrl | mem => cases below_iff.mp hac <;> cases below_iff.mp hbc <;> simp_all [join]

theorem not_vacant_ty (layoutOf : Nat → StructId) (v : Value) : ¬ (v.ty layoutOf).Vacant :=
  fun h => h.2 layoutOf v (holds_iff_le.mpr le_rfl)

/-- `Ty.join` is the least upper bound, apart from kinds of values that have none: an empty
intersection is `top`. So the members of a join are those that the two types have in common. -/
theorem join_least (hnull : a.onlyNullShared b = false) :
    a.le (a.join b) ∧ b.le (a.join b) ∧
      (∀ c, ¬ c.Vacant → a.le c → b.le c → (a.join b).le c) ∧
      (∀ layoutOf v, (a.join b).holds layoutOf v ↔ a.holds layoutOf v ∧ b.holds layoutOf v) ∧
      (a.join b = .top → ∀ layoutOf v, ¬ (a.holds layoutOf v ∧ b.holds layoutOf v)) := by
  have hleast (c : Ty) (hc : ¬ c.Vacant) (hac : a ≤ c) (hbc : b ≤ c) : a.join b ≤ c := by
    by_cases htop : c = .top
    · rw [htop]
      exact le_top
    · exact join_le hac hbc (join_ne_top hac hbc htop hc hnull)
  have hmem (layoutOf : Nat → StructId) (v : Value) :
      (a.join b).holds layoutOf v ↔ a.holds layoutOf v ∧ b.holds layoutOf v := by
    constructor
    · exact fun h => ⟨holds_of_le (le_join_left a b) h, holds_of_le (le_join_right a b) h⟩
    · intro ⟨ha, hb⟩
      exact holds_iff_le.mpr
        (hleast _ (not_vacant_ty layoutOf v) (holds_iff_le.mp ha) (holds_iff_le.mp hb))
  refine ⟨le_join_left a b, le_join_right a b, hleast, hmem, fun htop layoutOf v h => ?_⟩
  have htopmem := (hmem layoutOf v).mpr h
  rw [htop] at htopmem
  exact nomatch htopmem

theorem join_least_nullable : (ref 0 true).onlyNullShared null = false ∧
    (ref 0 true).join null = null ∧
      ∀ layoutOf v, null.holds layoutOf v ↔
        (ref 0 true).holds layoutOf v ∧ null.holds layoutOf v :=
  ⟨rfl, rfl, (join_least (a := ref 0 true) (b := null) rfl).2.2.2.1⟩

/-- Kinds of values without any are above types that are joined to `top`. -/
theorem join_not_least :
    ((ref 0 false).le (.ptr .top .notNull) ∧ (ref 1 false).le (.ptr .top .notNull) ∧
        ¬ ((ref 0 false).join (ref 1 false)).le (.ptr .top .notNull)) ∧
      (ofInt 1).le (.int 2 1) ∧ (ofInt 2).le (.int 2 1) ∧
        ¬ ((ofInt 1).join (ofInt 2)).le (.int 2 1) := by
  decide

end Ty

end SeaNodes
