import Mathlib.Order.Lattice
import SeaNodes.Proofs.Lattice.Descent

namespace SeaNodes

namespace Pointee

theorem meet_comm (a b : Pointee) : a.meet b = b.meet a := by
  cases a <;> cases b <;> simp only [meet, reduceCtorEq, if_false, if_true]
  case layout.layout s s' =>
    by_cases h : layout s = layout s'
    · rw [if_pos h, if_pos h.symm, h]
    · rw [if_neg h, if_neg (Ne.symm h)]

theorem meet_assoc (a b c : Pointee) : (a.meet b).meet c = a.meet (b.meet c) := by
  cases a <;> cases b <;> cases c <;> simp only [meet, reduceCtorEq, if_false, ite_self] <;>
    split_ifs <;> simp_all

@[simp] theorem meet_self (a : Pointee) : a.meet a = a := by
  cases a <;> simp [meet]

instance : Min Pointee := ⟨meet⟩

instance : SemilatticeInf Pointee := .mk' meet_comm meet_assoc meet_self

theorem any_le (a : Pointee) : any ≤ a := by
  rw [← inf_eq_left]
  cases a <;> rfl

theorem le_top (a : Pointee) : a ≤ top := by
  rw [← inf_eq_left]
  cases a <;> rfl

theorem join?_cases {a b c : Pointee} (h : a.join? b = some c) :
    c = a ∧ b ≤ a ∨ c = b ∧ a ≤ b := by
  unfold join? at h
  split at h
  · exact .inr ⟨(Option.some.inj h).symm, any_le _⟩
  · exact .inl ⟨(Option.some.inj h).symm, any_le _⟩
  · exact .inl ⟨(Option.some.inj h).symm, le_top _⟩
  · exact .inr ⟨(Option.some.inj h).symm, le_top _⟩
  · split_ifs at h with heq
    exact .inl ⟨(Option.some.inj h).symm, heq.ge⟩

end Pointee

namespace Nullness

theorem meet_comm (a b : Nullness) : a.meet b = b.meet a := by
  cases a <;> cases b <;> rfl

theorem meet_assoc (a b c : Nullness) : (a.meet b).meet c = a.meet (b.meet c) := by
  cases a <;> cases b <;> cases c <;> rfl

@[simp] theorem meet_self (a : Nullness) : a.meet a = a := by
  cases a <;> rfl

instance : Min Nullness := ⟨meet⟩

instance : SemilatticeInf Nullness := .mk' meet_comm meet_assoc meet_self

theorem maybe_le (a : Nullness) : maybe ≤ a := by
  rw [← inf_eq_left]
  cases a <;> rfl

theorem join?_cases {a b c : Nullness} (h : a.join? b = some c) :
    c = a ∧ b ≤ a ∨ c = b ∧ a ≤ b := by
  unfold join? at h
  split at h
  · exact .inr ⟨(Option.some.inj h).symm, maybe_le _⟩
  · exact .inl ⟨(Option.some.inj h).symm, maybe_le _⟩
  · split_ifs at h with heq
    exact .inl ⟨(Option.some.inj h).symm, heq.ge⟩

end Nullness

namespace Ty

variable {a a' b c : Ty}

/-- What can stand below a type. -/
inductive Below : Ty → Ty → Prop where
  | refl (a : Ty) : Below a a
  | top (a : Ty) : Below a .top
  | bottom (b : Ty) : Below .bottom b
  | live : Below .ctrl .deadCtrl
  | int {l h l' h' : Int64} (hl : l'.toInt ≤ l.toInt) (hh : h.toInt ≤ h'.toInt) :
      Below (.int l' h') (.int l h)
  | float (v : Option Double) : Below (.float none) (.float v)
  | ptr {o o' : Pointee} {n n' : Nullness} (ho : o' ≤ o) (hn : n' ≤ n) :
      Below (.ptr o' n') (.ptr o n)
  | fn (f : Option Nat) : Below (.fn none) (.fn f)
  | branch {t f t' f' : Bool} (ht : t → t') (hf : f → f') : Below (.branch t' f') (.branch t f)

theorem ptr_meet_ptr (o o' : Pointee) (n n' : Nullness) :
    (ptr o n).meet (ptr o' n') = ptr (o ⊓ o') (n ⊓ n') := by
  unfold meet
  split_ifs with heq
  · obtain ⟨rfl, rfl⟩ := Ty.ptr.inj heq
    rw [inf_idem, inf_idem]
  · rfl

theorem branch_meet_branch (t f t' f' : Bool) :
    (branch t f).meet (branch t' f') = branch (t || t') (f || f') := by
  cases t <;> cases f <;> cases t' <;> cases f' <;> rfl

theorem le_iff_meet_eq : a.le b ↔ a.meet b = a := beq_iff_eq

theorem le_iff_below : a.le b ↔ Below a b := by
  rw [le_iff_meet_eq]
  constructor
  · intro h
    have hcase := meetCase a b
    generalize a.meet b = m at h hcase
    cases hcase with
    | same => exact .refl _
    | topLeft => exact h ▸ .refl _
    | topRight => exact .top _
    | conflict => exact h ▸ .bottom _
    | liveDead => exact .live
    | deadLive => exact nomatch h
    | int l₁ h₁ l₂ h₂ =>
      rw [int_eq_int_iff, toInt_min, toInt_max] at h
      exact .int (by omega) (by omega)
    | float v w => exact h ▸ .float w
    | ptr o₁ o₂ n₁ n₂ =>
      obtain ⟨ho, hn⟩ := Ty.ptr.inj h
      exact .ptr (inf_eq_left.mp ho) (inf_eq_left.mp hn)
    | fn f g => exact h ▸ .fn g
    | branch t₁ f₁ t₂ f₂ =>
      obtain ⟨ht, hf⟩ := Ty.branch.inj h
      exact .branch (fun h₂ => by rw [← ht, h₂, Bool.or_true]) fun h₂ => by rw [← hf, h₂, Bool.or_true]
  · intro h
    cases h with
    | refl => exact meet_self a
    | top => exact meet_top a
    | bottom => exact bottom_meet b
    | live => rfl
    | int hl hh =>
      rw [int_meet_int, int_eq_int_iff, toInt_min, toInt_max]
      omega
    | float v => cases v <;> rfl
    | ptr ho hn => rw [ptr_meet_ptr, inf_eq_left.mpr ho, inf_eq_left.mpr hn]
    | fn f => cases f <;> rfl
    | @branch t f t' f' ht hf =>
      rw [branch_meet_branch]
      cases t <;> cases f <;> simp_all

namespace Below

theorem trans (hab : Below a b) (hbc : Below b c) : Below a c := by
  cases hab with
  | refl => exact hbc
  | top =>
    cases hbc with
    | refl | top => exact .top a
  | bottom => exact .bottom c
  | live =>
    cases hbc with
    | refl => exact .live
    | top => exact .top _
  | int hl hh =>
    cases hbc with
    | refl => exact .int hl hh
    | top => exact .top _
    | int hl' hh' => exact .int (hl.trans hl') (hh'.trans hh)
  | float v =>
    cases hbc with
    | refl => exact .float v
    | top => exact .top _
    | float v' => exact .float v'
  | ptr ho hn =>
    cases hbc with
    | refl => exact .ptr ho hn
    | top => exact .top _
    | ptr ho' hn' => exact .ptr (ho.trans ho') (hn.trans hn')
  | fn f =>
    cases hbc with
    | refl => exact .fn f
    | top => exact .top _
    | fn f' => exact .fn f'
  | branch ht hf =>
    cases hbc with
    | refl => exact .branch ht hf
    | top => exact .top _
    | branch ht' hf' => exact .branch (fun h => ht (ht' h)) fun h => hf (hf' h)

theorem antisymm (hab : Below a b) (hba : Below b a) : a = b := by
  cases hab with
  | refl => rfl
  | top | bottom | float | fn =>
    cases hba <;> rfl
  | live => exact nomatch hba
  | int hl hh =>
    cases hba with
    | refl => rfl
    | int hl' hh' => exact int_eq_int_iff.mpr ⟨le_antisymm hl hl', le_antisymm hh' hh⟩
  | ptr ho hn =>
    cases hba with
    | refl => rfl
    | ptr ho' hn' => rw [le_antisymm ho ho', le_antisymm hn hn']
  | branch ht hf =>
    cases hba with
    | refl => rfl
    | branch ht' hf' => rw [Bool.eq_iff_iff.mpr ⟨ht', ht⟩, Bool.eq_iff_iff.mpr ⟨hf', hf⟩]

theorem meet_left (a b : Ty) : Below (a.meet b) a := by
  have hcase := meetCase a b
  generalize a.meet b = m at hcase
  cases hcase with
  | same | topRight | liveDead => exact .refl _
  | topLeft => exact .top _
  | conflict => exact .bottom a
  | deadLive => exact .live
  | int l₁ h₁ l₂ h₂ =>
    refine .int ?_ ?_
    · rw [toInt_min]
      exact min_le_left ..
    · rw [toInt_max]
      exact le_max_left ..
  | float v => exact .float v
  | ptr => exact .ptr inf_le_left inf_le_left
  | fn f => exact .fn f
  | branch => exact .branch (fun h => by rw [h, Bool.true_or]) fun h => by rw [h, Bool.true_or]

theorem meet_right (a b : Ty) : Below (a.meet b) b :=
  le_iff_below.mp (le_iff_meet_eq.mpr (meet_meet_self a b))

/-- Two types of different kinds have only `bottom` below both. -/
theorem le_meet (hca : Below c a) (hcb : Below c b) : Below c (a.meet b) := by
  by_cases hab : a = b
  · subst hab
    rwa [meet_self]
  cases hca with
  | refl _ =>
    rw [le_iff_meet_eq.mp (le_iff_below.mpr hcb)]
    exact .refl _
  | top => rwa [top_meet]
  | bottom => exact .bottom _
  | live =>
    cases hcb with
    | refl => exact .refl _
    | top => exact .live
    | live => exact .live
  | int hl hh =>
    cases hcb with
    | refl =>
      rw [int_meet_int]
      exact .int (by rw [toInt_min]; omega) (by rw [toInt_max]; omega)
    | top => exact .int hl hh
    | int hl' hh' =>
      rw [int_meet_int]
      exact .int (by rw [toInt_min]; omega) (by rw [toInt_max]; omega)
  | float v =>
    cases hcb with
    | refl => cases v <;> exact .refl _
    | top => exact .float v
    | float v' =>
      unfold meet
      rw [if_neg hab]
      exact .refl _
  | ptr ho hn =>
    cases hcb with
    | refl =>
      rw [ptr_meet_ptr]
      exact .ptr (le_inf ho le_rfl) (le_inf hn le_rfl)
    | top => exact .ptr ho hn
    | ptr ho' hn' =>
      rw [ptr_meet_ptr]
      exact .ptr (le_inf ho ho') (le_inf hn hn')
  | fn f =>
    cases hcb with
    | refl => cases f <;> exact .refl _
    | top => exact .fn f
    | fn f' =>
      unfold meet
      rw [if_neg hab]
      exact .refl _
  | branch ht hf =>
    cases hcb with
    | refl =>
      rw [branch_meet_branch]
      exact .branch (fun h => (Bool.or_eq_true_iff.mp h).elim ht id) fun h =>
        (Bool.or_eq_true_iff.mp h).elim hf id
    | top => exact .branch ht hf
    | branch ht' hf' =>
      rw [branch_meet_branch]
      exact .branch (fun h => (Bool.or_eq_true_iff.mp h).elim ht ht') fun h =>
        (Bool.or_eq_true_iff.mp h).elim hf hf'

end Below

instance : SemilatticeInf Ty where
  le a b := a.le b
  le_refl a := le_iff_below.mpr (.refl a)
  le_trans _ _ _ hab hbc := le_iff_below.mpr ((le_iff_below.mp hab).trans (le_iff_below.mp hbc))
  le_antisymm _ _ hab hba := (le_iff_below.mp hab).antisymm (le_iff_below.mp hba)
  inf := meet
  inf_le_left a b := le_iff_below.mpr (.meet_left a b)
  inf_le_right a b := le_iff_below.mpr (.meet_right a b)
  le_inf _ _ _ hca hcb := le_iff_below.mpr ((le_iff_below.mp hca).le_meet (le_iff_below.mp hcb))

instance : BoundedOrder Ty where
  top := .top
  le_top a := le_iff_below.mpr (.top a)
  bot := .bottom
  bot_le b := le_iff_below.mpr (.bottom b)

theorem below_iff : a ≤ b ↔ Below a b := le_iff_below

theorem int_le_int {l h l' h' : Int64} (hl : l'.toInt ≤ l.toInt) (hh : h.toInt ≤ h'.toInt) :
    int l' h' ≤ int l h :=
  below_iff.mpr (.int hl hh)

theorem branch_le_branch {t f t' f' : Bool} (ht : t → t') (hf : f → f') :
    branch t' f' ≤ branch t f :=
  below_iff.mpr (.branch ht hf)

theorem anyInt_le (h : a.isInt) : anyInt ≤ a := by
  have hmeet : (a.meet a).isInt := by rwa [meet_self]
  exact le_iff_meet_eq.mpr (anyInt_meet hmeet)

theorem ne_top_of_le (h : a' ≤ a) (ha : a ≠ top) : a' ≠ top := by
  rintro rfl
  exact ha (top_le_iff.mp h)

theorem exists_of_int_le {l' h' : Int64} (h : int l' h' ≤ a) (ha : a ≠ top) :
    ∃ l h, a = int l h ∧ l'.toInt ≤ l.toInt ∧ h.toInt ≤ h'.toInt := by
  cases below_iff.mp h with
  | refl => exact ⟨l', h', rfl, le_rfl, le_rfl⟩
  | top => exact absurd rfl ha
  | int hl hh => exact ⟨_, _, rfl, hl, hh⟩

theorem exists_of_ptr_le {o' : Pointee} {n' : Nullness} (h : ptr o' n' ≤ a) (ha : a ≠ top) :
    ∃ o n, a = ptr o n ∧ o' ≤ o ∧ n' ≤ n := by
  cases below_iff.mp h with
  | refl => exact ⟨o', n', rfl, le_rfl, le_rfl⟩
  | top => exact absurd rfl ha
  | ptr ho hn => exact ⟨_, _, rfl, ho, hn⟩

theorem exists_of_branch_le {t' f' : Bool} (h : branch t' f' ≤ a) (ha : a ≠ top) :
    ∃ t f, a = branch t f ∧ (t → t') ∧ (f → f') := by
  cases below_iff.mp h with
  | refl => exact ⟨t', f', rfl, id, id⟩
  | top => exact absurd rfl ha
  | branch ht hf => exact ⟨_, _, rfl, ht, hf⟩

/-- What the join of two types can be. -/
inductive JoinCase : Ty → Ty → Ty → Prop where
  | same (a : Ty) : JoinCase a a a
  | bottomLeft (b : Ty) : JoinCase .bottom b b
  | bottomRight (a : Ty) : JoinCase a .bottom a
  | apart (a b : Ty) : JoinCase a b .top
  | liveDead : JoinCase .ctrl .deadCtrl .deadCtrl
  | deadLive : JoinCase .deadCtrl .ctrl .deadCtrl
  | int (l₁ h₁ l₂ h₂ : Int64) :
      JoinCase (.int l₁ h₁) (.int l₂ h₂) (.int (max l₁ l₂) (min h₁ h₂))
  | floatLeft (v : Option Double) : JoinCase (.float none) (.float v) (.float v)
  | floatRight (v : Option Double) : JoinCase (.float v) (.float none) (.float v)
  | ptr {o₁ o₂ o : Pointee} {n₁ n₂ n : Nullness} (ho : o₁.join? o₂ = some o)
      (hn : n₁.join? n₂ = some n) : JoinCase (.ptr o₁ n₁) (.ptr o₂ n₂) (.ptr o n)
  | fnLeft (f : Option Nat) : JoinCase (.fn none) (.fn f) (.fn f)
  | fnRight (f : Option Nat) : JoinCase (.fn f) (.fn none) (.fn f)
  | branch (t₁ f₁ t₂ f₂ : Bool) :
      JoinCase (.branch t₁ f₁) (.branch t₂ f₂) (.branch (t₁ && t₂) (f₁ && f₂))

theorem joinCase (a b : Ty) : JoinCase a b (a.join b) := by
  generalize hj : a.join b = j
  unfold join at hj
  split_ifs at hj with heq
  · subst heq hj
    exact .same a
  · split at hj
    case h_7 =>
      split_ifs at hj <;> subst hj <;> constructor
    case h_10 =>
      split at hj
      · subst hj
        exact .ptr ‹_› ‹_›
      · subst hj
        exact .apart ..
    all_goals subst hj; constructor

namespace JoinCase

variable {j : Ty}

theorem left (h : JoinCase a b j) : Below a j := by
  cases h with
  | same | bottomRight | floatRight | fnRight | deadLive => exact .refl _
  | bottomLeft b => exact .bottom b
  | apart => exact .top a
  | liveDead => exact .live
  | int l₁ h₁ l₂ h₂ =>
    refine .int ?_ ?_
    · rw [toInt_max]
      exact le_max_left ..
    · rw [toInt_min]
      exact min_le_left ..
  | floatLeft v => exact .float v
  | ptr ho hn =>
    refine .ptr ?_ ?_
    · rcases Pointee.join?_cases ho with ⟨rfl, -⟩ | ⟨rfl, hle⟩
      · exact le_rfl
      · exact hle
    · rcases Nullness.join?_cases hn with ⟨rfl, -⟩ | ⟨rfl, hle⟩
      · exact le_rfl
      · exact hle
  | fnLeft f => exact .fn f
  | branch =>
    exact .branch (fun h => (Bool.and_eq_true_iff.mp h).1) fun h => (Bool.and_eq_true_iff.mp h).1

theorem right (h : JoinCase a b j) : Below b j := by
  cases h with
  | same | bottomLeft | floatLeft | fnLeft | liveDead => exact .refl _
  | bottomRight a => exact .bottom a
  | apart => exact .top b
  | deadLive => exact .live
  | int l₁ h₁ l₂ h₂ =>
    refine .int ?_ ?_
    · rw [toInt_max]
      exact le_max_right ..
    · rw [toInt_min]
      exact min_le_right ..
  | floatRight v => exact .float v
  | ptr ho hn =>
    refine .ptr ?_ ?_
    · rcases Pointee.join?_cases ho with ⟨rfl, hle⟩ | ⟨rfl, -⟩
      · exact hle
      · exact le_rfl
    · rcases Nullness.join?_cases hn with ⟨rfl, hle⟩ | ⟨rfl, -⟩
      · exact hle
      · exact le_rfl
  | fnRight f => exact .fn f
  | branch =>
    exact .branch (fun h => (Bool.and_eq_true_iff.mp h).2) fun h => (Bool.and_eq_true_iff.mp h).2

theorem least (h : JoinCase a b j) (hj : j ≠ .top) (hac : a ≤ c) (hbc : b ≤ c) : j ≤ c := by
  by_cases htop : c = .top
  · rw [htop]
    exact le_top
  cases h with
  | same | bottomRight | floatRight | fnRight | deadLive => exact hac
  | bottomLeft | floatLeft | fnLeft | liveDead => exact hbc
  | apart => exact absurd rfl hj
  | int l₁ h₁ l₂ h₂ =>
    obtain ⟨l, h, rfl, hl₁, hh₁⟩ := exists_of_int_le hac htop
    obtain ⟨_, _, heq, hl₂, hh₂⟩ := exists_of_int_le hbc htop
    obtain ⟨rfl, rfl⟩ := Ty.int.inj heq
    apply int_le_int
    · rw [toInt_max]
      exact max_le hl₁ hl₂
    · rw [toInt_min]
      exact le_min hh₁ hh₂
  | ptr ho hn =>
    obtain ⟨o', n', rfl, ho₁, hn₁⟩ := exists_of_ptr_le hac htop
    obtain ⟨_, _, heq, ho₂, hn₂⟩ := exists_of_ptr_le hbc htop
    obtain ⟨rfl, rfl⟩ := Ty.ptr.inj heq
    refine below_iff.mpr (.ptr ?_ ?_)
    · rcases Pointee.join?_cases ho with ⟨rfl, -⟩ | ⟨rfl, -⟩
      · exact ho₁
      · exact ho₂
    · rcases Nullness.join?_cases hn with ⟨rfl, -⟩ | ⟨rfl, -⟩
      · exact hn₁
      · exact hn₂
  | branch t₁ f₁ t₂ f₂ =>
    obtain ⟨t, f, rfl, ht₁, hf₁⟩ := exists_of_branch_le hac htop
    obtain ⟨_, _, heq, ht₂, hf₂⟩ := exists_of_branch_le hbc htop
    obtain ⟨rfl, rfl⟩ := Ty.branch.inj heq
    apply branch_le_branch
    · intro ht
      rw [ht₁ ht, ht₂ ht, Bool.and_true]
    · intro hf
      rw [hf₁ hf, hf₂ hf, Bool.and_true]

end JoinCase

theorem le_join_left (a b : Ty) : a ≤ a.join b := below_iff.mpr (joinCase a b).left

theorem le_join_right (a b : Ty) : b ≤ a.join b := below_iff.mpr (joinCase a b).right

theorem join_le (hac : a ≤ c) (hbc : b ≤ c) (h : a.join b ≠ .top) : a.join b ≤ c :=
  (joinCase a b).least h hac hbc

end Ty

end SeaNodes
