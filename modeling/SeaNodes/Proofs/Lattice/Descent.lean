import Mathlib.Tactic.NormNum
import SeaNodes.Lattice.Basic

namespace SeaNodes

theorem toInt_min (x y : Int64) : (min x y).toInt = min x.toInt y.toInt := by
  show (if x ≤ y then x else y).toInt = _
  rw [Int.min_def]
  by_cases h : x ≤ y
  · rw [if_pos h, if_pos (Int64.le_iff_toInt_le.mp h)]
  · rw [if_neg h, if_neg (mt Int64.le_iff_toInt_le.mpr h)]

theorem toInt_max (x y : Int64) : (max x y).toInt = max x.toInt y.toInt := by
  show (if x ≤ y then y else x).toInt = _
  rw [Int.max_def]
  by_cases h : x ≤ y
  · rw [if_pos h, if_pos (Int64.le_iff_toInt_le.mp h)]
  · rw [if_neg h, if_neg (mt Int64.le_iff_toInt_le.mpr h)]

namespace Ty

variable {a b : Ty}

/-- How often a type can still go down. A range that holds nothing is above all others. -/
def rank : Ty → Nat
  | .int lo hi => (2 ^ 64 + 8 - (hi.toInt - lo.toInt)).toNat
  | t => t.height

theorem rank_int_bounds (lo hi : Int64) :
    9 ≤ (int lo hi).rank ∧ (int lo hi).rank < 2 ^ 65 + 16 ∧
      ((int lo hi).rank : Int) = 2 ^ 64 + 8 - (hi.toInt - lo.toInt) := by
  have := lo.toInt_lt
  have := lo.le_toInt
  have := hi.toInt_lt
  have := hi.le_toInt
  simp only [rank]
  omega

theorem rank_le_height (t : Ty) : t.rank ≤ t.height := by
  cases t with
  | int lo hi =>
    have := lo.toInt_lt
    have := lo.le_toInt
    have := hi.toInt_lt
    have := hi.le_toInt
    have hpow : Nat.pow 2 65 = 2 ^ 65 := rfl
    simp only [rank, height, hpow]
    omega
  | _ => exact le_rfl

/-- Between the ends of the lattice, all but ranges are low. -/
theorem rank_bounds (htop : a ≠ top) (hbottom : a ≠ bottom) :
    0 < a.rank ∧ (a.isInt = false → a.rank ≤ 4) := by
  cases a with
  | top => exact absurd rfl htop
  | bottom => exact absurd rfl hbottom
  | int lo hi => exact ⟨Nat.lt_of_lt_of_le (by decide) (rank_int_bounds lo hi).1, fun h => nomatch h⟩
  | ptr obj nil => cases obj <;> cases nil <;> simp [rank, height]
  | branch t f => cases t <;> cases f <;> simp [rank, height]
  | float v => cases v <;> simp [rank, height]
  | fn f => cases f <;> simp [rank, height]
  | _ => simp [rank, height]

theorem rank_lt_top (h : a ≠ top) : a.rank < top.rank := by
  have htop : top.rank = 2 ^ 65 + 16 := rfl
  rw [htop]
  by_cases hbottom : a = bottom
  · rw [hbottom]
    decide
  · cases a with
    | int lo hi => exact (rank_int_bounds lo hi).2.1
    | _ => exact Nat.lt_of_le_of_lt ((rank_bounds h hbottom).2 rfl) (by decide)

theorem rank_bottom_lt (h : a ≠ bottom) : bottom.rank < a.rank := by
  by_cases htop : a = top
  · rw [htop]
    decide
  · exact (rank_bounds htop h).1

/-- What the meet of two types can be. -/
inductive MeetCase : Ty → Ty → Ty → Prop where
  | same (a : Ty) : MeetCase a a a
  | topLeft (b : Ty) : MeetCase .top b b
  | topRight (a : Ty) : MeetCase a .top a
  | conflict (a b : Ty) : MeetCase a b .bottom
  | liveDead : MeetCase .ctrl .deadCtrl .ctrl
  | deadLive : MeetCase .deadCtrl .ctrl .ctrl
  | int (l₁ h₁ l₂ h₂ : Int64) :
      MeetCase (.int l₁ h₁) (.int l₂ h₂) (.int (min l₁ l₂) (max h₁ h₂))
  | float (v w : Option Double) : MeetCase (.float v) (.float w) (.float none)
  | ptr (o₁ o₂ : Pointee) (n₁ n₂ : Nullness) :
      MeetCase (.ptr o₁ n₁) (.ptr o₂ n₂) (.ptr (o₁.meet o₂) (n₁.meet n₂))
  | fn (f h : Option Nat) : MeetCase (.fn f) (.fn h) (.fn none)
  | branch (t₁ f₁ t₂ f₂ : Bool) :
      MeetCase (.branch t₁ f₁) (.branch t₂ f₂) (.branch (t₁ || t₂) (f₁ || f₂))

theorem meetCase (a b : Ty) : MeetCase a b (a.meet b) := by
  generalize hm : a.meet b = m
  unfold meet at hm
  split_ifs at hm with heq
  · subst heq hm
    exact .same a
  · split at hm <;> subst hm <;> constructor

theorem int_eq_int_iff {l₁ h₁ l₂ h₂ : Int64} :
    int l₁ h₁ = int l₂ h₂ ↔ l₁.toInt = l₂.toInt ∧ h₁.toInt = h₂.toInt := by
  rw [Ty.int.injEq, Int64.toInt_inj, Int64.toInt_inj]

/-- Meeting never goes up. -/
theorem rank_meet_lt (h : a.meet b ≠ a) : (a.meet b).rank < a.rank := by
  have hcase := meetCase a b
  generalize a.meet b = m at h hcase
  cases hcase with
  | same => exact absurd rfl h
  | topLeft => exact rank_lt_top h
  | topRight => exact absurd rfl h
  | conflict => exact rank_bottom_lt (Ne.symm h)
  | liveDead => exact absurd rfl h
  | deadLive => decide
  | int l₁ h₁ l₂ h₂ =>
    have hrank := (rank_int_bounds l₁ h₁).2.2
    have hrank' := (rank_int_bounds (min l₁ l₂) (max h₁ h₂)).2.2
    rw [toInt_min, toInt_max] at hrank'
    rw [Ne, int_eq_int_iff, toInt_min, toInt_max] at h
    omega
  | float v w =>
    cases v with
    | none => exact absurd rfl h
    | some x => exact Nat.lt_succ_self 1
  | ptr o₁ o₂ n₁ n₂ =>
    cases o₁ <;> cases o₂ <;> cases n₁ <;> cases n₂ <;>
      simp_all [rank, height, Pointee.meet, Nullness.meet] <;> split_ifs <;> simp_all
  | fn f f' =>
    cases f with
    | none => exact absurd rfl h
    | some i => exact Nat.lt_succ_self 1
  | branch t₁ f₁ t₂ f₂ =>
    cases t₁ <;> cases f₁ <;> cases t₂ <;> cases f₂ <;> simp_all [rank, height]

theorem rank_anyInt_le (h : a.isInt) : anyInt.rank ≤ a.rank := by
  cases a with
  | int lo hi => exact (rank_int_bounds lo hi).1
  | _ => exact nomatch h

@[simp] theorem meet_self (a : Ty) : a.meet a = a := by
  unfold meet
  rw [if_pos rfl]

@[simp] theorem meet_top (a : Ty) : a.meet top = a := by
  cases a <;> rfl

@[simp] theorem top_meet (b : Ty) : top.meet b = b := by
  cases b <;> rfl

@[simp] theorem bottom_meet (b : Ty) : bottom.meet b = bottom := by
  cases b <;> rfl

theorem int_meet_int (l₁ h₁ l₂ h₂ : Int64) :
    (int l₁ h₁).meet (int l₂ h₂) = int (min l₁ l₂) (max h₁ h₂) := by
  unfold meet
  split_ifs with heq
  · rw [int_eq_int_iff] at heq
    rw [int_eq_int_iff, toInt_min, toInt_max]
    omega
  · rfl

theorem meet_meet_self (a b : Ty) : (a.meet b).meet b = a.meet b := by
  have hcase := meetCase a b
  generalize a.meet b = m at hcase
  cases hcase with
  | same | topLeft => exact meet_self _
  | topRight => exact meet_top _
  | conflict => exact bottom_meet _
  | liveDead | deadLive => rfl
  | int l₁ h₁ l₂ h₂ =>
    rw [int_meet_int, int_eq_int_iff]
    simp only [toInt_min, toInt_max]
    omega
  | float v w => cases w <;> rfl
  | ptr o₁ o₂ n₁ n₂ =>
    unfold meet
    cases o₁ <;> cases o₂ <;> cases n₁ <;> cases n₂ <;>
      simp [Pointee.meet, Nullness.meet] <;> split_ifs <;> simp_all
  | fn f f' => cases f' <;> rfl
  | branch t₁ f₁ t₂ f₂ => cases t₁ <;> cases f₁ <;> cases t₂ <;> cases f₂ <;> rfl

theorem anyInt_meet (h : (a.meet b).isInt) : anyInt.meet b = anyInt := by
  have hany {t : Ty} (ht : t.isInt) : anyInt.meet t = anyInt := by
    cases t with
    | int lo hi =>
      have hlo := lo.le_toInt
      have hhi := hi.toInt_lt
      have hmin : Int64.minValue.toInt = -2 ^ 63 := by decide
      have hmax : Int64.maxValue.toInt = 2 ^ 63 - 1 := by decide
      rw [anyInt, int_meet_int, int_eq_int_iff, toInt_min, toInt_max]
      omega
    | _ => exact nomatch ht
  have hcase := meetCase a b
  generalize a.meet b = m at hcase h
  cases hcase with
  | same | topLeft => exact hany h
  | topRight => exact meet_top _
  | int => exact hany rfl
  | _ => exact nomatch h

end Ty

end SeaNodes
