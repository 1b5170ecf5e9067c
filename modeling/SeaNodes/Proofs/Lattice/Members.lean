import SeaNodes.Eval.Machine
import SeaNodes.Opt.Typing
import SeaNodes.Proofs.Lattice.Descent

namespace SeaNodes

namespace Ty

/-- Whether a value is a member of a type. Nothing has type `top`, and control says nothing about
values. -/
def has : Ty → Value → Bool
  | .top, _ | .deadCtrl, _ => false
  | .bottom, _ | .ctrl, _ | .branch .., _ => true
  | .mem, v => v = .mem
  | .int lo hi, .int v => lo ≤ v ∧ v ≤ hi
  | .float x, .float y => x.all (· = y)
  | .ptr _ nil, .ref o => nil ≠ if o.isSome then .null else .notNull
  | .fn i, .fn j => i.all (· = j)
  | _, _ => false

variable {a b t : Ty} {v w : Value} {x y : Int64}

theorem has_int_iff {lo hi : Int64} :
    (int lo hi).has (.int x) ↔ lo.toInt ≤ x.toInt ∧ x.toInt ≤ hi.toInt := by
  simp only [has, decide_eq_true_eq, Int64.le_iff_toInt_le]

theorem exists_of_has_int {lo hi : Int64} (h : (int lo hi).has v) :
    ∃ x, v = .int x ∧ lo.toInt ≤ x.toInt ∧ x.toInt ≤ hi.toInt := by
  cases v with
  | int x => exact ⟨x, rfl, has_int_iff.mp h⟩
  | _ => exact nomatch h

theorem has_meet (h : a.has v ∨ b.has v) : (a.meet b).has v := by
  have hcase := meetCase a b
  generalize a.meet b = m at hcase
  cases hcase with
  | same => exact h.elim id id
  | topLeft | deadLive => exact h.resolve_left Bool.false_ne_true
  | topRight | liveDead => exact h.resolve_right Bool.false_ne_true
  | conflict | branch => rfl
  | int l₁ h₁ l₂ h₂ =>
    rcases h with h | h <;>
    · obtain ⟨x, rfl, hl, hh⟩ := exists_of_has_int h
      rw [has_int_iff, toInt_min, toInt_max]
      omega
  | float x y => cases v <;> simp_all [has]
  | ptr o₁ o₂ n₁ n₂ =>
    cases v with
    | ref o => cases n₁ <;> cases n₂ <;> cases o <;> simp_all [has, Nullness.meet]
    | _ => exact h.elim id id
  | fn f f' => cases v <;> simp_all [has]

theorem has_of_meet_eq (hmeet : a.meet b = a) (h : b.has v) : a.has v := by
  rw [← hmeet]
  exact has_meet (.inr h)

theorem has_int_join {l₁ h₁ l₂ h₂ : Int64} (ha : (int l₁ h₁).has v) (hb : (int l₂ h₂).has v) :
    (int (max l₁ l₂) (min h₁ h₂)).has v := by
  obtain ⟨x, rfl, hl₁, hh₁⟩ := exists_of_has_int ha
  obtain ⟨hl₂, hh₂⟩ := has_int_iff.mp hb
  rw [has_int_iff, toInt_max, toInt_min]
  omega

theorem has_ptr_join {o₁ o₂ o : Pointee} {n₁ n₂ n : Nullness} (ha : (ptr o₁ n₁).has v)
    (hb : (ptr o₂ n₂).has v) (hn : n₁.join? n₂ = some n) : (ptr o n).has v := by
  cases v with
  | ref r => cases n₁ <;> cases n₂ <;> cases hn <;> first | exact ha | exact hb
  | _ => exact ha

/-- What two types have in common is a member of their join, unless that is empty. -/
theorem has_join (ha : a.has v) (hb : b.has v) (h : a.join b ≠ top) : (a.join b).has v := by
  revert h
  unfold join
  split_ifs with hab
  · exact fun _ => ha
  · split
    case h_1 => exact fun _ => hb
    case h_2 => exact fun _ => ha
    case h_5 => exact fun _ => hb
    case h_6 => exact fun _ => ha
    case h_7 =>
      split_ifs
      · exact fun _ => has_int_join ha hb
      · exact fun h => absurd rfl h
    case h_8 => exact fun _ => hb
    case h_9 => exact fun _ => ha
    case h_10 =>
      split
      case h_1 hn => exact fun _ => has_ptr_join ha hb hn
      case h_2 => exact fun h => absurd rfl h
    case h_11 => exact fun _ => hb
    case h_12 => exact fun _ => ha
    case h_13 => exact fun _ => rfl
    all_goals exact fun h => absurd rfl h

theorem ne_top_of_has (h : a.has v) : a ≠ top := by
  rintro rfl
  exact nomatch h

theorem has_anyInt (x : Int64) : anyInt.has (.int x) := by
  have hmin : Int64.minValue.toInt = -2 ^ 63 := by decide
  have hmax : Int64.maxValue.toInt = 2 ^ 63 - 1 := by decide
  rw [anyInt, has_int_iff, hmin, hmax]
  have := x.le_toInt
  have := x.toInt_lt
  omega

theorem has_ofInt (x : Int64) : (ofInt x).has (.int x) := by
  rw [ofInt, has_int_iff]
  exact ⟨le_rfl, le_rfl⟩

theorem eq_of_has_ofInt (h : (ofInt x).has v) : v = .int x := by
  obtain ⟨y, rfl, hl, hh⟩ := exists_of_has_int h
  rw [Int64.toInt_inj.mp (le_antisymm hl hh)]

theorem has_ofBool (c : Bool) : (ofBool c).has (Activation.boolValue c) := has_ofInt _

theorem has_bool (c : Bool) : bool.has (Activation.boolValue c) := by
  cases c <;> rfl

theorem has_of_ofConst? (h : Value.ofConst? t = some v) : t.has v := by
  cases t with
  | int lo hi =>
    unfold Value.ofConst? at h
    dsimp only at h
    split_ifs at h with heq
    obtain rfl := Option.some.inj h
    subst heq
    exact has_ofInt lo
  | float x =>
    cases x with
    | none => exact nomatch h
    | some x =>
      obtain rfl := Option.some.inj h
      simp [has]
  | ptr o nil =>
    cases nil with
    | null =>
      obtain rfl := Option.some.inj h
      rfl
    | _ => exact nomatch h
  | fn f =>
    cases f with
    | none => exact nomatch h
    | some i =>
      obtain rfl := Option.some.inj h
      simp [has]
  | mem | ctrl =>
    obtain rfl := Option.some.inj h
    rfl
  | _ => exact nomatch h

theorem mayBeZero_int (lo hi : Int64) :
    (int lo hi).mayBeZero = (decide (lo ≤ 0) && decide (0 ≤ hi)) := rfl

theorem mayBeZero_ptr (o : Pointee) (nil : Nullness) :
    (ptr o nil).mayBeZero = (nil != .notNull) := rfl

theorem isTruthy_int (x : Int64) : (Value.int x).isTruthy = (x != 0) := rfl

theorem isTruthy_ref (o : Option Nat) : (Value.ref o).isTruthy = o.isSome := by
  cases o <;> rfl

theorem toInt_ofInt_of_bounds {i : Int} (hl : Int64.minValue.toInt ≤ i)
    (hh : i ≤ Int64.maxValue.toInt) : (Int64.ofInt i).toInt = i := by
  refine Int64.toInt_ofInt_of_le ?_ ?_
  · exact hl
  · exact Int.lt_of_le_of_lt hh (by decide)

theorem has_bounded {lo hi i : Int} {wrapped? : Option Int64} (hlo : lo ≤ i) (hhi : i ≤ hi)
    (hwrapped : ∀ e ∈ wrapped?, e = Int64.ofInt i) :
    (bounded lo hi wrapped?).has (.int (.ofInt i)) := by
  unfold bounded range?
  by_cases hfits : Int64.minValue.toInt ≤ lo ∧ lo ≤ Int64.maxValue.toInt ∧
      Int64.minValue.toInt ≤ hi ∧ hi ≤ Int64.maxValue.toInt
  · obtain ⟨h₁, h₂, h₃, h₄⟩ := hfits
    simp only [h₁, h₂, h₃, h₄, decide_true, Bool.and_self, if_true]
    rw [has_int_iff, toInt_ofInt_of_bounds h₁ h₂, toInt_ofInt_of_bounds h₃ h₄,
      toInt_ofInt_of_bounds (h₁.trans hlo) (hhi.trans h₄)]
    exact ⟨hlo, hhi⟩
  · have hnone : ¬ ((decide (Int64.minValue.toInt ≤ lo) && decide (lo ≤ Int64.maxValue.toInt)) &&
        (decide (Int64.minValue.toInt ≤ hi) && decide (hi ≤ Int64.maxValue.toInt))) = true := by
      simp only [Bool.and_eq_true, decide_eq_true_eq]
      exact fun h => hfits ⟨h.1.1, h.1.2, h.2.1, h.2.2⟩
    rw [if_neg hnone]
    cases wrapped? with
    | none => exact has_anyInt _
    | some e =>
      rw [hwrapped e rfl]
      exact has_ofInt _

theorem has_arith {n : NodeId} {op : ArithOp} (ha : a.has (.int x)) (hb : b.has (.int y))
    (hv : Activation.arith n op x y = .ok v) : (a.arith op b).has v := by
  have hint : ∃ z, v = .int z := by
    cases op <;> simp only [Activation.arith] at hv
    case div =>
      split_ifs at hv
      exact ⟨_, (Except.ok.inj hv).symm⟩
    all_goals exact ⟨_, (Except.ok.inj hv).symm⟩
  unfold arith
  split
  case h_1 => exact nomatch ha
  case h_2 => exact nomatch hb
  case h_3 al ah bl bh =>
    have hx := has_int_iff.mp ha
    have hy := has_int_iff.mp hb
    have hconst (h : (al == ah && bl == bh) = true) : al = x ∧ bl = y := by
      simp only [Bool.and_eq_true, beq_iff_eq] at h
      obtain ⟨rfl, rfl⟩ := h
      rw [← Int64.toInt_inj, ← Int64.toInt_inj]
      omega
    cases op with
    | add =>
      obtain rfl := Except.ok.inj hv
      have hsum : x + y = Int64.ofInt (x.toInt + y.toInt) := by
        rw [Int64.ofInt_add, Int64.ofInt_toInt, Int64.ofInt_toInt]
      rw [hsum]
      refine has_bounded (by omega) (by omega) fun e he => ?_
      split_ifs at he with hc
      · rw [← hsum, ← (hconst hc).1, ← (hconst hc).2]
        exact (Option.some.inj he).symm
      · exact nomatch he
    | sub =>
      obtain rfl := Except.ok.inj hv
      have hdiff : x - y = Int64.ofInt (x.toInt - y.toInt) := by
        rw [Int64.ofInt_sub, Int64.ofInt_toInt, Int64.ofInt_toInt]
      rw [hdiff]
      refine has_bounded (by omega) (by omega) fun e he => ?_
      split_ifs at he with hc
      · rw [← hdiff, ← (hconst hc).1, ← (hconst hc).2]
        exact (Option.some.inj he).symm
      · exact nomatch he
    | mul =>
      obtain rfl := Except.ok.inj hv
      dsimp only
      split_ifs with hzero hc
      · have hprod : x * y = 0 := by
          rcases hzero with hz | hz
          · rw [hz] at ha
            rw [Value.int.inj (eq_of_has_ofInt ha), Int64.zero_mul]
          · rw [hz] at hb
            rw [Value.int.inj (eq_of_has_ofInt hb), Int64.mul_zero]
        rw [hprod]
        exact has_ofInt 0
      · rw [(hconst hc).1, (hconst hc).2]
        exact has_ofInt _
      · exact has_anyInt _
    | div =>
      obtain ⟨z, rfl⟩ := hint
      dsimp only
      split_ifs with hc
      · simp only [Activation.arith] at hv
        split_ifs at hv
        rw [Bool.and_eq_true] at hc
        rw [(hconst hc.1).1, (hconst hc.1).2, ← Value.int.inj (Except.ok.inj hv)]
        exact has_ofInt _
      · exact has_anyInt _
  case h_4 =>
    obtain ⟨z, rfl⟩ := hint
    exact has_anyInt z

theorem has_floatArith {op : ArithOp} {p q : Double} (ha : a.has (.float p))
    (hb : b.has (.float q)) : (a.floatArith op b).has (.float (op.evalFloat p q)) := by
  unfold floatArith
  split
  case h_1 => exact nomatch ha
  case h_2 => exact nomatch hb
  case h_3 => simp_all [has, ofDouble]
  case h_4 => rfl

theorem eq_of_int? (h : a.int? = some y) (ha : a.has v) : v = .int y := by
  cases a with
  | int lo hi =>
    simp only [int?] at h
    split_ifs at h with heq
    obtain rfl := Option.some.inj h
    subst heq
    exact eq_of_has_ofInt ha
  | _ => exact nomatch h

theorem eval_zero_of_isShift {op : BitOp} (h : op.isShift) : op.eval 0 y = 0 := by
  cases op with
  | shl => exact Int64.zero_shiftLeft
  | shr =>
    have hzero : (0 : Int64).toUInt64 = 0 := rfl
    rw [BitOp.eval, hzero, UInt64.zero_shiftRight]
    rfl
  | sar => exact Int64.zero_shiftRight
  | _ => exact nomatch h

theorem has_bit {op : BitOp} (ha : a.has (.int x)) (hb : b.has (.int y)) :
    (a.bit op b).has (.int (op.eval x y)) := by
  unfold bit
  rw [if_neg fun h => h.elim (ne_top_of_has ha) (ne_top_of_has hb)]
  split
  case h_1 c d hc hd =>
    rw [Value.int.inj (eq_of_int? hc ha), Value.int.inj (eq_of_int? hd hb)]
    exact has_ofInt _
  case h_2 =>
    split_ifs with hand hshift
    · obtain ⟨rfl, hzero⟩ := hand
      have heq : x &&& y = 0 := by
        rcases hzero with hz | hz
        · rw [Value.int.inj (eq_of_int? hz ha), Int64.zero_and]
        · rw [Value.int.inj (eq_of_int? hz hb), Int64.and_zero]
      rw [BitOp.eval, heq]
      exact has_ofInt 0
    · rw [Value.int.inj (eq_of_int? hshift.2 ha), eval_zero_of_isShift hshift.1]
      exact has_ofInt 0
    · exact has_anyInt _

theorem toInt_neg_of_lt (h : Int64.minValue.toInt < x.toInt) : (-x).toInt = -x.toInt := by
  have heq : -x = Int64.ofInt (-x.toInt) := by rw [Int64.ofInt_neg, Int64.ofInt_toInt]
  have hmin : Int64.minValue.toInt = -2 ^ 63 := by decide
  have hmax : Int64.maxValue.toInt = 2 ^ 63 - 1 := by decide
  have := x.toInt_lt
  rw [heq, toInt_ofInt_of_bounds] <;> omega

theorem has_neg (ha : a.has (.int x)) : a.neg.has (.int (-x)) := by
  unfold neg
  split
  case h_1 => exact nomatch ha
  case h_2 lo hi =>
    split_ifs with hmin
    · exact has_anyInt _
    · obtain ⟨hl, hh⟩ := has_int_iff.mp ha
      have hlt : Int64.minValue.toInt < lo.toInt := by
        refine lt_of_le_of_ne ?_ fun h => hmin (Int64.toInt_inj.mp h.symm)
        exact lo.le_toInt
      rw [has_int_iff, toInt_neg_of_lt hlt, toInt_neg_of_lt (hlt.trans_le hl),
        toInt_neg_of_lt (hlt.trans_le (hl.trans hh))]
      omega
  case h_3 => exact has_anyInt _

theorem has_not (ha : a.has v) : a.not.has (Activation.boolValue !v.isTruthy) := by
  unfold not
  split
  case h_1 => exact nomatch ha
  case h_2 lo hi =>
    split_ifs with hzero hmay
    · rw [hzero] at ha
      rw [eq_of_has_ofInt ha]
      rfl
    · exact has_bool _
    · obtain ⟨x, rfl, hl, hh⟩ := exists_of_has_int ha
      have hne : x ≠ 0 := by
        rintro rfl
        refine hmay ?_
        simp only [mayBeZero_int, Bool.and_eq_true, decide_eq_true_eq, Int64.le_iff_toInt_le]
        exact ⟨hl, hh⟩
      simp only [isTruthy_int, bne_iff_ne.mpr hne, Bool.not_true]
      exact has_ofInt 0
  case h_3 | h_4 =>
    cases v with
    | ref o => cases o <;> first | rfl | exact nomatch ha
    | _ => exact nomatch ha
  case h_5 =>
    cases v with
    | fn i => rfl
    | _ => exact nomatch ha
  case h_6 => exact has_bool _

theorem compareRanges_sound {op : CmpOp} {al ah bl bh : Int64} {c : Bool}
    (hx : (int al ah).has (.int x)) (hy : (int bl bh).has (.int y))
    (h : compareRanges op al ah bl bh = some c) : op.evalInt x y = c := by
  rw [has_int_iff] at hx hy
  unfold compareRanges at h
  cases op <;> dsimp only at h <;> split_ifs at h with h₁ h₂ <;>
    obtain rfl := Option.some.inj h <;>
    simp only [CmpOp.evalInt, ← Int64.toInt_inj, Int64.le_iff_toInt_le, Int64.lt_iff_toInt_lt,
      decide_eq_true_eq, decide_eq_false_iff_not, beq_eq_decide, bne, Bool.not_eq_true',
      Bool.not_inj_iff, decide_eq_decide] at * <;> omega

theorem word_ne_zero {o : Nat} : (Value.ref (some o)).word ≠ 0 := by
  have hlt : o % 2 ^ 32 < 2 ^ 32 := Nat.mod_lt _ (by decide)
  have hint : (Int64.ofNat (o % 2 ^ 32 + 1)).toInt = (o % 2 ^ 32 + 1 : Nat) :=
    Int64.toInt_ofNat_of_lt (by omega)
  show Int64.ofNat (o % 2 ^ 32 + 1) ≠ 0
  intro h
  rw [h] at hint
  have hzero : (0 : Int64).toInt = 0 := rfl
  omega

theorem sameRef_sound {n₁ n₂ : Nullness} {o₁ o₂ : Pointee} {c : Bool} (ha : (ptr o₁ n₁).has v)
    (hb : (ptr o₂ n₂).has w) (h : sameRef n₁ n₂ = some c) : (v.word == w.word) = c := by
  have hnull : (Value.ref none).word = 0 := rfl
  cases v with
  | ref p =>
    cases w with
    | ref q =>
      cases p <;> cases q <;> cases n₁ <;> cases n₂ <;>
        simp_all [has, sameRef, word_ne_zero, Ne.symm word_ne_zero]
    | _ => exact nomatch hb
  | _ => exact nomatch ha

theorem has_cmp {op : CmpOp} (ha : a.has v) (hb : b.has w) :
    (a.cmp op b).has (Activation.boolValue (op.evalInt v.word w.word)) := by
  unfold cmp
  split
  case h_1 => exact nomatch ha
  case h_2 => exact nomatch hb
  case h_3 al ah bl bh =>
    obtain ⟨x, rfl, -⟩ := exists_of_has_int ha
    obtain ⟨y, rfl, -⟩ := exists_of_has_int hb
    cases hc : compareRanges op al ah bl bh with
    | none => exact has_bool _
    | some c =>
      rw [show op.evalInt (Value.int x).word (Value.int y).word = c from
        compareRanges_sound ha hb hc]
      exact has_ofBool c
  case h_4 =>
    split
    case h_1 e hsame =>
      rw [CmpOp.evalInt, sameRef_sound ha hb hsame]
      exact has_ofBool e
    case h_2 e hsame =>
      rw [CmpOp.evalInt, bne, sameRef_sound ha hb hsame]
      exact has_ofBool _
    case h_3 => exact has_bool _
  case h_5 => exact has_bool _

theorem has_floatCmp {op : CmpOp} {p q : Double} (ha : a.has (.float p)) (hb : b.has (.float q)) :
    (a.floatCmp op b).has (Activation.boolValue (op.evalFloat p q)) := by
  unfold floatCmp
  split
  case h_1 => exact nomatch ha
  case h_2 => exact nomatch hb
  case h_3 y z =>
    have hp : y = p := by simpa [has] using ha
    have hq : z = q := by simpa [has] using hb
    rw [hp, hq]
    exact has_ofBool _
  case h_4 => exact has_bool _

theorem has_toFloat (ha : a.has (.int x)) : a.toFloat.has (.float (.ofInt64 x)) := by
  unfold toFloat
  rw [if_neg (ne_top_of_has ha)]
  split
  case h_1 y hy =>
    rw [Value.int.inj (eq_of_int? hy ha)]
    simp [has, ofDouble]
  case h_2 => rfl

/-- Whether a branch of type `t` may take the side for `c`. -/
def permits (c : Bool) : Ty → Bool
  | .branch t f => if c then t else f
  | _ => false

/-- A branch takes only sides that its type permits, if it is not on a float that is known: all floats
count as true when it is taken. -/
theorem permits_branchOn (ha : a.has v) (hfloat : a.double? = none) :
    a.branchOn.permits v.isTruthy := by
  unfold branchOn
  split
  case h_1 => exact nomatch ha
  case h_2 =>
    rw [eq_of_has_ofInt ha]
    rfl
  case h_3 => exact nomatch hfloat
  case h_4 =>
    cases v with
    | ref o => cases o <;> first | rfl | exact nomatch ha
    | _ => exact nomatch ha
  case h_5 =>
    cases v with
    | fn i => rfl
    | _ => exact nomatch ha
  case h_6 =>
    split_ifs with hvalue
    · rw [Bool.and_eq_true, Bool.not_eq_true'] at hvalue
      suffices h : v.isTruthy by rw [h]; rfl
      cases a with
      | int lo hi =>
        obtain ⟨x, rfl, hl, hh⟩ := exists_of_has_int ha
        simp only [isTruthy_int, bne_iff_ne]
        rintro rfl
        have hmay := hvalue.2
        simp only [mayBeZero_int, Bool.and_eq_false_iff, decide_eq_false_iff_not,
          Int64.le_iff_toInt_le] at hmay
        exact hmay.elim (fun h => h hl) fun h => h hh
      | ptr o nil =>
        cases v with
        | ref p => cases p <;> cases nil <;> simp_all [has, mayBeZero_ptr, isTruthy_ref]
        | _ => exact nomatch ha
      | float x =>
        obtain rfl : x = none := hfloat
        exact nomatch hvalue.2
      | fn =>
        cases v with
        | fn i => rfl
        | _ => exact nomatch ha
      | _ => exact nomatch hvalue.1
    · cases v.isTruthy <;> rfl

theorem has_ref (i j : Nat) : t.has (.ref (some i)) = t.has (.ref (some j)) := by
  cases t <;> rfl

end Ty

end SeaNodes
