import SeaNodes.Proofs.Lattice.Members
import SeaNodes.Proofs.Lattice.Order
import SeaNodes.Proofs.Opt.PostFixpoint

namespace SeaNodes

namespace Ty

variable {a a' b b' : Ty} {x y : Int64}

/-- Whether a range has a member. Types of other kinds always count. -/
def nonempty : Ty → Bool
  | .int lo hi => lo ≤ hi
  | _ => true

theorem nonempty_int {lo hi : Int64} : (int lo hi).nonempty ↔ lo.toInt ≤ hi.toInt := by
  rw [nonempty, decide_eq_true_iff, Int64.le_iff_toInt_le]

theorem anyFloat_le (v : Option Double) : anyFloat ≤ float v := below_iff.mpr (.float v)

/-- A single integer stands below nothing but itself and `top`. -/
theorem eq_of_ofInt_le (h : ofInt x ≤ a) (ha : a ≠ top) (hne : a.nonempty) : a = ofInt x := by
  obtain ⟨l, u, rfl, hl, hu⟩ := exists_of_int_le h ha
  rw [nonempty_int] at hne
  rw [ofInt, int_eq_int_iff]
  omega

theorem eq_of_float_le {v : Double} (h : float (some v) ≤ a) (ha : a ≠ top) :
    a = float (some v) := by
  cases below_iff.mp h with
  | refl => rfl
  | top => exact absurd rfl ha

theorem int?_eq_some : a.int? = some x ↔ a = ofInt x := by
  cases a with
  | int lo hi =>
    rw [int?, ofInt, Ty.int.injEq, Option.ite_none_right_eq_some, Option.some.injEq]
    constructor
    · rintro ⟨rfl, rfl⟩
      exact ⟨rfl, rfl⟩
    · rintro ⟨rfl, rfl⟩
      exact ⟨rfl, rfl⟩
  | _ => simp [int?, ofInt]

theorem int?_of_le (h : a' ≤ a) (ha : a ≠ top) (hne : a.nonempty) (hx : a'.int? = some x) :
    a.int? = some x := by
  rw [int?_eq_some] at hx ⊢
  exact eq_of_ofInt_le (hx ▸ h) ha hne

theorem both_le (h : a.isBranch) : branch true true ≤ a := by
  cases a with
  | top => exact le_top
  | branch t f => exact below_iff.mpr (.branch (fun _ => rfl) fun _ => rfl)
  | _ => exact nomatch h

theorem branchOn_int (lo hi : Int64) : (int lo hi).branchOn =
    if lo.toInt = 0 ∧ hi.toInt = 0 then branch false true
    else if lo.toInt ≤ 0 ∧ 0 ≤ hi.toInt then branch true true
    else branch true false := by
  have hzero : (0 : Int64).toInt = 0 := rfl
  have hmay : (int lo hi).mayBeZero = decide (lo.toInt ≤ 0 ∧ 0 ≤ hi.toInt) := by
    rw [mayBeZero_int, Bool.decide_and]
    simp only [Int64.le_iff_toInt_le, hzero]
  by_cases h : lo.toInt = 0 ∧ hi.toInt = 0
  · obtain ⟨rfl, rfl⟩ : lo = 0 ∧ hi = 0 := ⟨Int64.toInt_inj.mp h.1, Int64.toInt_inj.mp h.2⟩
    rfl
  · rw [if_neg h]
    unfold branchOn
    split
    case h_2 heq =>
      rw [int_eq_int_iff] at heq
      exact absurd heq h
    case h_6 =>
      rw [hmay]
      by_cases hin : lo.toInt ≤ 0 ∧ 0 ≤ hi.toInt <;> simp [hin, isValue]
    all_goals contradiction

theorem branchOn_mono (h : a' ≤ a) (hne : a.nonempty) : a'.branchOn ≤ a.branchOn := by
  cases below_iff.mp h with
  | refl => exact le_rfl
  | top => exact le_top
  | bottom | live | float | branch => exact both_le (isBranch_branchOn _)
  | int hl hh =>
    rw [nonempty_int] at hne
    rw [branchOn_int, branchOn_int]
    split_ifs <;> first | exact le_rfl | exact both_le rfl | omega
  | @ptr o o' n n' ho hn =>
    cases n <;> cases n' <;> first | exact le_rfl | exact both_le rfl | exact nomatch hn
  | fn => exact le_rfl

theorem isInt_bounded (lo hi : Int) (single? : Option Int64) : (bounded lo hi single?).isInt := by
  unfold bounded range?
  dsimp only
  split
  case h_1 t _ heq =>
    split_ifs at heq
    rw [← Option.some.inj heq]
    rfl
  all_goals rfl

theorem isInt_arith (op : ArithOp) (ha : a ≠ top) (hb : b ≠ top) : (a.arith op b).isInt := by
  unfold arith
  split
  case h_1 => exact absurd rfl ha
  case h_2 => exact absurd rfl hb
  case h_3 =>
    cases op with
    | add | sub => exact isInt_bounded ..
    | mul | div =>
      dsimp only
      split_ifs <;> rfl
  case h_4 => rfl

theorem bounded_mono {lo hi lo' hi' : Int} {single? single?' : Option Int64} (hlo : lo' ≤ lo)
    (hhi : hi ≤ hi') (hne : lo ≤ hi)
    (hexact : ∀ v ∈ single?', single? = some v ∧ lo = lo' ∧ hi = hi') :
    bounded lo' hi' single?' ≤ bounded lo hi single? := by
  -- if the wider bounds are words, so are the others
  by_cases hfits : Int64.minValue.toInt ≤ lo' ∧ hi' ≤ Int64.maxValue.toInt
  · have hrange {l h : Int} (hl : lo' ≤ l) (hlh : l ≤ h) (hh : h ≤ hi') :
        range? l h = some (int (.ofInt l) (.ofInt h)) := by
      unfold range?
      rw [if_pos]
      simp only [Bool.and_eq_true, decide_eq_true_eq]
      omega
    unfold bounded
    rw [hrange le_rfl (by omega) le_rfl, hrange hlo hne hhi]
    apply int_le_int
    · rwa [toInt_ofInt_of_bounds (by omega) (by omega), toInt_ofInt_of_bounds (by omega) (by omega)]
    · rwa [toInt_ofInt_of_bounds (by omega) (by omega), toInt_ofInt_of_bounds (by omega) (by omega)]
  · cases hv : single?' with
    | some v =>
      obtain ⟨rfl, rfl, rfl⟩ := hexact v hv
      exact le_rfl
    | none =>
      have hnone : range? lo' hi' = none := by
        unfold range?
        rw [if_neg]
        simp only [Bool.and_eq_true, decide_eq_true_eq]
        omega
      unfold bounded
      rw [hnone]
      exact anyInt_le (isInt_bounded ..)

theorem arith_mono (op : ArithOp) (ha : a' ≤ a) (hb : b' ≤ b) (hane : a.nonempty)
    (hbne : b.nonempty) : a'.arith op b' ≤ a.arith op b := by
  by_cases hat : a = top
  · subst hat
    exact le_top
  by_cases hbt : b = top
  · have htop : a.arith op b = top := by
      subst hbt
      cases a <;> rfl
    rw [htop]
    exact le_top
  have hint := isInt_arith op hat hbt
  have hat' := ne_top_of_le ha hat
  have hbt' := ne_top_of_le hb hbt
  by_cases hboth : a'.isInt ∧ b'.isInt
  · have hform {t : Ty} (ht : t.isInt) : ∃ l h, t = int l h := by
      cases t <;> first | exact ⟨_, _, rfl⟩ | exact nomatch ht
    obtain ⟨l, h, rfl⟩ := hform hboth.1
    obtain ⟨k, u, rfl⟩ := hform hboth.2
    obtain ⟨l₀, h₀, rfl, hl, hh⟩ := exists_of_int_le ha hat
    obtain ⟨k₀, u₀, rfl, hk, hu⟩ := exists_of_int_le hb hbt
    rw [nonempty_int] at hane hbne
    have hsingle : (l == h && k == u) = true → l₀ = l ∧ h₀ = h ∧ k₀ = k ∧ u₀ = u := by
      intro hc
      simp only [Bool.and_eq_true, beq_iff_eq, ← Int64.toInt_inj] at hc ⊢
      omega
    cases op with
    | add =>
      refine bounded_mono (by omega) (by omega) (by omega) fun v hv => ?_
      rw [Option.mem_def, Option.ite_none_right_eq_some] at hv
      obtain ⟨rfl, rfl, rfl, rfl⟩ := hsingle hv.1
      exact ⟨by rw [if_pos hv.1, hv.2], rfl, rfl⟩
    | sub =>
      refine bounded_mono (by omega) (by omega) (by omega) fun v hv => ?_
      rw [Option.mem_def, Option.ite_none_right_eq_some] at hv
      obtain ⟨rfl, rfl, rfl, rfl⟩ := hsingle hv.1
      exact ⟨by rw [if_pos hv.1, hv.2], rfl, rfl⟩
    | mul =>
      have hzero : int l h = ofInt 0 ∨ int k u = ofInt 0 →
          int l₀ h₀ = ofInt 0 ∨ int k₀ u₀ = ofInt 0 := by
        simp only [ofInt, int_eq_int_iff]
        have hz : (0 : Int64).toInt = 0 := rfl
        omega
      simp only [arith] at hint ⊢
      by_cases hz : int l h = ofInt 0 ∨ int k u = ofInt 0
      · rw [if_pos hz, if_pos (hzero hz)]
      · rw [if_neg hz]
        by_cases hc : (l == h && k == u) = true
        · obtain ⟨rfl, rfl, rfl, rfl⟩ := hsingle hc
          rw [if_neg hz]
        · rw [if_neg hc]
          exact anyInt_le hint
    | div =>
      simp only [arith] at hint ⊢
      by_cases hc : (l == h && k == u && k != 0) = true
      · obtain ⟨rfl, rfl, rfl, rfl⟩ := hsingle (Bool.and_eq_true_iff.mp hc).1
        exact le_rfl
      · rw [if_neg hc]
        exact anyInt_le hint
  · have hany : a'.arith op b' = anyInt := by
      unfold arith
      split
      case h_1 => exact absurd rfl hat'
      case h_2 => exact absurd rfl hbt'
      case h_3 => exact absurd ⟨rfl, rfl⟩ hboth
      case h_4 => rfl
    rw [hany]
    exact anyInt_le hint

theorem isInt_bit (op : BitOp) (ha : a ≠ top) (hb : b ≠ top) : (a.bit op b).isInt := by
  unfold bit
  rw [if_neg fun h => h.elim ha hb]
  split
  · rfl
  · split_ifs <;> rfl

def ZeroDecides (op : BitOp) (a b : Ty) : Prop :=
  op = .and ∧ (a.int? = some 0 ∨ b.int? = some 0) ∨ op.isShift ∧ a.int? = some 0

theorem bit_of_zeroDecides {op : BitOp} (ha : a ≠ top) (hb : b ≠ top) (h : ZeroDecides op a b) :
    a.bit op b = ofInt 0 := by
  unfold bit
  rw [if_neg fun h => h.elim ha hb]
  split
  case h_1 c d hc hd =>
    rw [ZeroDecides, hc, hd, Option.some.injEq, Option.some.injEq] at h
    rcases h with ⟨rfl, rfl | rfl⟩ | ⟨hshift, rfl⟩
    · rw [BitOp.eval, Int64.zero_and]
    · rw [BitOp.eval, Int64.and_zero]
    · rw [eval_zero_of_isShift hshift]
  case h_2 =>
    rcases h with h | h
    · rw [if_pos h]
    · split_ifs <;> rfl

theorem bit_of_unknown {op : BitOp} (ha : a ≠ top) (hb : b ≠ top) (h : ¬ ZeroDecides op a b)
    (hunknown : ¬ (a.int?.isSome ∧ b.int?.isSome)) : a.bit op b = anyInt := by
  rw [ZeroDecides, not_or] at h
  unfold bit
  rw [if_neg fun h => h.elim ha hb]
  split
  case h_1 c d hc hd =>
    rw [hc, hd] at hunknown
    exact absurd ⟨rfl, rfl⟩ hunknown
  case h_2 => rw [if_neg h.1, if_neg h.2]

theorem bit_mono (op : BitOp) (ha : a' ≤ a) (hb : b' ≤ b) (hane : a.nonempty)
    (hbne : b.nonempty) : a'.bit op b' ≤ a.bit op b := by
  by_cases htop : a = top ∨ b = top
  · have h : a.bit op b = top := if_pos htop
    rw [h]
    exact le_top
  rw [not_or] at htop
  have hat' := ne_top_of_le ha htop.1
  have hbt' := ne_top_of_le hb htop.2
  have ha? {x : Int64} := int?_of_le (x := x) ha htop.1 hane
  have hb? {x : Int64} := int?_of_le (x := x) hb htop.2 hbne
  by_cases hzero : ZeroDecides op a' b'
  · have hzero' : ZeroDecides op a b :=
      hzero.imp (fun h => ⟨h.1, h.2.imp ha? hb?⟩) fun h => ⟨h.1, ha? h.2⟩
    rw [bit_of_zeroDecides hat' hbt' hzero, bit_of_zeroDecides htop.1 htop.2 hzero']
  · by_cases hknown : a'.int?.isSome ∧ b'.int?.isSome
    · obtain ⟨x, hx⟩ := Option.isSome_iff_exists.mp hknown.1
      obtain ⟨y, hy⟩ := Option.isSome_iff_exists.mp hknown.2
      rw [int?_eq_some.mp (ha? hx), int?_eq_some.mp (hb? hy), int?_eq_some.mp hx,
        int?_eq_some.mp hy]
    · rw [bit_of_unknown hat' hbt' hzero hknown]
      exact anyInt_le (isInt_bit op htop.1 htop.2)

theorem neg_mono (h : a' ≤ a) (hne : a.nonempty) : a'.neg ≤ a.neg := by
  have hisInt (ha : a ≠ top) : a.neg.isInt := by
    cases a with
    | top => exact absurd rfl ha
    | int lo hi =>
      rw [neg]
      split_ifs <;> rfl
    | _ => rfl
  cases below_iff.mp h with
  | refl => exact le_rfl
  | top => exact le_top
  | bottom =>
    by_cases htop : a = top
    · rw [htop]
      exact le_top
    · exact anyInt_le (hisInt htop)
  | @int l u l' u' hl hu =>
    rw [nonempty_int] at hne
    by_cases hmin : l' = Int64.minValue
    · have hany : (int l' u').neg = anyInt := if_pos hmin
      rw [hany]
      exact anyInt_le (hisInt nofun)
    · have hlt : Int64.minValue.toInt < l'.toInt :=
        lt_of_le_of_ne l'.le_toInt fun heq => hmin (Int64.toInt_inj.mp heq.symm)
      have hmin' : l ≠ Int64.minValue := by
        rintro rfl
        omega
      rw [neg, neg, if_neg hmin, if_neg hmin']
      apply int_le_int
      · rw [toInt_neg_of_lt (by omega), toInt_neg_of_lt (by omega)]
        omega
      · rw [toInt_neg_of_lt (by omega), toInt_neg_of_lt (by omega)]
        omega
  | live | float | ptr | fn | branch => exact le_rfl

/-- What an operator can say about a truth value. -/
def saysBool (t : Ty) : Bool := t == bool || t == ofBool true || t == ofBool false

theorem bool_le (h : a.saysBool) : bool ≤ a := by
  simp only [saysBool, Bool.or_eq_true, beq_iff_eq] at h
  rcases h with (rfl | rfl) | rfl
  · exact le_rfl
  · exact int_le_int (by decide) (by decide)
  · exact int_le_int (by decide) (by decide)

theorem saysBool_ofBool (c : Bool) : (ofBool c).saysBool := by
  cases c <;> decide

theorem not_int (lo hi : Int64) : (int lo hi).not =
    if lo.toInt = 0 ∧ hi.toInt = 0 then ofInt 1
    else if lo.toInt ≤ 0 ∧ 0 ≤ hi.toInt then bool
    else ofInt 0 := by
  have hzero : (0 : Int64).toInt = 0 := rfl
  rw [not]
  refine if_congr ?_ rfl (if_congr ?_ rfl rfl)
  · rw [ofInt, int_eq_int_iff, hzero]
  · rw [mayBeZero_int, Bool.and_eq_true, decide_eq_true_iff, decide_eq_true_iff,
      Int64.le_iff_toInt_le, Int64.le_iff_toInt_le, hzero]

theorem saysBool_not (h : a ≠ top) : a.not.saysBool := by
  unfold not
  split
  case h_1 => exact absurd rfl h
  case h_2 => split_ifs <;> decide
  all_goals decide

theorem not_mono (h : a' ≤ a) (hne : a.nonempty) : a'.not ≤ a.not := by
  by_cases htop : a = top
  · rw [htop]
    exact le_top
  have hbool := bool_le (saysBool_not htop)
  cases below_iff.mp h with
  | refl => exact le_rfl
  | top => exact absurd rfl htop
  | bottom | live | float | fn | branch => exact hbool
  | int hl hh =>
    rw [nonempty_int] at hne
    rw [not_int] at hbool ⊢
    rw [not_int]
    split_ifs at hbool ⊢ <;> first | exact le_rfl | exact hbool | omega
  | @ptr o o' n n' ho hn =>
    cases n <;> cases n' <;> first | exact le_rfl | exact hbool | exact nomatch hn

theorem compareRanges_of_le {op : CmpOp} {l h k u l' h' k' u' : Int64} {c : Bool}
    (hl : l'.toInt ≤ l.toInt) (hh : h.toInt ≤ h'.toInt) (hk : k'.toInt ≤ k.toInt)
    (hu : u.toInt ≤ u'.toInt) (hlh : l.toInt ≤ h.toInt) (hku : k.toInt ≤ u.toInt)
    (hc : compareRanges op l' h' k' u' = some c) : compareRanges op l h k u = some c := by
  unfold compareRanges at hc ⊢
  cases op with
  | lt | le =>
    simp only [Int64.lt_iff_toInt_lt, Int64.le_iff_toInt_le] at hc ⊢
    split_ifs at hc ⊢ <;> first | exact hc | omega
  | eq | ne =>
    dsimp only at hc ⊢
    by_cases hsingle : l' = h' ∧ k' = u'
    · obtain ⟨rfl, rfl⟩ := hsingle
      obtain ⟨rfl, rfl⟩ : l = l' ∧ h = l' := by
        rw [← Int64.toInt_inj, ← Int64.toInt_inj]
        omega
      obtain ⟨rfl, rfl⟩ : k = k' ∧ u = k' := by
        rw [← Int64.toInt_inj, ← Int64.toInt_inj]
        omega
      exact hc
    · rw [if_neg hsingle, Option.ite_none_right_eq_some] at hc
      have hapart : h < k ∨ u < l := by
        simp only [Int64.lt_iff_toInt_lt] at hc ⊢
        omega
      have hne : l ≠ k := by
        rintro rfl
        simp only [Int64.lt_iff_toInt_lt] at hapart
        omega
      rw [if_pos hapart, ← hc.2]
      split_ifs <;> simp [hne]

theorem sameRef_of_le {n m n' m' : Nullness} {c : Bool} (hn : n' ≤ n) (hm : m' ≤ m)
    (hc : sameRef n' m' = some c) : sameRef n m = some c := by
  have hsame {n n' : Nullness} (h : n' ≤ n) (hknown : n' ≠ .maybe) : n = n' := by
    cases n <;> cases n' <;> first | rfl | exact absurd rfl hknown | exact nomatch h
  have hknown : n' ≠ .maybe ∧ m' ≠ .maybe := by
    cases n' <;> cases m' <;> first | decide | exact absurd hc (Option.some_ne_none c).symm
  rw [hsame hn hknown.1, hsame hm hknown.2, hc]

theorem saysBool_cmp (op : CmpOp) (ha : a ≠ top) (hb : b ≠ top) : (a.cmp op b).saysBool := by
  unfold cmp
  split
  case h_1 => exact absurd rfl ha
  case h_2 => exact absurd rfl hb
  case h_3 al ah bl bh =>
    cases compareRanges op al ah bl bh with
    | none => decide
    | some c => exact saysBool_ofBool c
  case h_4 =>
    split
    · exact saysBool_ofBool _
    · exact saysBool_ofBool _
    · decide
  case h_5 => decide

theorem cmp_mono (op : CmpOp) (ha : a' ≤ a) (hb : b' ≤ b) (hane : a.nonempty)
    (hbne : b.nonempty) : a'.cmp op b' ≤ a.cmp op b := by
  by_cases hat : a = top
  · subst hat
    exact le_top
  by_cases hbt : b = top
  · have htop : a.cmp op b = top := by
      subst hbt
      cases a <;> rfl
    rw [htop]
    exact le_top
  have hbool := bool_le (saysBool_cmp op hat hbt)
  have hat' := ne_top_of_le ha hat
  have hbt' := ne_top_of_le hb hbt
  unfold cmp
  split
  case h_1 => exact absurd rfl hat'
  case h_2 => exact absurd rfl hbt'
  case h_3 l' h' k' u' =>
    obtain ⟨l, h, rfl, hl, hh⟩ := exists_of_int_le ha hat
    obtain ⟨k, u, rfl, hk, hu⟩ := exists_of_int_le hb hbt
    rw [nonempty_int] at hane hbne
    cases hc : compareRanges op l' h' k' u' with
    | none => exact hbool
    | some c =>
      dsimp only
      rw [compareRanges_of_le hl hh hk hu hane hbne hc]
  case h_4 o₁' n₁' o₂' n₂' =>
    obtain ⟨o₁, n₁, rfl, -, hn₁⟩ := exists_of_ptr_le ha hat
    obtain ⟨o₂, n₂, rfl, -, hn₂⟩ := exists_of_ptr_le hb hbt
    cases hs : sameRef n₁' n₂' with
    | none => cases op <;> exact hbool
    | some e =>
      dsimp only
      rw [sameRef_of_le hn₁ hn₂ hs]
  case h_5 => exact hbool

theorem floatArith_mono (op : ArithOp) (ha : a' ≤ a) (hb : b' ≤ b) :
    a'.floatArith op b' ≤ a.floatArith op b := by
  by_cases hat : a = top
  · subst hat
    exact le_top
  by_cases hbt : b = top
  · have htop : a.floatArith op b = top := by
      subst hbt
      cases a <;> rfl
    rw [htop]
    exact le_top
  have hany : anyFloat ≤ a.floatArith op b := by
    unfold floatArith
    split
    case h_1 => exact le_top
    case h_2 => exact le_top
    all_goals exact anyFloat_le _
  unfold floatArith
  split
  case h_1 => exact absurd rfl (ne_top_of_le ha hat)
  case h_2 => exact absurd rfl (ne_top_of_le hb hbt)
  case h_3 => rw [eq_of_float_le ha hat, eq_of_float_le hb hbt]
  case h_4 => exact hany

theorem floatCmp_mono (op : CmpOp) (ha : a' ≤ a) (hb : b' ≤ b) :
    a'.floatCmp op b' ≤ a.floatCmp op b := by
  by_cases hat : a = top
  · subst hat
    exact le_top
  by_cases hbt : b = top
  · have htop : a.floatCmp op b = top := by
      subst hbt
      cases a <;> rfl
    rw [htop]
    exact le_top
  have hbool : bool ≤ a.floatCmp op b := by
    unfold floatCmp
    split
    case h_1 => exact le_top
    case h_2 => exact le_top
    case h_3 => exact bool_le (saysBool_ofBool _)
    case h_4 => exact le_rfl
  unfold floatCmp
  split
  case h_1 => exact absurd rfl (ne_top_of_le ha hat)
  case h_2 => exact absurd rfl (ne_top_of_le hb hbt)
  case h_3 => rw [eq_of_float_le ha hat, eq_of_float_le hb hbt]
  case h_4 => exact hbool

theorem toFloat_mono (h : a' ≤ a) (hne : a.nonempty) : a'.toFloat ≤ a.toFloat := by
  by_cases htop : a = top
  · rw [htop]
    exact le_top
  have hany : anyFloat ≤ a.toFloat := by
    unfold toFloat
    rw [if_neg htop]
    split <;> exact anyFloat_le _
  cases hx : a'.int? with
  | some x => rw [int?_eq_some.mp (int?_of_le h htop hne hx), int?_eq_some.mp hx]
  | none =>
    unfold toFloat at hany ⊢
    rw [if_neg (ne_top_of_le h htop), hx]
    exact hany

theorem asCtrl_eq_self (h : a.isCtrl) : a.asCtrl = a := by
  cases a <;> first | rfl | exact nomatch h

theorem ctrlProj_mono (i : Nat) (h : a' ≤ a) (hctrl : a.isCtrl ∨ a.isBranch)
    (hctrl' : a'.isCtrl ∨ a'.isBranch) : a'.ctrlProj i ≤ a.ctrlProj i := by
  cases below_iff.mp h with
  | refl => exact le_rfl
  | top => exact le_top
  | live => exact h
  | branch ht hf =>
    have hside {c c' : Bool} (hc : c → c') :
        (if c' then ctrl else deadCtrl) ≤ if c then ctrl else deadCtrl := by
      by_cases h : c
      · rw [if_pos h, if_pos (hc h)]
      · rw [if_neg h]
        split_ifs
        · exact below_iff.mpr .live
        · exact le_rfl
    unfold ctrlProj
    by_cases hi : i = 0
    · simp only [if_pos hi]
      exact hside ht
    · simp only [if_neg hi]
      exact hside hf
  | bottom => exact nomatch hctrl'
  | int | float | ptr | fn => exact nomatch hctrl

theorem join_mono {d : Ty} (h : a' ≤ a) (hjoin : a'.join d ≠ top) : a'.join d ≤ a.join d :=
  join_le (h.trans (le_join_left a d)) (le_join_right a d) hjoin

theorem waiting_mono {p p' : Prop} [Decidable p] [Decidable p'] (hp : p' → p) (h : a' ≤ a) :
    (if p' then top else a') ≤ if p then top else a := by
  by_cases hwait : p
  · rw [if_pos hwait]
    exact le_top
  · rwa [if_neg hwait, if_neg fun hwait' => hwait (hp hwait')]

end Ty

namespace Graph

variable {g g' : Graph} {n : NodeId} {e : Edge}

def phiPreds (g : Graph) (n : NodeId) : List Edge :=
  match g.input n 0 with
  | some r => (g.inputs r).toList.drop 1
  | none => []

/-- The edges whose types the type of a node is computed from. -/
def reads (g : Graph) (n : NodeId) : List Edge :=
  (g.inputs n).toList ++ if g.op n = .phi then g.phiPreds n else []

def readsControl (g : Graph) (n : NodeId) : List Edge :=
  match g.op n with
  | .region | .loop => (g.inputs n).toList.drop 1
  | .phi => g.input n 0 :: g.phiPreds n
  | .fork | .ret | .call | .callEnd | .cast | .load | .store | .alloc => [g.input n 0]
  | .proj _ => if g.op? (g.input n 0) = some .callEnd then [g.input n 0] else []
  | _ => []

/-- The one that a projection of a branch or call end takes its side from. -/
def readsSide (g : Graph) (n : NodeId) : List Edge :=
  match g.op n with
  | .ctrlProj _ => [g.input n 0]
  | _ => []

/-- The types that `n` reads are of the kinds that it expects. -/
structure ReadsKinds (g : Graph) (n : NodeId) : Prop where
  ctrl : ∀ e ∈ g.readsControl n, (g.ty e).isCtrl
  side : ∀ e ∈ g.readsSide n, (g.ty e).isCtrl ∨ (g.ty e).isBranch
  range : ∀ e ∈ g.reads n, (g.ty e).nonempty

instance (g : Graph) (n : NodeId) : Decidable (g.ReadsKinds n) :=
  decidable_of_iff ((∀ e ∈ g.readsControl n, (g.ty e).isCtrl) ∧
      (∀ e ∈ g.readsSide n, (g.ty e).isCtrl ∨ (g.ty e).isBranch) ∧
      ∀ e ∈ g.reads n, (g.ty e).nonempty)
    ⟨fun h => ⟨h.1, h.2.1, h.2.2⟩, fun h => ⟨h.ctrl, h.side, h.range⟩⟩

/-- The types that `n` reads in `g'` are at or below those in `g`. -/
def ReadsBelow (g' g : Graph) (n : NodeId) : Prop := ∀ e ∈ g.reads n, (g'.ty e).le (g.ty e)

instance (g' g : Graph) (n : NodeId) : Decidable (g'.ReadsBelow g n) :=
  inferInstanceAs (Decidable (∀ e ∈ g.reads n, (g'.ty e).le (g.ty e) = true))

theorem input_mem_drop (g : Graph) (n : NodeId) {i k : Nat} (hi : k ≤ i) :
    g.input n i = none ∨ g.input n i ∈ (g.inputs n).toList.drop k := by
  cases hd : g.input n i with
  | none => exact .inl rfl
  | some d =>
    rw [input_eq_getElem?, Option.join_eq_some_iff, ← Array.getElem?_toList] at hd
    refine .inr (List.mem_iff_getElem?.mpr ⟨i - k, ?_⟩)
    rwa [List.getElem?_drop, Nat.add_sub_cancel' hi]

theorem input_mem_reads (g : Graph) (n : NodeId) (i : Nat) :
    g.input n i = none ∨ g.input n i ∈ g.reads n :=
  (g.input_mem_drop n i.zero_le).imp_right (List.mem_append_left _)

theorem inputOf_mem_phiPreds (g : Graph) (n : NodeId) {i : Nat} (hi : 1 ≤ i) :
    g.inputOf (g.input n 0) i = none ∨ g.inputOf (g.input n 0) i ∈ g.phiPreds n := by
  unfold phiPreds
  cases g.input n 0 with
  | none => exact .inl rfl
  | some r => exact g.input_mem_drop r hi

def HangsOnControl (g : Graph) (n : NodeId) : Prop := g.input n 0 ∈ g.readsControl n

namespace Retyped

variable (h : g.Retyped g')
include h

theorem op? (e : Edge) : g'.op? e = g.op? e := by
  cases e with
  | none => rfl
  | some r => exact congrArg some (h.op r)

theorem isOpen (e : Edge) : g'.isOpen e = g.isOpen e := by
  cases e with
  | none => rfl
  | some r => exact h.inProgress r

theorem inputOf (e : Edge) (i : Nat) : g'.inputOf e i = g.inputOf e i := by
  cases e with
  | none => rfl
  | some r => exact h.input r i

theorem phiPreds (n : NodeId) : g'.phiPreds n = g.phiPreds n := by
  simp only [Graph.phiPreds, h.input, h.inputs]

theorem readsControl (n : NodeId) : g'.readsControl n = g.readsControl n := by
  simp only [Graph.readsControl, h.op, h.inputs, h.input, h.phiPreds, h.op?]

theorem readsSide (n : NodeId) : g'.readsSide n = g.readsSide n := by
  simp only [Graph.readsSide, h.op, h.input]

end Retyped

theorem ReadsKinds.nonempty_input (h : g.ReadsKinds n) (i : Nat) :
    (g.ty (g.input n i)).nonempty := by
  rcases g.input_mem_reads n i with hnone | hmem
  · rw [hnone]
    rfl
  · exact h.range _ hmem

namespace ReadsBelow

variable (h : g.Retyped g') (hle : g'.ReadsBelow g n)
include h hle

theorem input_le (i : Nat) : g'.ty (g'.input n i) ≤ g.ty (g.input n i) := by
  rw [h.input]
  rcases g.input_mem_reads n i with hnone | hmem
  · rw [hnone]
    exact le_rfl
  · exact hle _ hmem

theorem eq_top_input (i : Nat) (htop : g'.ty (g'.input n i) = .top) : g.ty (g.input n i) = .top := by
  have hinput := hle.input_le h i
  rw [htop] at hinput
  exact top_le_iff.mp hinput

theorem eq_ctrl_input (hkinds' : g'.ReadsKinds n) (hc : g.HangsOnControl n)
    (hlive : g.ty (g.input n 0) = .ctrl) : g'.ty (g'.input n 0) = .ctrl := by
  have hinput := hle.input_le h 0
  rw [hlive] at hinput
  refine Ty.eq_ctrl_of_meet (hkinds'.ctrl _ ?_) (Ty.le_iff_meet_eq.mp hinput)
  rwa [h.input, h.readsControl]

theorem ctrlLive (hkinds' : g'.ReadsKinds n) (hc : g.HangsOnControl n) (hlive : g.ctrlLive n) :
    g'.ctrlLive n := by
  rw [Graph.ctrlLive, Bool.or_eq_true, beq_iff_eq] at hlive ⊢
  rcases hlive with hnone | hctrl
  · exact .inl (by rw [h.input, hnone])
  · exact .inr (hle.eq_ctrl_input h hkinds' hc hctrl)

theorem eq_ctrl_pred (hop : g.op n = .phi) (hkinds' : g'.ReadsKinds n) {i : Nat} (hi : 1 ≤ i)
    (hlive : g.ty (g.inputOf (g.input n 0) i) = .ctrl) :
    g'.ty (g'.inputOf (g'.input n 0) i) = .ctrl := by
  rw [h.input, h.inputOf]
  rcases g.inputOf_mem_phiPreds n hi with hnone | hmem
  · rw [hnone] at hlive
    exact nomatch hlive
  · have hctrl := hkinds'.ctrl _ (by
      rw [h.readsControl, Graph.readsControl, hop]
      exact List.mem_cons_of_mem _ hmem)
    have hbelow := hle _ (by
      rw [Graph.reads, if_pos hop]
      exact List.mem_append_right _ hmem)
    rw [hlive] at hbelow
    exact Ty.eq_ctrl_of_meet hctrl (Ty.le_iff_meet_eq.mp hbelow)

end ReadsBelow

theorem regionType_mono (h : g.Retyped g') (hle : g'.ReadsBelow g n)
    (hop : g.op n = .region ∨ g.op n = .loop) (hkinds : g.ReadsKinds n) (hkinds' : g'.ReadsKinds n) :
    g'.regionType n ≤ g.regionType n := by
  have hreads : g.readsControl n = (g.inputs n).toList.drop 1 := by
    rcases hop with hop | hop <;> rw [readsControl, hop]
  unfold regionType
  rw [h.inputs]
  refine List.foldl_rel le_rfl fun e he t t' hacc => inf_le_inf hacc ?_
  rw [← hreads] at he
  rw [Ty.asCtrl_eq_self (hkinds.ctrl e he),
    Ty.asCtrl_eq_self (hkinds'.ctrl e (by rwa [h.readsControl]))]
  rw [hreads] at he
  exact hle e (List.mem_append_left _ (List.mem_of_mem_drop he))

theorem phiType_mono (h : g.Retyped g') (hle : g'.ReadsBelow g n) (hop : g.op n = .phi)
    (hkinds' : g'.ReadsKinds n) : g'.phiType n ≤ g.phiType n := by
  unfold phiType
  dsimp only
  by_cases hlive : g.ty (g.input n 0) = .ctrl
  · have hc : g.HangsOnControl n := by
      rw [HangsOnControl, readsControl, hop]
      exact List.mem_cons_self
    have hlive' := hle.eq_ctrl_input h hkinds' hc hlive
    rw [if_neg (not_not_intro hlive), if_neg (not_not_intro hlive'), h.input, h.isOpen, h.decl,
      h.inputs]
    split_ifs
    · exact le_rfl
    refine List.foldl_rel le_rfl fun ⟨v, i⟩ hv t t' hacc => ?_
    obtain ⟨hi, hget⟩ := mem_drop_zipIdx.mp hv
    have hmem := List.mem_of_getElem? hget
    have hvalue : g'.ty v ≤ g.ty v := hle v (List.mem_append_left _ hmem)
    by_cases hpred : g.ty (g.inputOf (g.input n 0) i) = .ctrl ∧ v.isSome
    · have hpred' : g'.ty (g'.inputOf (g.input n 0) i) = .ctrl := by
        rw [← h.input]
        exact hle.eq_ctrl_pred h hop hkinds' hi hpred.1
      rw [if_pos hpred, if_pos ⟨hpred', hpred.2⟩]
      exact inf_le_inf hacc hvalue
    · rw [if_neg hpred]
      split_ifs
      · exact inf_le_left.trans hacc
      · exact hacc
  · rw [if_pos hlive]
    exact le_top

theorem ctrlProj_input_mono {i : Nat} (h : g.Retyped g') (hle : g'.ReadsBelow g n)
    (hop : g.op n = .ctrlProj i) (hkinds : g.ReadsKinds n) (hkinds' : g'.ReadsKinds n) :
    (g'.ty (g'.input n 0)).ctrlProj i ≤ (g.ty (g.input n 0)).ctrlProj i := by
  have hside : g.input n 0 ∈ g.readsSide n := by
    rw [readsSide, hop]
    exact List.mem_singleton_self _
  refine Ty.ctrlProj_mono i (hle.input_le h 0) (hkinds.side _ hside) (hkinds'.side _ ?_)
  rwa [h.input, h.readsSide]

/-- Transfer functions are monotone, those of casts where something is left in common with the
declared type. -/
theorem typeOf_mono (h : g.Retyped g') (hle : g'.ReadsBelow g n) (hkinds : g.ReadsKinds n)
    (hkinds' : g'.ReadsKinds n)
    (hcast : g.op n = .cast → (g.ty (g.input n 1)).join (g.decl n) ≠ .top ∧
      (g'.ty (g'.input n 1)).join (g'.decl n) ≠ .top) :
    (g'.typeOf n).le (g.typeOf n) := by
  show g'.typeOf n ≤ g.typeOf n
  have hinput := hle.input_le h
  have htop := hle.eq_top_input h
  have hne := hkinds.nonempty_input
  have hphi (hop : g.op n = .phi) := phiType_mono h hle hop hkinds'
  have hregion (hop) := regionType_mono h hle hop hkinds hkinds'
  have hside (i : Nat) (hop : g.op n = .ctrlProj i) := ctrlProj_input_mono h hle hop hkinds hkinds'
  -- control that was live still is, so only what was dead waits
  have hlive (hc : g.HangsOnControl n) := hle.eq_ctrl_input h hkinds' hc
  have hdead (hc : g.HangsOnControl n) (hnot : (!g'.ctrlLive n) = true) :
      (!g.ctrlLive n) = true := by
    rw [Bool.not_eq_true', Bool.eq_false_iff] at hnot ⊢
    exact fun hlive => hnot (hle.ctrlLive h hkinds' hc hlive)
  unfold typeOf
  dsimp only
  rw [h.op]
  cases hop : g.op n with
  | start | stop | dead | const | startMem | scope => exact le_rfl
  | param => exact (h.decl n).le
  | region => exact hregion (.inl hop)
  | loop => exact hregion (.inr hop)
  | phi => exact hphi hop
  | arith op => exact Ty.arith_mono op (hinput 1) (hinput 2) (hne 1) (hne 2)
  | floatArith op => exact Ty.floatArith_mono op (hinput 1) (hinput 2)
  | bit op => exact Ty.bit_mono op (hinput 1) (hinput 2) (hne 1) (hne 2)
  | neg => exact Ty.neg_mono (hinput 1) (hne 1)
  | not => exact Ty.not_mono (hinput 1) (hne 1)
  | cmp op => exact Ty.cmp_mono op (hinput 1) (hinput 2) (hne 1) (hne 2)
  | floatCmp op => exact Ty.floatCmp_mono op (hinput 1) (hinput 2)
  | toFloat => exact Ty.toFloat_mono (hinput 1) (hne 1)
  | ctrlProj i => exact hside i hop
  | fork =>
    have hc : g.HangsOnControl n := by simp [HangsOnControl, readsControl, hop]
    dsimp only
    by_cases hl : g.ty (g.input n 0) = .ctrl
    · rw [if_pos hl, if_pos (hlive hc hl)]
      exact Ty.branchOn_mono (hinput 1) (hne 1)
    · rw [if_neg hl]
      exact le_top
  | ret | call | callEnd =>
    have hc : g.HangsOnControl n := by simp [HangsOnControl, readsControl, hop]
    have hc' : g'.HangsOnControl n := by rwa [HangsOnControl, h.input, h.readsControl]
    dsimp only
    rw [Ty.asCtrl_eq_self (hkinds.ctrl _ hc), Ty.asCtrl_eq_self (hkinds'.ctrl _ hc')]
    exact hinput 0
  | cast =>
    have hc : g.HangsOnControl n := by simp [HangsOnControl, readsControl, hop]
    have hjoin := (hcast hop).2
    rw [h.decl] at hjoin
    refine Ty.waiting_mono (Or.imp (hdead hc) (htop 1)) ?_
    rw [h.decl]
    exact Ty.join_mono (hinput 1) hjoin
  | load =>
    have hc : g.HangsOnControl n := by simp [HangsOnControl, readsControl, hop]
    exact Ty.waiting_mono (Or.imp (hdead hc) (Or.imp (htop 1) (htop 2))) (h.decl n).le
  | store =>
    have hc : g.HangsOnControl n := by simp [HangsOnControl, readsControl, hop]
    exact Ty.waiting_mono (Or.imp (hdead hc) (Or.imp (htop 1) (htop 2))) le_rfl
  | alloc =>
    have hc : g.HangsOnControl n := by simp [HangsOnControl, readsControl, hop]
    exact Ty.waiting_mono (Or.imp (hdead hc) (htop 1)) (h.decl n).le
  | proj i =>
    have hop? : g'.op? (g'.input n 0) = g.op? (g.input n 0) := by rw [h.input, h.op?]
    dsimp only
    rw [hop?, h.decl]
    split
    case h_1 => exact Ty.waiting_mono (htop 0) le_rfl
    case h_2 hend =>
      have hc : g.HangsOnControl n := by simp [HangsOnControl, readsControl, hop, hend]
      exact Ty.waiting_mono (mt (hlive hc)) le_rfl
    case h_3 => exact le_rfl

/-- A phi of one and two behind the sides of a branch. -/
def choice : Graph :=
  let (flag, g) := empty.add (.param 0) #[some start] .anyInt
  let (one, g) := g.const (.ofInt 1)
  let (two, g) := g.const (.ofInt 2)
  let (fork, g) := g.add .fork #[some start, some flag]
  let (onTrue, g) := g.add (.ctrlProj 0) #[some fork]
  let (onFalse, g) := g.add (.ctrlProj 1) #[some fork]
  let (region, g) := g.add .region #[none, some onTrue, some onFalse]
  let (_, g) := g.add .phi #[some region, some one, some two] .anyInt
  (g.setTy onTrue .ctrl).setTy region .ctrl

/-- The predecessor that becomes live brings its value with it. -/
theorem typeOf_mono_choice :
    (choice.setTy 8 .deadCtrl).typeOf 10 = .ofInt 1 ∧ (choice.setTy 8 .ctrl).typeOf 10 = .int 1 2 ∧
      ((choice.setTy 8 .ctrl).typeOf 10).le ((choice.setTy 8 .deadCtrl).typeOf 10) := by
  have hretyped : (choice.setTy 8 .deadCtrl).Retyped (choice.setTy 8 .ctrl) :=
    (choice.retyped_setTy 8 .deadCtrl).symm.trans (choice.retyped_setTy 8 .ctrl)
  have hcast : (choice.setTy 8 .deadCtrl).op 10 ≠ .cast := by decide +kernel
  refine ⟨by decide +kernel, by decide +kernel, ?_⟩
  exact typeOf_mono hretyped (by decide +kernel) (by decide +kernel) (by decide +kernel)
    fun h => absurd h hcast

end Graph

end SeaNodes
