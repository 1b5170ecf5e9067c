import SeaNodes.Proofs.Hardware.Arm64
import SeaNodes.Proofs.Hardware.RiscV
import SeaNodes.Proofs.Hardware.X64

namespace SeaNodes

def Side.pick {α : Type} (left right : α) : Side → α
  | .left => left
  | .right => right

/-- The values of operands that a test reads, `u0` first. -/
structure Readings where
  int : Nat → BitVec 64
  float : Nat → Double

variable {op : CmpOp} {a b : BitVec 64} {x y : Int64} {u : Readings}

namespace X64

def Cond.holds (c : Cond) (f : Flags) : Bool := conditionHolds c.bits f

def Compare.flags (c : Compare) (u : Readings) : Flags :=
  match c with
  | .regs => subFlags (u.int 0) (u.int 1)
  | .imm v => subFlags (u.int 0) (v.toBitVec.signExtend 64)
  | .zero => andFlags (u.int 0) (u.int 0)
  | .float => orderFlags ((u.float 0).order (u.float 1))

def Outcome.holds (o : Outcome) (f : Flags) : Bool :=
  match o with
  | .flags c => c.holds f
  | .floatEq => Cond.equal.holds f && Cond.noParity.holds f
  | .floatNe => Cond.notEqual.holds f || Cond.parity.holds f

def Test.holds (t : Test) (u : Readings) : Bool := t.outcome.holds (t.compare.flags u)

theorem Cond.holds_invert (c : Cond) (f : Flags) : c.invert.holds f = !c.holds f := by
  obtain ⟨cf, pf, zf, sf, of⟩ := f
  cases c <;> simp [Cond.holds, Cond.invert, conditionHolds, Cond.bits, Cond.code]

theorem holds_equal (a b : BitVec 64) : Cond.equal.holds (subFlags a b) = decide (a = b) := by
  change (decide (a - b = 0) != false) = _
  rw [Bool.bne_false, decide_eq_decide, sub_eq_zero_iff]

theorem holds_less (a b : BitVec 64) :
    Cond.less.holds (subFlags a b) = decide (a.toInt < b.toInt) := by
  rw [← msb_sub_bne_overflow]
  exact Bool.bne_false _

theorem holds_lessEqual (a b : BitVec 64) :
    Cond.lessEqual.holds (subFlags a b) = decide (a.toInt ≤ b.toInt) := by
  change ((decide (a - b = 0) || (_ != _)) != false) = _
  rw [Bool.bne_false]
  refine (congrArg _ (msb_sub_bne_overflow a b)).trans ?_
  rw [← Bool.decide_or, decide_eq_decide, sub_eq_zero_iff, ← BitVec.toInt_inj]
  omega

theorem holds_notEqual (a b : BitVec 64) : Cond.notEqual.holds (subFlags a b) = !decide (a = b) :=
  (Cond.holds_invert .equal _).trans (congrArg _ (holds_equal a b))

theorem holds_greater (a b : BitVec 64) :
    Cond.greater.holds (subFlags a b) = decide (b.toInt < a.toInt) := by
  refine (Cond.holds_invert .lessEqual _).trans ?_
  rw [holds_lessEqual, ← decide_not, decide_eq_decide, not_le]

theorem holds_greaterEqual (a b : BitVec 64) :
    Cond.greaterEqual.holds (subFlags a b) = decide (b.toInt ≤ a.toInt) := by
  refine (Cond.holds_invert .less _).trans ?_
  rw [holds_less, ← decide_not, decide_eq_decide, not_lt]

theorem holds_condOf (op : CmpOp) (x y : Int64) :
    (condOf op).holds (subFlags x.toBitVec y.toBitVec) = op.evalInt x y := by
  cases op with
  | eq => exact (holds_equal ..).trans (CmpOp.evalInt_eq x y).symm
  | ne => exact (holds_notEqual ..).trans (CmpOp.evalInt_ne x y).symm
  | lt => exact (holds_less ..).trans (CmpOp.evalInt_lt x y).symm
  | le => exact (holds_lessEqual ..).trans (CmpOp.evalInt_le x y).symm

theorem holds_swap_condOf (op : CmpOp) (x y : Int64) :
    (condOf op).swap.holds (subFlags y.toBitVec x.toBitVec) = op.evalInt x y := by
  have hcomm : decide (y.toBitVec = x.toBitVec) = decide (x.toBitVec = y.toBitVec) :=
    decide_eq_decide.mpr eq_comm
  cases op with
  | eq => exact (holds_equal ..).trans (hcomm.trans (CmpOp.evalInt_eq x y).symm)
  | ne =>
    exact (holds_notEqual ..).trans ((congrArg _ hcomm).trans (CmpOp.evalInt_ne x y).symm)
  | lt => exact (holds_greater ..).trans (CmpOp.evalInt_lt x y).symm
  | le => exact (holds_greaterEqual ..).trans (CmpOp.evalInt_le x y).symm

theorem holds_condOf_zero (h : op.isCommutative) (x : Int64) :
    (condOf op).holds (andFlags x.toBitVec x.toBitVec) = op.evalInt x 0 := by
  have hequal : Cond.equal.holds (andFlags x.toBitVec x.toBitVec) = decide (x.toBitVec = 0) := by
    change (decide (x.toBitVec &&& x.toBitVec = 0) != false) = _
    rw [Bool.bne_false, BitVec.and_self]
  cases op with
  | eq =>
    rw [CmpOp.evalInt_eq]
    exact hequal
  | ne =>
    rw [CmpOp.evalInt_ne]
    exact (Cond.holds_invert .equal _).trans (congrArg _ hequal)
  | lt | le => cases h

theorem signExtend_of_immediate32? {v : Int64} {i : Int32} (h : immediate32? v = some i) :
    i.toBitVec.signExtend 64 = v.toBitVec := by
  unfold immediate32? at h
  split_ifs at h with hfits
  obtain rfl := Option.some.inj h
  obtain ⟨hlow, hhigh⟩ := fitsSigned_iff.mp hfits
  rw [Int64.toBitVec_toInt32, BitVec.signExtend_eq_setWidth_of_le v.toBitVec (by decide : 32 ≤ 64)]
  exact signExtend_setWidth hlow hhigh

theorem holds_intTest (a b : Option Int64) (ha : ∀ c ∈ a, c = x) (hb : ∀ c ∈ b, c = y)
    (hu : ∀ k s, (intTest op a b).2[k]? = some s → u.int k = (s.pick x y).toBitVec) :
    (intTest op a b).1.holds u = op.evalInt x y := by
  unfold intTest at hu ⊢
  split at hu
  case h_1 v hv =>
    obtain ⟨c, hc, hv⟩ := Option.bind_eq_some_iff.mp hv
    obtain rfl := hb c hc
    have himm := signExtend_of_immediate32? hv
    split_ifs at hu ⊢ with hzero
    · have h0 : u.int 0 = x.toBitVec := hu 0 .left rfl
      rw [hzero.1] at himm
      have hc : c = 0 := Int64.toBitVec_inj.mp himm.symm
      rw [hc, ← holds_condOf_zero hzero.2, ← h0]
      rfl
    · have h0 : u.int 0 = x.toBitVec := hu 0 .left rfl
      rw [← holds_condOf, ← himm, ← h0]
      rfl
  case h_2 v hv hnone =>
    obtain ⟨c, hc, hv⟩ := Option.bind_eq_some_iff.mp hv
    obtain rfl := ha c hc
    have himm := signExtend_of_immediate32? hv
    have h0 : u.int 0 = y.toBitVec := hu 0 .right rfl
    rw [← holds_swap_condOf, ← himm, ← h0]
    rfl
  case h_3 =>
    have h0 : u.int 0 = x.toBitVec := hu 0 .left rfl
    have h1 : u.int 1 = y.toBitVec := hu 1 .right rfl
    rw [← holds_condOf, ← h0, ← h1]
    rfl

theorem holds_floatTest {x y : Double}
    (hu : ∀ k s, (floatTest op).2[k]? = some s → u.float k = s.pick x y) :
    (floatTest op).1.holds u = op.evalFloat x y := by
  cases op with
  | eq =>
    have h0 : u.float 0 = x := hu 0 .left rfl
    have h1 : u.float 1 = y := hu 1 .right rfl
    rw [CmpOp.evalFloat, Double.eq_eq_order, ← h0, ← h1]
    unfold Test.holds floatTest Compare.flags
    cases (u.float 0).order (u.float 1) with
    | none => rfl
    | some o => cases o <;> rfl
  | ne =>
    have h0 : u.float 0 = x := hu 0 .left rfl
    have h1 : u.float 1 = y := hu 1 .right rfl
    rw [CmpOp.evalFloat, Double.eq_eq_order, ← h0, ← h1]
    unfold Test.holds floatTest Compare.flags
    cases (u.float 0).order (u.float 1) with
    | none => rfl
    | some o => cases o <;> rfl
  | lt =>
    have h0 : u.float 0 = y := hu 0 .right rfl
    have h1 : u.float 1 = x := hu 1 .left rfl
    rw [CmpOp.evalFloat, Double.lt_eq_order, Double.order_swap, ← h0, ← h1]
    unfold Test.holds floatTest Compare.flags
    cases (u.float 0).order (u.float 1) with
    | none => rfl
    | some o => cases o <;> rfl
  | le =>
    have h0 : u.float 0 = y := hu 0 .right rfl
    have h1 : u.float 1 = x := hu 1 .left rfl
    rw [CmpOp.evalFloat, Double.le_eq_order, Double.order_swap, ← h0, ← h1]
    unfold Test.holds floatTest Compare.flags
    cases (u.float 0).order (u.float 1) with
    | none => rfl
    | some o => cases o <;> rfl

end X64

namespace Arm64

def Cond.bits (c : Cond) : BitVec 4 := c.code.toBitVec.extractLsb' 0 4

def Cond.holds (c : Cond) (f : Flags) : Bool := conditionHolds c.bits f

def Compare.flags (c : Compare) (u : Readings) : Flags :=
  match c with
  | .regs => (addWithCarry (u.int 0) (~~~u.int 1) true).2
  | .imm v =>
    if 0 ≤ v then (addWithCarry (u.int 0) (~~~v.toBitVec) true).2
    else (addWithCarry (u.int 0) (-v).toBitVec false).2
  | .float => orderFlags ((u.float 0).order (u.float 1))

def Test.holds (t : Test) (u : Readings) : Bool := t.cond.holds (t.compare.flags u)

theorem Cond.holds_invert (c : Cond) (f : Flags) : c.invert.holds f = !c.holds f := by
  obtain ⟨n, z, c', v⟩ := f
  cases c <;> simp [Cond.holds, Cond.invert, conditionHolds, Cond.bits, Cond.code]

/-- The flags by which signed numbers are compared. -/
structure Compares (f : Flags) (a b : BitVec 64) : Prop where
  zero : f.z = decide (a = b)
  less : (f.n != f.v) = decide (a.toInt < b.toInt)

theorem compares_sub (a b : BitVec 64) : Compares (addWithCarry a (~~~b) true).2 a b := by
  have hsum : a + ~~~b + BitVec.ofNat 64 true.toNat = a - b := by
    rw [BitVec.sub_eq_add_neg, BitVec.neg_eq_not_add, BitVec.add_assoc]
    rfl
  have hint : a.toInt + (~~~b).toInt + (true.toNat : Nat) = a.toInt - b.toInt := by
    have hlt := b.isLt
    rw [BitVec.toInt_not, BitVec.toInt_eq_toNat_cond b, Int.bmod_def, Bool.toNat_true]
    norm_num at hlt ⊢
    split_ifs <;> omega
  constructor
  · rw [addWithCarry, decide_eq_decide, hsum, sub_eq_zero_iff]
  · rw [← msb_sub_bne_overflow]
    dsimp only [addWithCarry]
    rw [hsum, hint]

theorem compares_add {a b : BitVec 64} (h : b ≠ BitVec.intMin 64) :
    Compares (addWithCarry a b false).2 a (-b) := by
  have hsum : a + b + BitVec.ofNat 64 false.toNat = a - -b := by
    rw [BitVec.sub_eq_add_neg, BitVec.neg_neg]
    exact BitVec.add_zero _
  have hint : a.toInt + b.toInt + (false.toNat : Nat) = a.toInt - (-b).toInt := by
    rw [BitVec.toInt_neg_of_ne_intMin h]
    simp
  constructor
  · rw [addWithCarry, decide_eq_decide, hsum, sub_eq_zero_iff]
  · rw [← msb_sub_bne_overflow]
    dsimp only [addWithCarry]
    rw [hsum, hint]

namespace Compares

variable {f : Flags}

theorem holds_eq (h : Compares f a b) : Cond.eq.holds f = decide (a = b) := h.zero

theorem holds_lt (h : Compares f a b) : Cond.lt.holds f = decide (a.toInt < b.toInt) := h.less

theorem holds_gt (h : Compares f a b) : Cond.gt.holds f = decide (b.toInt < a.toInt) := by
  have hless : (f.n == f.v) = !decide (a.toInt < b.toInt) := by
    rw [← h.less]
    cases f.n <;> cases f.v <;> rfl
  change ((f.n == f.v) && !f.z) = _
  rw [hless, h.zero, ← decide_not, ← decide_not, ← Bool.decide_and, decide_eq_decide,
    ← BitVec.toInt_inj]
  omega

theorem holds_condOf (h : Compares f x.toBitVec y.toBitVec) (op : CmpOp) :
    (condOf op).holds f = op.evalInt x y := by
  cases op with
  | eq => exact h.holds_eq.trans (CmpOp.evalInt_eq x y).symm
  | ne =>
    rw [CmpOp.evalInt_ne, ← h.holds_eq]
    exact Cond.holds_invert .eq f
  | lt => exact h.holds_lt.trans (CmpOp.evalInt_lt x y).symm
  | le =>
    rw [CmpOp.evalInt_le]
    refine (Cond.holds_invert .gt f).trans ?_
    rw [h.holds_gt, ← decide_not, decide_eq_decide, not_lt]

theorem holds_swap_condOf (h : Compares f y.toBitVec x.toBitVec) (op : CmpOp) :
    (condOf op).swap.holds f = op.evalInt x y := by
  have hcomm : decide (y.toBitVec = x.toBitVec) = decide (x.toBitVec = y.toBitVec) :=
    decide_eq_decide.mpr eq_comm
  cases op with
  | eq => exact h.holds_eq.trans (hcomm.trans (CmpOp.evalInt_eq x y).symm)
  | ne =>
    rw [CmpOp.evalInt_ne, ← hcomm, ← h.holds_eq]
    exact Cond.holds_invert .eq f
  | lt => exact h.holds_gt.trans (CmpOp.evalInt_lt x y).symm
  | le =>
    rw [CmpOp.evalInt_le]
    refine (Cond.holds_invert .lt f).trans ?_
    rw [h.holds_lt, ← decide_not, decide_eq_decide, not_lt]

end Compares

theorem compares_imm {v : Int64} (h : fitsImmediate v) (u : Readings) :
    Compares ((Compare.imm v).flags u) (u.int 0) v.toBitVec := by
  change Compares (if 0 ≤ v then _ else _) _ _
  split_ifs with hneg
  · exact compares_sub ..
  · have hmin : (-v).toBitVec ≠ BitVec.intMin 64 := by
      intro hmin
      obtain rfl : v = Int64.minValue := by
        rw [← Int64.neg_neg (a := v), ← Int64.toBitVec_inj, Int64.toBitVec_neg, hmin]
        rfl
      exact absurd h (by decide)
    have hadd := compares_add (a := u.int 0) hmin
    rwa [Int64.toBitVec_neg, BitVec.neg_neg, ← Int64.toBitVec_neg] at hadd

theorem holds_intTest (a b : Option Int64) (ha : ∀ c ∈ a, c = x) (hb : ∀ c ∈ b, c = y)
    (hu : ∀ k s, (intTest op a b).2[k]? = some s → u.int k = (s.pick x y).toBitVec) :
    (intTest op a b).1.holds u = op.evalInt x y := by
  unfold intTest at hu ⊢
  split at hu
  case h_1 v hv =>
    obtain ⟨hc, hfits⟩ := Option.filter_eq_some_iff.mp hv
    obtain rfl := hb v hc
    have h0 : u.int 0 = x.toBitVec := hu 0 .left rfl
    exact (h0 ▸ compares_imm hfits u).holds_condOf op
  case h_2 v hv hnone =>
    obtain ⟨hc, hfits⟩ := Option.filter_eq_some_iff.mp hv
    obtain rfl := ha v hc
    have h0 : u.int 0 = y.toBitVec := hu 0 .right rfl
    exact (h0 ▸ compares_imm hfits u).holds_swap_condOf op
  case h_3 =>
    have h0 : u.int 0 = x.toBitVec := hu 0 .left rfl
    have h1 : u.int 1 = y.toBitVec := hu 1 .right rfl
    refine Compares.holds_condOf ?_ op
    rw [← h0, ← h1]
    exact compares_sub ..

theorem holds_floatTest {x y : Double}
    (hu : ∀ k s, (floatTest op).2[k]? = some s → u.float k = s.pick x y) :
    (floatTest op).1.holds u = op.evalFloat x y := by
  have h0 : u.float 0 = x := hu 0 .left rfl
  have h1 : u.float 1 = y := hu 1 .right rfl
  subst h0 h1
  unfold Test.holds floatTest Compare.flags
  cases op with
  | eq | ne =>
    rw [CmpOp.evalFloat, Double.eq_eq_order]
    cases (u.float 0).order (u.float 1) with
    | none => rfl
    | some o => cases o <;> rfl
  | lt =>
    rw [CmpOp.evalFloat, Double.lt_eq_order]
    cases (u.float 0).order (u.float 1) with
    | none => rfl
    | some o => cases o <;> rfl
  | le =>
    rw [CmpOp.evalFloat, Double.le_eq_order]
    cases (u.float 0).order (u.float 1) with
    | none => rfl
    | some o => cases o <;> rfl

end Arm64

namespace RiscV

def Cond.bits (c : Cond) : BitVec 3 := c.funct3.toBitVec.extractLsb' 0 3

def Cond.holds (c : Cond) (a b : BitVec 64) : Bool := isTaken c.bits a b

def Src.read (u : Readings) : Src → BitVec 64
  | .use i => u.int i
  | .zero => 0

/-- The bits of a comparison of doubles; inequality is made of equality. -/
def floatBits : CmpOp → BitVec 3
  | .eq | .ne => 2
  | .lt => 1
  | .le => 0

def Test.holds (t : Test) (u : Readings) : Bool :=
  match t with
  | .int c l r => c.holds (l.read u) (r.read u)
  | .float op => isOrdered (floatBits op) (u.float 0) (u.float 1) != (op == .ne)

theorem Cond.holds_invert (c : Cond) (a b : BitVec 64) : c.invert.holds a b = !c.holds a b := by
  cases c with
  | eq => exact decide_not
  | ne =>
    change decide (a = b) = !decide (a ≠ b)
    rw [← decide_not, decide_eq_decide, not_not]
  | lt =>
    change decide (b.toInt ≤ a.toInt) = !decide (a.toInt < b.toInt)
    rw [← decide_not, decide_eq_decide, not_lt]
  | ge =>
    change decide (a.toInt < b.toInt) = !decide (b.toInt ≤ a.toInt)
    rw [← decide_not, decide_eq_decide, not_le]

/-- The test for a comparison of two sides. -/
def testOf (op : CmpOp) (l r : Src) : Test :=
  match op with
  | .eq => .int .eq l r
  | .ne => .int .ne l r
  | .lt => .int .lt l r
  | .le => .int .ge r l

/-- The sides of a comparison, zero where it is known, and the operands that are read. -/
def sidesOf (a b : Option Int64) : Src × Src × List Side :=
  match a == some 0, b == some 0 with
  | true, true => (.zero, .zero, [])
  | true, false => (.zero, .use 0, [.right])
  | false, true => (.use 0, .zero, [.left])
  | false, false => (.use 0, .use 1, [.left, .right])

theorem intTest_eq (op : CmpOp) (a b : Option Int64) :
    intTest op a b = (testOf op (sidesOf a b).1 (sidesOf a b).2.1, (sidesOf a b).2.2) := by
  unfold intTest sidesOf
  cases a == some 0 <;> cases b == some 0 <;> cases op <;> rfl

theorem holds_testOf {l r : Src} (hl : l.read u = x.toBitVec) (hr : r.read u = y.toBitVec)
    (op : CmpOp) : (testOf op l r).holds u = op.evalInt x y := by
  cases op with
  | eq =>
    rw [CmpOp.evalInt_eq, ← hl, ← hr]
    rfl
  | ne =>
    rw [CmpOp.evalInt_ne, ← hl, ← hr, ← decide_not]
    rfl
  | lt =>
    rw [CmpOp.evalInt_lt, ← hl, ← hr]
    rfl
  | le =>
    rw [CmpOp.evalInt_le, ← hl, ← hr]
    rfl

theorem holds_intTest (a b : Option Int64) (ha : ∀ c ∈ a, c = x) (hb : ∀ c ∈ b, c = y)
    (hu : ∀ k s, (intTest op a b).2[k]? = some s → u.int k = (s.pick x y).toBitVec) :
    (intTest op a b).1.holds u = op.evalInt x y := by
  rw [intTest_eq] at hu ⊢
  dsimp only at hu ⊢
  unfold sidesOf at hu ⊢
  cases ha0 : a == some 0 <;> cases hb0 : b == some 0 <;> rw [ha0, hb0] at hu
  · have hl : Src.read u (.use 0) = x.toBitVec := hu 0 .left rfl
    have hr : Src.read u (.use 1) = y.toBitVec := hu 1 .right rfl
    exact holds_testOf hl hr op
  · obtain rfl := hb 0 (beq_iff_eq.mp hb0)
    have hl : Src.read u (.use 0) = x.toBitVec := hu 0 .left rfl
    exact holds_testOf hl (show Src.read u .zero = _ from rfl) op
  · obtain rfl := ha 0 (beq_iff_eq.mp ha0)
    have hr : Src.read u (.use 0) = y.toBitVec := hu 0 .right rfl
    exact holds_testOf (show Src.read u .zero = _ from rfl) hr op
  · obtain rfl := ha 0 (beq_iff_eq.mp ha0)
    obtain rfl := hb 0 (beq_iff_eq.mp hb0)
    exact holds_testOf (show Src.read u .zero = _ from rfl) (show Src.read u .zero = _ from rfl) op

theorem holds_floatTest {x y : Double}
    (hu : ∀ k s, (floatTest op).2[k]? = some s → u.float k = s.pick x y) :
    (floatTest op).1.holds u = op.evalFloat x y := by
  have h0 : u.float 0 = x := hu 0 .left rfl
  have h1 : u.float 1 = y := hu 1 .right rfl
  subst h0 h1
  cases op with
  | eq =>
    rw [CmpOp.evalFloat, Double.eq_eq_order]
    exact Bool.bne_false _
  | ne =>
    rw [CmpOp.evalFloat, Double.eq_eq_order]
    exact Bool.bne_true _
  | lt =>
    rw [CmpOp.evalFloat, Double.lt_eq_order]
    exact Bool.bne_false _
  | le =>
    rw [CmpOp.evalFloat, Double.le_eq_order]
    exact Bool.bne_false _

end RiscV

end SeaNodes
