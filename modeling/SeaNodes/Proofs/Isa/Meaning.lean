import SeaNodes.Compile
import SeaNodes.Proofs.Hardware.Tests
import SeaNodes.Proofs.Isa.Arm64Banks
import SeaNodes.Proofs.Isa.RiscVBanks
import SeaNodes.Proofs.Isa.X64Banks
import SeaNodes.Proofs.Registers.Execution

namespace SeaNodes

variable {τ : Type}

/-- The result on two words. -/
def AluOp.eval : AluOp → Int64 → Int64 → Int64
  | .add, x, y => x + y
  | .sub, x, y => x - y
  | .mul, x, y => x * y
  | .div, x, y => x / y
  | .and, x, y => BitOp.and.eval x y
  | .or, x, y => BitOp.or.eval x y
  | .xor, x, y => BitOp.xor.eval x y
  | .shl, x, y => BitOp.shl.eval x y
  | .shr, x, y => BitOp.shr.eval x y
  | .sar, x, y => BitOp.sar.eval x y

theorem AluOp.eval_ofBit (op : BitOp) (x y : Int64) : (ofBit op).eval x y = op.eval x y := by
  cases op <;> rfl

theorem AluOp.eval_comm {op : AluOp} (h : op.isCommutative) (x y : Int64) :
    op.eval x y = op.eval y x := by
  cases op with
  | add => exact Int64.add_comm x y
  | mul => exact Int64.mul_comm x y
  | and => exact Int64.and_comm x y
  | or => exact Int64.or_comm x y
  | xor => exact Int64.xor_comm x y
  | sub | div | shl | shr | sar => cases h

theorem AluOp.eval_and_63 {op : AluOp} (h : op.isShift) (x v : Int64) :
    op.eval x (v &&& 63) = op.eval x v := by
  have hlow : v &&& 63 &&& 63 = v &&& 63 := by rw [Int64.and_assoc, Int64.and_self]
  cases op with
  | shl | shr | sar => simp only [eval, BitOp.eval, hlow]
  | add | sub | mul | div | and | or | xor => cases h

/-- The readings of tests of integers, which are the words that an instruction reads. -/
def Readings.ofWords (ws : List Int64) : Readings where
  int k := (ws.getD k 0).toBitVec
  float k := ⟨(ws.getD k 0).toUInt64⟩

/-- What is known of a target's operations: when its tests hold, and which constants there is room
for in its instructions. -/
structure Semantics (τ : Type) where
  holds : τ → Readings → Bool
  /-- What the operations do that are not on integers. -/
  other : OpSem τ Int64
  /-- The constants that an operation on an immediate has room for. -/
  Takes : AluOp → Int64 → Prop
  /-- The instruction of the test has room for the constant in it. -/
  TakesIn : τ → Prop

namespace Semantics

/-- What operations compute. -/
def meaning (sem : Semantics τ) : OpSem τ Int64
  | .const v, _, _ => v
  | .alu op, [x, y], _ => op.eval x y
  | .aluImm op v, [x], _ => op.eval x v
  | .neg, [x], _ => -x
  | .setIf t, ws, _ => if sem.holds t (.ofWords ws) then 1 else 0
  | op, ws, k => sem.other op ws k

/-- There is room for the immediate of an operation. -/
def Fits (sem : Semantics τ) : MachOp τ → Prop
  | .aluImm op v => sem.Takes op v
  | .setIf t | .branch t _ _ => sem.TakesIn t
  | _ => True

end Semantics

/-- With constants among the operands an instruction set does what the operations and comparisons do,
and it has room for the constants. -/
structure Isa.Faithful (isa : Isa τ) (sem : Semantics τ) : Prop where
  op_constrain : ∀ i : Inst τ, (isa.constrain i).op = i.op
  eval_immediate : ∀ {op v op' v'}, isa.immediate? op v = some (op', v') →
    ∀ x, op'.eval x v' = op.eval x v
  takes : ∀ {op v op' v'}, isa.immediate? op v = some (op', v') → sem.Takes op' v'
  holds_intTest : ∀ {op a b x y} {u : Readings}, (∀ c ∈ a, c = x) → (∀ c ∈ b, c = y) →
    (∀ k s, (isa.intTest op a b).2[k]? = some s → u.int k = (s.pick x y).toBitVec) →
    sem.holds (isa.intTest op a b).1 u = op.evalInt x y
  takesIn : ∀ op a b, sem.TakesIn (isa.intTest op a b).1

theorem and_63_bounds (v : Int64) : 0 ≤ (v &&& 63).toInt ∧ (v &&& 63).toInt < 64 := by
  have hle : (v.toBitVec &&& 63).toNat ≤ 63 := by
    rw [BitVec.toNat_and]
    exact Nat.and_le_right
  have hint : (v.toBitVec &&& 63).toInt = (v.toBitVec &&& 63).toNat :=
    BitVec.toInt_eq_toNat_of_lt (by omega)
  change 0 ≤ (v.toBitVec &&& 63).toInt ∧ (v.toBitVec &&& 63).toInt < 64
  rw [hint]
  omega

namespace X64

/-- Immediates have 32 bits with a sign, and the counts of shifts 6 bits. A division has none. -/
def semantics (other : OpSem Test Int64) : Semantics Test where
  holds := Test.holds
  other := other
  Takes op v :=
    if op.isShift then 0 ≤ v.toInt ∧ v.toInt < 2 ^ 6
    else op ≠ .div ∧ -2 ^ 31 ≤ v.toInt ∧ v.toInt < 2 ^ 31
  TakesIn _ := True

theorem faithful (abi : Abi) (other : OpSem Test Int64) :
    (isa abi).Faithful (semantics other) where
  op_constrain := (banks abi).constrain_op
  eval_immediate {op v op' v'} h x := by
    change immediate? op v = _ at h
    unfold immediate? at h
    split_ifs at h with hdiv hshift hfits
    · cases h
      exact AluOp.eval_and_63 hshift x v
    · cases h
      rfl
  takes {op v op' v'} h := by
    change immediate? op v = _ at h
    unfold immediate? at h
    split_ifs at h with hdiv hshift hfits
    · cases h
      exact (if_pos hshift).mpr (and_63_bounds v)
    · cases h
      exact (if_neg hshift).mpr ⟨hdiv, fitsSigned_iff.mp hfits⟩
  holds_intTest := holds_intTest _ _
  takesIn _ _ _ := trivial

end X64

namespace Arm64

/-- Immediates have 12 bits and are added or subtracted, and the counts of shifts have 6 bits. -/
def semantics (other : OpSem Test Int64) : Semantics Test where
  holds := Test.holds
  other := other
  Takes op v :=
    if op.isShift then 0 ≤ v.toInt ∧ v.toInt < 2 ^ 6
    else op = .add ∧ -2 ^ 12 < v.toInt ∧ v.toInt < 2 ^ 12
  TakesIn t := ∀ v, t.compare = .imm v → -2 ^ 12 < v.toInt ∧ v.toInt < 2 ^ 12

theorem bounds_of_fitsImmediate {v : Int64} (h : fitsImmediate v) :
    -2 ^ 12 < v.toInt ∧ v.toInt < 2 ^ 12 := by
  obtain ⟨hlow, hhigh⟩ := (Bool.and_eq_true _ _).mp h
  have hlow := Int64.le_iff_toInt_le.mp (of_decide_eq_true hlow)
  have hhigh := Int64.le_iff_toInt_le.mp (of_decide_eq_true hhigh)
  rw [show (-4095 : Int64).toInt = -4095 by decide] at hlow
  rw [show (4095 : Int64).toInt = 4095 by decide] at hhigh
  omega

theorem bounds_neg {v : Int64} (h : -2 ^ 12 < v.toInt ∧ v.toInt < 2 ^ 12) :
    -2 ^ 12 < (-v).toInt ∧ (-v).toInt < 2 ^ 12 := by
  rw [Int64.toInt_neg, Int.bmod_def]
  omega

theorem faithful (other : OpSem Test Int64) : isa.Faithful (semantics other) where
  op_constrain := banks.constrain_op
  eval_immediate {op v op' v'} h x := by
    change immediate? op v = _ at h
    unfold immediate? at h
    cases op with
    | add =>
      obtain ⟨_, h⟩ := Option.ite_none_right_eq_some.mp h
      cases h
      rfl
    | sub =>
      obtain ⟨_, h⟩ := Option.ite_none_right_eq_some.mp h
      cases h
      exact (Int64.sub_eq_add_neg x v).symm
    | shl | shr | sar =>
      cases h
      exact AluOp.eval_and_63 rfl x v
    | mul | div | and | or | xor => cases h
  takes {op v op' v'} h := by
    change immediate? op v = _ at h
    unfold immediate? at h
    cases op with
    | add =>
      obtain ⟨hfits, h⟩ := Option.ite_none_right_eq_some.mp h
      cases h
      exact ⟨rfl, bounds_of_fitsImmediate hfits⟩
    | sub =>
      obtain ⟨hfits, h⟩ := Option.ite_none_right_eq_some.mp h
      cases h
      exact ⟨rfl, bounds_neg (bounds_of_fitsImmediate hfits)⟩
    | shl | shr | sar =>
      cases h
      exact and_63_bounds v
    | mul | div | and | or | xor => cases h
  holds_intTest := holds_intTest _ _
  takesIn op a b v hv := by
    change (intTest op a b).1.compare = _ at hv
    unfold intTest at hv
    split at hv
    case h_1 hb =>
      cases hv
      exact bounds_of_fitsImmediate (Option.filter_eq_some_iff.mp hb).2
    case h_2 ha _ =>
      cases hv
      exact bounds_of_fitsImmediate (Option.filter_eq_some_iff.mp ha).2
    case h_3 => cases hv

end Arm64

namespace RiscV

/-- Immediates have 12 bits with a sign, and the counts of shifts 6 bits. There are none to be
subtracted, multiplied or divided by, and comparisons have none. -/
def semantics (other : OpSem Test Int64) : Semantics Test where
  holds := Test.holds
  other := other
  Takes op v :=
    if op.isShift then 0 ≤ v.toInt ∧ v.toInt < 2 ^ 6
    else op ∈ [AluOp.add, .and, .or, .xor] ∧ -2 ^ 11 ≤ v.toInt ∧ v.toInt < 2 ^ 11
  TakesIn _ := True

theorem bounds_neg {v : Int64} (h : fits12 (-v.toInt)) :
    -2 ^ 11 ≤ (-v).toInt ∧ (-v).toInt < 2 ^ 11 := by
  have hbounds := fits12_iff.mp h
  rw [Int64.toInt_neg, Int.bmod_def]
  omega

theorem faithful (other : OpSem Test Int64) : isa.Faithful (semantics other) where
  op_constrain := banks.constrain_op
  eval_immediate {op v op' v'} h x := by
    change immediate? op v = _ at h
    unfold immediate? at h
    cases op with
    | add | and | or | xor =>
      obtain ⟨_, h⟩ := Option.ite_none_right_eq_some.mp h
      cases h
      rfl
    | sub =>
      obtain ⟨_, h⟩ := Option.ite_none_right_eq_some.mp h
      cases h
      exact (Int64.sub_eq_add_neg x v).symm
    | shl | shr | sar =>
      cases h
      exact AluOp.eval_and_63 rfl x v
    | mul | div => cases h
  takes {op v op' v'} h := by
    change immediate? op v = _ at h
    unfold immediate? at h
    cases op with
    | add | and | or | xor =>
      obtain ⟨hfits, h⟩ := Option.ite_none_right_eq_some.mp h
      cases h
      exact ⟨by decide, fits12_iff.mp hfits⟩
    | sub =>
      obtain ⟨hfits, h⟩ := Option.ite_none_right_eq_some.mp h
      cases h
      exact ⟨by decide, bounds_neg hfits⟩
    | shl | shr | sar =>
      cases h
      exact and_63_bounds v
    | mul | div => cases h
  holds_intTest := holds_intTest _ _
  takesIn _ _ _ := trivial

end RiscV

def Target.semantics (t : Target) (other : OpSem t.isa.1 Int64) : Semantics t.isa.1 :=
  match t with
  | ⟨.x64, _⟩ => X64.semantics other
  | ⟨.arm64, _⟩ => Arm64.semantics other
  | ⟨.riscv64, _⟩ => RiscV.semantics other

theorem Target.faithful (t : Target) (other : OpSem t.isa.1 Int64) :
    t.isa.2.Faithful (t.semantics other) := by
  obtain ⟨arch, abi⟩ := t
  cases arch with
  | x64 => exact X64.faithful abi other
  | arm64 => exact Arm64.faithful other
  | riscv64 => exact RiscV.faithful other

end SeaNodes
