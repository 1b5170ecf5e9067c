import SeaNodes.Proofs.Hardware.Arm64Constants
import SeaNodes.Proofs.Hardware.RiscVConstants
import SeaNodes.Proofs.Hardware.X64

namespace SeaNodes

namespace X64

theorem runs_movImm {mem : ByteMemory} (d : Gpr) (v : Int64) (s : State)
    (h : mem.Holds s.rip (movImm d v)) :
    cpu.Runs mem s ((s.past (movImm d v).length).set d v.toBitVec) := by
  unfold movImm at h ⊢
  split_ifs at h ⊢ with hunsigned hsigned
  · rw [Bool.and_eq_true, decide_eq_true_iff, decide_eq_true_iff, Int64.le_iff_toInt_le,
      Int64.lt_iff_toInt_lt] at hunsigned
    have hvalue : v.toUInt64.toUInt32.toBitVec.setWidth 64 = v.toBitVec := by
      have hlow : 0 ≤ v.toBitVec.toInt := hunsigned.1
      have hhigh : v.toBitVec.toInt < 0x100000000 := hunsigned.2
      apply BitVec.eq_of_toNat_eq
      rw [BitVec.toNat_setWidth, UInt32.toNat_toBitVec, UInt64.toNat_toUInt32]
      change v.toBitVec.toNat % 2 ^ 32 % 2 ^ 64 = v.toBitVec.toNat
      rw [BitVec.toInt_eq_toNat_cond] at hlow hhigh
      norm_num at hlow hhigh ⊢
      split_ifs at hlow hhigh <;> omega
    refine .single ((step_of_decode (decode_movImm32 h)).trans ?_)
    rw [hvalue]
    rfl
  · rw [Bool.and_eq_true, decide_eq_true_iff, decide_eq_true_iff, Int64.le_iff_toInt_le,
      Int64.lt_iff_toInt_lt] at hsigned
    have hvalue : v.toInt32.toBitVec.signExtend 64 = v.toBitVec := by
      rw [Int64.toBitVec_toInt32, 
        BitVec.signExtend_eq_setWidth_of_le v.toBitVec (by decide : 32 ≤ 64)]
      exact signExtend_setWidth hsigned.1 hsigned.2
    refine .single ((step_of_decode (decode_movImmSigned h)).trans ?_)
    rw [hvalue]
    rfl
  · exact .single (step_of_decode (decode_movImm64 h))

end X64

namespace RiscV

theorem natAbs_upperPart_le {v : Int} {n : Nat} (h : v.natAbs ≤ 2 ^ 12 * n) :
    (upperPart v).1.natAbs ≤ n := by
  refine (Int.natAbs_ediv_le_natAbs _ _).trans ?_
  rw [Int.bmod_def]
  norm_num at h
  split_ifs <;> omega

theorem length_loadConst_le (d : Num) {v : Int} {k : Nat} (h : v.natAbs ≤ 2 ^ (27 + 12 * k)) :
    (loadConst d v).length ≤ 2 + 2 * k := by
  induction k generalizing v with
  | zero =>
    have hword : fitsSigned v 32 := by
      apply fitsSigned_iff.mpr
      norm_num at h ⊢
      omega
    rw [loadConst]
    dsimp only
    split_ifs <;> simp only [List.length_cons, List.length_nil] <;> omega
  | succ k ih =>
    have hupper : (upperPart v).1.natAbs ≤ 2 ^ (27 + 12 * k) :=
      natAbs_upperPart_le (by rwa [← pow_add, show 12 + (27 + 12 * k) = 27 + 12 * (k + 1) by omega])
    have hrest := ih hupper
    rw [loadConst]
    dsimp only
    split_ifs <;> simp only [List.length_cons, List.length_nil, List.length_append] <;> omega

theorem length_loadConst_le_eight (d : Num) (v : Int64) : (loadConst d v.toInt).length ≤ 8 := by
  have hlow : -2 ^ 63 ≤ v.toInt := v.le_toInt
  have hhigh : v.toInt < 2 ^ 63 := v.toInt_lt
  refine length_loadConst_le d (k := 3) ?_
  norm_num at hlow hhigh ⊢
  omega

end RiscV

/-- Every constant is loaded exactly, on each of the three processors: what has changed when all
instructions are carried out is the register, and where the next instruction comes from. The expansion on
RISC-V ends, with eight instructions at most. On AArch64 it consists of half-word moves, of which no
sequence that leaves the constant in the register is shorter. -/
theorem constants_loaded (v : Int64) (mem : ByteMemory) :
    (∀ (d : RiscV.Num) (s : RiscV.State), d.toNat < 32 → d ≠ RiscV.zero →
      let code := (RiscV.loadConst d v.toInt).map Prod.fst
      code.length ≤ 8 ∧ (mem.Holds s.pc (code.flatMap bytes32) → RiscV.cpu.Runs mem s
        ((s.goto (s.pc + BitVec.ofNat 64 (4 * code.length))).set (RiscV.regOf d) v.toBitVec))) ∧
    (∀ (d : Arm64.Num) (s : Arm64.State), d.toNat < 31 →
      let code := (Arm64.movImm d v).map Prod.fst
      code.length ≤ 4 ∧
      (∀ w ∈ code, ∃ i, Arm64.decode w = some i ∧ i.IsMove) ∧
      (∀ moves : List Arm64.Instr, (∀ i ∈ moves, i.IsMove) →
        (∀ s, (moves.foldl Arm64.exec s).get (Arm64.regOf d) = v.toBitVec) →
        code.length ≤ moves.length) ∧
      (mem.Holds s.pc (code.flatMap bytes32) → Arm64.cpu.Runs mem s
        ((s.goto (s.pc + BitVec.ofNat 64 (4 * code.length))).set (Arm64.regOf d) v.toBitVec))) ∧
    ∀ (d : X64.Gpr) (s : X64.State), mem.Holds s.rip (X64.movImm d v) → X64.cpu.Runs mem s
      ((s.past (X64.movImm d v).length).set d v.toBitVec) := by
  refine ⟨fun d s hd hzero => ?_, fun d s hd => ?_, fun d s => X64.runs_movImm d v s⟩
  · have hreg : RiscV.regOf d ≠ 0 := by
      intro h
      have hnat := RiscV.toNat_regOf hd
      rw [h] at hnat
      exact hzero (UInt32.toNat_inj.mp hnat.symm)
    dsimp only
    rw [List.length_map]
    refine ⟨RiscV.length_loadConst_le_eight d v, fun h => ?_⟩
    have hvalue : BitVec.ofInt 64 v.toInt = v.toBitVec := BitVec.ofInt_toInt
    exact hvalue ▸ RiscV.runs_loadConst hd hreg v.toInt s h
  · have hreg : Arm64.regOf d ≠ 31 := by
      intro h
      have hnat := Arm64.toNat_regOf (Nat.lt_succ_of_lt hd)
      rw [h] at hnat
      exact hd.ne' hnat
    dsimp only
    rw [List.length_map]
    exact ⟨Arm64.length_movImm_le_four d v, Arm64.isMove_movImm (by omega) v,
      fun moves => Arm64.length_movImm_le d v hreg, Arm64.runs_movImm (by omega) hreg v s⟩

/-- The sign bit of a word of 32 bits, and a constant whose complement is small. -/
theorem constants_loaded_signBit_complement :
    let x : RiscV.State := ⟨0, fun _ => 7, fun _ => Double.zero⟩
    let y : Arm64.State := ⟨0, fun _ => 7, fun _ => Double.zero, ⟨true, false, true, false⟩⟩
    let z : X64.State := ⟨0, fun _ => 7, fun _ => Double.zero, ⟨true, false, true, false, true⟩,
      ⟨false, false, false, false, false⟩⟩
    let c₁ := (RiscV.loadConst 5 (0x80000000 : Int64).toInt).map Prod.fst
    let c₂ := (Arm64.movImm 16 (-2)).map Prod.fst
    let c₃ := X64.movImm 9 0x80000000
    RiscV.cpu.Runs (.ofList (c₁.flatMap bytes32)) x
      ((x.goto (x.pc + BitVec.ofNat 64 (4 * c₁.length))).set (RiscV.regOf 5) 0x80000000) ∧
    Arm64.cpu.Runs (.ofList (c₂.flatMap bytes32)) y
      ((y.goto (y.pc + BitVec.ofNat 64 (4 * c₂.length))).set (Arm64.regOf 16) (-2)) ∧
    c₂.length ≤ [Arm64.Instr.movn (Arm64.regOf 16) 1 0].length ∧
    X64.cpu.Runs (.ofList c₃) z ((z.past c₃.length).set 9 0x80000000) := by
  intro x y z c₁ c₂ c₃
  have h₁ := (constants_loaded 0x80000000 (.ofList (c₁.flatMap bytes32))).1 5 x (by decide) (by decide)
  have h₂ := (constants_loaded (-2) (.ofList (c₂.flatMap bytes32))).2.1 16 y (by decide)
  refine ⟨h₁.2 (ByteMemory.holds_ofList ?_), h₂.2.2.2 (ByteMemory.holds_ofList ?_), h₂.2.2.1 _ ?_ fun s => ?_,
    (constants_loaded 0x80000000 (.ofList c₃)).2.2 9 z (ByteMemory.holds_ofList (by decide))⟩
  · rw [ByteMemory.length_flatMap_bytes32]
    exact (Nat.mul_le_mul_left 4 h₁.1).trans (by decide)
  · rw [ByteMemory.length_flatMap_bytes32]
    exact (Nat.mul_le_mul_left 4 h₂.1).trans (by decide)
  · exact List.forall_mem_singleton.mpr trivial
  · exact (Arm64.State.get_set_self (by decide)).trans (by decide)

end SeaNodes
