import SeaNodes.Proofs.Hardware.RiscV

namespace SeaNodes.RiscV

theorem signExtend_ofInt {n : Nat} (hn : 0 < n) (k : Nat) {v : Int} (h : fitsSigned v n) :
    (BitVec.ofInt n v).signExtend k = BitVec.ofInt k v := by
  rw [BitVec.signExtend, toInt_ofInt_of_fits hn h]

theorem fitsSigned_of_fits12 {v : Int} (h : fits12 v) : fitsSigned v 12 :=
  fitsSigned_iff.mpr (fits12_iff.mp h)

theorem fitsSigned_bmod (v : Int) : fitsSigned (Int.bmod v 0x1000) 12 := by
  apply fitsSigned_iff.mpr
  rw [Int.bmod_def]
  norm_num
  split_ifs <;> omega

theorem split_low (v : Int) : (v + 0x800) / 0x1000 * 0x1000 + Int.bmod v 0x1000 = v := by
  rw [Int.bmod_def]
  norm_num
  split_ifs <;> omega

theorem ofInt_shiftLeft (v : Int) (n : Nat) :
    BitVec.ofInt 64 v <<< n = BitVec.ofInt 64 (v * 2 ^ n) := by
  rw [BitVec.shiftLeft_eq_mul_twoPow, BitVec.ofInt_mul]
  congr 1
  apply BitVec.eq_of_toNat_eq
  rw [BitVec.toNat_twoPow, BitVec.toNat_ofInt]
  norm_cast

theorem ofInt_congr {n : Nat} {v w : Int} (h : v % 2 ^ n = w % 2 ^ n) :
    BitVec.ofInt n v = BitVec.ofInt n w := by
  apply BitVec.eq_of_toNat_eq
  rw [BitVec.toNat_ofInt, BitVec.toNat_ofInt]
  push_cast
  rw [h]

theorem setWidth_ofInt (v : Int) : (BitVec.ofInt 64 v).setWidth 32 = BitVec.ofInt 32 v := by
  apply BitVec.eq_of_toNat_eq
  rw [BitVec.toNat_setWidth, BitVec.toNat_ofInt, BitVec.toNat_ofInt]
  norm_num
  omega

theorem pow_lowZeros_dvd (v : Int) : (2 : Int) ^ lowZeros v ∣ v := by
  unfold lowZeros
  cases hfind : (List.range 52).find? (v.natAbs.testBit ·) with
  | none => exact one_dvd v
  | some i =>
    have hbits := (List.find?_range_eq_some.mp hfind).2.2
    have hmod : v.natAbs % 2 ^ i = 0 := by
      apply Nat.eq_of_testBit_eq
      intro j
      rw [Nat.testBit_mod_two_pow, Nat.zero_testBit]
      by_cases hj : j < i
      · simpa [hj] using hbits j hj
      · simp [hj]
    exact Int.natCast_dvd.mpr (Nat.dvd_of_mod_eq_zero hmod)

theorem lowZeros_lt (v : Int) : lowZeros v < 52 := by
  unfold lowZeros
  cases hfind : (List.range 52).find? (v.natAbs.testBit ·) with
  | none => decide
  | some i => exact List.mem_range.mp (List.mem_of_find?_eq_some hfind)

section

variable {d : Num} {v : Int} {mem : ByteMemory} {s : State}

/-- The state after `n` instructions, the last of which leaves `v` in register `d`. -/
def State.loaded (s : State) (d : Num) (n : Nat) (v : Int) : State :=
  (s.goto (s.pc + BitVec.ofNat 64 (4 * n))).set (regOf d) (BitVec.ofInt 64 v)

@[simp] theorem State.pc_loaded {n : Nat} :
    (s.loaded d n v).pc = s.pc + BitVec.ofNat 64 (4 * n) := State.pc_set

theorem State.get_loaded {n : Nat} (hzero : regOf d ≠ 0) :
    (s.loaded d n v).get (regOf d) = BitVec.ofInt 64 v := State.get_set_self hzero

theorem State.loaded_congr {z : Int} {n : Nat} (h : z % 2 ^ 64 = v % 2 ^ 64) :
    s.loaded d n z = s.loaded d n v := by
  rw [loaded, ofInt_congr h, loaded]

theorem State.loaded_succ {z : Int} {n : Nat} :
    ((s.loaded d n z).goto ((s.loaded d n z).pc + 4)).set (regOf d) (BitVec.ofInt 64 v) =
      s.loaded d (n + 1) v := by
  have hpc : s.pc + BitVec.ofNat 64 (4 * n) + 4 = s.pc + BitVec.ofNat 64 (4 * (n + 1)) := by
    rw [BitVec.add_assoc, Nat.mul_succ, BitVec.ofNat_add]
    rfl
  rw [pc_loaded, hpc, loaded, ← set_goto, goto_goto, set_set, loaded]

theorem step_small (hd : d.toNat < 2 ^ 5) (hv : fits12 v)
    (hw : mem.word s.pc = OpImm.addi.encode d zero v) :
    cpu.step mem s = .next (s.loaded d 1 v) := by
  rw [step_of_decode (by rw [hw, decode_addi hd (by decide)]), exec,
    show regOf zero = 0 by decide, State.get_zero,
    signExtend_ofInt (by decide) 64 (fitsSigned_of_fits12 hv),
    show (0 : BitVec 64) = 0#64 from rfl, BitVec.zero_add]
  rfl

theorem step_upper (hd : d.toNat < 2 ^ 5)
    (hw : mem.word s.pc = lui d (word32 v &&& 0xfffff)) :
    cpu.step mem s = .next (s.loaded d 1 (Int.bmod v (2 ^ 20) * 0x1000)) := by
  have hmask : (word32 v &&& 0xfffff).toBitVec.extractLsb' 0 20 = BitVec.ofInt 20 v := by
    rw [extractLsb'_and_mask (by decide), extractLsb'_word32 (by decide)]
  have hvalue : (BitVec.ofInt 20 v ++ 0#12).signExtend 64 =
      BitVec.ofInt 64 (Int.bmod v (2 ^ 20) * 0x1000) := by
    rw [BitVec.signExtend, BitVec.toInt_append_zero, BitVec.toInt_ofInt, Int.mul_comm]
    rfl
  rw [step_of_decode (by rw [hw, decode_lui hd]), exec, hmask, hvalue]
  rfl

theorem step_addiw {z : Int} {n : Nat} (hd : d.toNat < 2 ^ 5) (hzero : regOf d ≠ 0)
    (hv : fitsSigned v 32) (hz : (z + Int.bmod v 0x1000) % 2 ^ 32 = v % 2 ^ 32)
    (hw : mem.word (s.loaded d n z).pc = OpImm.addiw.encode d d (Int.bmod v 0x1000)) :
    cpu.step mem (s.loaded d n z) = .next (s.loaded d (n + 1) v) := by
  rw [step_of_decode (by rw [hw, decode_addiw hd hd]), exec, State.get_loaded hzero, setWidth_ofInt,
    signExtend_ofInt (by decide) 32 (fitsSigned_bmod v), ← BitVec.ofInt_add, ofInt_congr hz,
    signExtend_ofInt (by decide) 64 hv, State.loaded_succ]

theorem step_addi {z : Int} {n : Nat} (hd : d.toNat < 2 ^ 5) (hzero : regOf d ≠ 0)
    (hz : (z + Int.bmod v 0x1000) % 2 ^ 64 = v % 2 ^ 64)
    (hw : mem.word (s.loaded d n z).pc = OpImm.addi.encode d d (Int.bmod v 0x1000)) :
    cpu.step mem (s.loaded d n z) = .next (s.loaded d (n + 1) v) := by
  rw [step_of_decode (by rw [hw, decode_addi hd hd]), exec, State.get_loaded hzero,
    signExtend_ofInt (by decide) 64 (fitsSigned_bmod v), ← BitVec.ofInt_add, ofInt_congr hz,
    State.loaded_succ]

theorem step_slli {z : Int} {n k : Nat} (hd : d.toNat < 2 ^ 5) (hzero : regOf d ≠ 0) (hk : k < 64)
    (hw : mem.word (s.loaded d n z).pc = OpImm.slli.encode d d k) :
    cpu.step mem (s.loaded d n z) = .next (s.loaded d (n + 1) (z * 2 ^ k)) := by
  rw [step_of_decode (by rw [hw, decode_slli hd hd hk]), exec, State.get_loaded hzero,
    BitVec.toNat_ofNat, Nat.mod_eq_of_lt hk, ofInt_shiftLeft, State.loaded_succ]

theorem upperPart_spec (v : Int) : (upperPart v).2 < 64 ∧
    ((upperPart v).1 * 2 ^ (upperPart v).2 + Int.bmod v 0x1000) % 2 ^ 64 = v % 2 ^ 64 := by
  have hlow := split_low v
  unfold upperPart
  dsimp only
  generalize hhi : Int.bmod ((v + 0x800) / 0x1000) 0x10000000000000 = hi
  have hlt := lowZeros_lt hi
  have hdvd := Int.ediv_mul_cancel (pow_lowZeros_dvd hi)
  refine ⟨by omega, ?_⟩
  have hshift : hi / Int.pow 2 (lowZeros hi) * 2 ^ (12 + lowZeros hi) = hi * 0x1000 := by
    rw [Nat.add_comm, Int.pow_add, ← Int.mul_assoc]
    exact congrArg (· * 0x1000) hdvd
  rw [hshift, ← hhi, Int.bmod_def ((v + 0x800) / 0x1000)]
  norm_num
  split_ifs <;> omega

/-- The expansion leaves the constant in its register and changes nothing else. -/
theorem runs_loadConst (hd : d.toNat < 2 ^ 5) (hzero : regOf d ≠ 0) (v : Int) (s : State)
    (h : mem.Holds s.pc (((loadConst d v).map Prod.fst).flatMap bytes32)) :
    cpu.Runs mem s (s.loaded d (loadConst d v).length v) := by
  have hv := split_low v
  -- the cases are those of the expansion, each once with low bits to add and once without
  rw [loadConst] at h ⊢
  dsimp only at h ⊢
  split_ifs at h ⊢ with hsmall hword hlow hlow
  · exact .single (step_small hd hsmall h.word_cons.1)
  · have hrange := fitsSigned_iff.mp hword
    have hstep := step_upper hd h.word_cons.1
    have hupper : Int.bmod ((v + 0x800) / 0x1000) (2 ^ 20) * 0x1000 = v := by
      rw [Int.bmod_def]
      norm_num at hrange ⊢
      split_ifs <;> omega
    rw [hupper] at hstep
    exact .single hstep
  · have hrange := fitsSigned_iff.mp hword
    obtain ⟨hlui, hadd⟩ := h.word_cons
    refine .head (step_upper hd hlui) (.single ?_)
    refine step_addiw hd hzero hword ?_ (State.pc_loaded ▸ hadd.word_cons.1)
    rw [Int.bmod_def ((v + 0x800) / 0x1000)]
    norm_num at hrange ⊢
    split_ifs <;> omega
  · have hshorter := natAbs_upperPart_lt v hword
    obtain ⟨hcount, hvalue⟩ := upperPart_spec v
    rw [List.map_append] at h
    obtain ⟨hupper, hrest⟩ := h.words_append
    rw [List.length_map] at hrest
    refine (runs_loadConst hd hzero _ s hupper).trans (.single ?_)
    have hslli := step_slli (z := (upperPart v).1) hd hzero hcount
      (State.pc_loaded ▸ hrest.word_cons.1)
    rw [hlow, Int.add_zero] at hvalue
    rw [State.loaded_congr hvalue] at hslli
    rw [List.length_append]
    exact hslli
  · have hshorter := natAbs_upperPart_lt v hword
    obtain ⟨hcount, hvalue⟩ := upperPart_spec v
    rw [List.map_append] at h
    obtain ⟨hupper, hrest⟩ := h.words_append
    rw [List.length_map] at hrest
    obtain ⟨hshift, hadd⟩ := hrest.word_cons
    refine (runs_loadConst hd hzero _ s hupper).trans ?_
    refine .head (step_slli hd hzero hcount (State.pc_loaded ▸ hshift)) (.single ?_)
    rw [List.length_append]
    refine step_addi hd hzero hvalue ?_
    rw [State.pc_loaded, Nat.mul_succ, BitVec.ofNat_add, ← BitVec.add_assoc]
    exact hadd.word_cons.1
termination_by v.natAbs

end

end SeaNodes.RiscV
