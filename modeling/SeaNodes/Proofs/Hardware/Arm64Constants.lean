import Mathlib.Data.List.Induction
import SeaNodes.Proofs.Hardware.Arm64

namespace SeaNodes.Arm64

def halfOf (v : BitVec 64) (i : Nat) : BitVec 16 := v.extractLsb' (16 * i) 16

section

variable {v w : BitVec 64} {h : BitVec 16} {p : BitVec 2} {i j : Nat}

theorem eq_of_halves (heq : ∀ i < 4, halfOf v i = halfOf w i) : v = w := by
  apply BitVec.eq_of_getLsbD_eq
  intro k hk
  have hbit := congrArg (·.getLsbD (k % 16)) (heq (k / 16) (by omega))
  simp only [halfOf, BitVec.getLsbD_extractLsb', Nat.mod_lt _ (by decide : 0 < 16),
    decide_true, Bool.true_and, Nat.div_add_mod] at hbit
  exact hbit

theorem halfOf_not (hi : i < 4) : halfOf (~~~v) i = ~~~halfOf v i := by
  apply BitVec.eq_of_getLsbD_eq
  intro k hk
  have hin : 16 * i + k < 64 := by omega
  simp [halfOf, hk, hin]

theorem halfOf_zero (i : Nat) : halfOf 0 i = 0 := by
  apply BitVec.eq_of_getLsbD_eq
  intro k hk
  simp [halfOf]

theorem getElem_lowHalf : ∀ (n : Nat) (h : n < 64), (0xffff#64)[n] = decide (n < 16) := by decide

theorem halfOf_putHalf (hi : i < 4) :
    halfOf (putHalf v h p) i = if i = p.toNat then h else halfOf v i := by
  apply BitVec.eq_of_getLsbD_eq
  intro k hk
  have hp := p.isLt
  have hin : 16 * i + k < 64 := by omega
  have hbit : (putHalf v h p).getLsbD (16 * i + k) = (v.getLsbD (16 * i + k) &&
      !(!decide (16 * i + k < 16 * p.toNat) && decide (16 * i + k - 16 * p.toNat < 16)) ||
      !decide (16 * i + k < 16 * p.toNat) && h.getLsbD (16 * i + k - 16 * p.toNat)) := by
    simp [putHalf, getElem_lowHalf, hin]
  rw [halfOf, BitVec.getLsbD_extractLsb', hbit]
  rcases Nat.lt_trichotomy i p.toNat with hlt | rfl | hgt
  · rw [if_neg (Nat.ne_of_lt hlt)]
    simp [halfOf, hk, show 16 * i + k < 16 * p.toNat by omega]
  · simp [hk]
  · have hout : ¬ 16 * i + k - 16 * p.toNat < 16 := by omega
    rw [if_neg (Nat.ne_of_gt hgt)]
    simp [halfOf, hk, show ¬ 16 * i + k < 16 * p.toNat by omega, hout,
      BitVec.getLsbD_of_ge h _ (Nat.le_of_not_lt hout)]

theorem toBitVec_half (u : UInt64) (hi : i < 4) :
    (half u i).toBitVec = (halfOf u.toBitVec i).setWidth 32 := by
  have hshift : (16 * i).toUInt64.toNat % 64 = 16 * i := by
    rw [show (16 * i).toUInt64.toNat = 16 * i from UInt64.toNat_ofNat_of_lt' (by change _ < 2 ^ 64; omega)]
    omega
  have hmask : (0xffff : UInt32).toNat = 2 ^ 16 - 1 := rfl
  have hnat : (half u i).toNat = u.toNat >>> (16 * i) % 2 ^ 16 := by
    rw [half, UInt32.toNat_and, UInt64.toNat_toUInt32, UInt64.toNat_shiftRight, hshift, hmask,
      Nat.and_two_pow_sub_one_eq_mod]
    omega
  apply BitVec.eq_of_toNat_eq
  rw [UInt32.toNat_toBitVec, hnat, BitVec.toNat_setWidth, halfOf, BitVec.extractLsb'_toNat,
    UInt64.toNat_toBitVec]
  omega

theorem extractLsb'_half (u : UInt64) (hi : i < 4) :
    (half u i).toBitVec.extractLsb' 0 16 = halfOf u.toBitVec i := by
  rw [toBitVec_half u hi]
  apply BitVec.eq_of_getLsbD_eq
  intro k hk
  simp [hk]
  omega

end

section

variable {d : Num} {mem : ByteMemory} {s : State} {v w : BitVec 64} {n : Nat}

/-- The state after `n` instructions, the last of which leaves `v` in register `d`. -/
def State.loaded (s : State) (d : Num) (n : Nat) (v : BitVec 64) : State :=
  (s.goto (s.pc + BitVec.ofNat 64 (4 * n))).set (regOf d) v

@[simp] theorem State.pc_loaded : (s.loaded d n v).pc = s.pc + BitVec.ofNat 64 (4 * n) :=
  State.pc_set

theorem State.get_loaded (hzero : regOf d ≠ 31) : (s.loaded d n v).get (regOf d) = v :=
  State.get_set_self hzero

theorem State.loaded_succ :
    ((s.loaded d n v).goto ((s.loaded d n v).pc + 4)).set (regOf d) w = s.loaded d (n + 1) w := by
  have hpc : s.pc + BitVec.ofNat 64 (4 * n) + 4 = s.pc + BitVec.ofNat 64 (4 * (n + 1)) := by
    rw [BitVec.add_assoc, Nat.mul_succ, BitVec.ofNat_add]
    rfl
  rw [pc_loaded, hpc, loaded, ← set_goto, goto_goto, set_set, loaded]

theorem runs_movk (hd : d.toNat < 2 ^ 5) (hzero : regOf d ≠ 31) (u : UInt64) (is : List Nat)
    (his : ∀ i ∈ is, i < 4)
    (h : mem.Holds (s.loaded d n w).pc
      ((is.map fun i => movHalf 0xf2800000 d (half u i) i).flatMap bytes32)) :
    ∃ v, cpu.Runs mem (s.loaded d n w) (s.loaded d (n + is.length) v) ∧
      ∀ j < 4, halfOf v j = if j ∈ is then halfOf u.toBitVec j else halfOf w j := by
  induction is generalizing n w with
  | nil => exact ⟨w, .refl, fun j _ => rfl⟩
  | cons i is ih =>
    rw [List.forall_mem_cons] at his
    obtain ⟨hword, hrest⟩ := h.word_cons
    have hstep : cpu.step mem (s.loaded d n w) =
        .next (s.loaded d (n + 1) (putHalf w (halfOf u.toBitVec i) (.ofNat 2 i))) := by
      rw [step_of_decode (by rw [hword, decode_movk hd his.1]), exec, State.get_loaded hzero,
        State.loaded_succ, extractLsb'_half u his.1]
    have hpc : (s.loaded d n w).pc + 4 = (s.loaded d (n + 1) (putHalf w (halfOf u.toBitVec i)
        (.ofNat 2 i))).pc := by
      rw [State.pc_loaded, State.pc_loaded, BitVec.add_assoc, Nat.mul_succ, BitVec.ofNat_add]
      rfl
    obtain ⟨v, hruns, hv⟩ := ih his.2 (hpc ▸ hrest)
    rw [Nat.add_assoc, Nat.add_comm 1] at hruns
    refine ⟨v, .head hstep hruns, fun j hj => ?_⟩
    have hplace : (BitVec.ofNat 2 i).toNat = i := Nat.mod_eq_of_lt his.1
    rw [hv j hj, halfOf_putHalf hj, hplace]
    by_cases hji : j = i
    · subst hji
      simp
    · simp [hji]

theorem mem_first_rest (f : Nat → Bool) {j : Nat} (hj : j < 4) (hf : f j) :
    j ∈ ((List.range 4).find? f).getD 0 ::
      (List.range 4).filter fun i => ((List.range 4).find? f).getD 0 < i && f i := by
  cases hfind : (List.range 4).find? f with
  | none => exact absurd hf (by simpa using List.find?_eq_none.mp hfind j (List.mem_range.mpr hj))
  | some i =>
    obtain ⟨-, -, hbefore⟩ := List.find?_range_eq_some.mp hfind
    rw [Option.getD_some, List.mem_cons, List.mem_filter, List.mem_range, Bool.and_eq_true,
      decide_eq_true_iff]
    by_cases hji : j = i
    · exact .inl hji
    · refine .inr ⟨hj, ?_, hf⟩
      by_contra hle
      have := hbefore j (by omega)
      simp [hf] at this

theorem first_lt (f : Nat → Bool) : ((List.range 4).find? f).getD 0 < 4 := by
  cases hfind : (List.range 4).find? f with
  | none => decide
  | some i => exact List.mem_range.mp (List.mem_of_find?_eq_some hfind)

theorem length_first_rest (f : Nat → Bool) :
    (((List.range 4).find? f).getD 0 ::
      (List.range 4).filter fun i => ((List.range 4).find? f).getD 0 < i && f i).length =
        max 1 ((List.range 4).countP f) := by
  have hrange : List.range 4 = [0, 1, 2, 3] := rfl
  rw [hrange]
  cases h0 : f 0 <;> cases h1 : f 1 <;> cases h2 : f 2 <;> cases h3 : f 3 <;>
    simp [h0, h1, h2, h3]

/-- After a first move that leaves all half words but one as those that are skipped, the others are put
in place. -/
theorem runs_halves (hd : d.toNat < 2 ^ 5) (hzero : regOf d ≠ 31) {u : UInt64} {skip : UInt32}
    {first : Nat} (hfirst : first = ((List.range 4).find? (half u · != skip)).getD 0)
    (hstep : cpu.step mem s = .next (s.loaded d 1 w))
    (hw : ∀ j < 4, halfOf w j = if j = first then halfOf u.toBitVec first
      else skip.toBitVec.extractLsb' 0 16)
    (h : mem.Holds (s.pc + 4) ((((List.range 4).filter fun i => first < i && half u i != skip).map
      fun i => movHalf 0xf2800000 d (half u i) i).flatMap bytes32)) :
    cpu.Runs mem s (s.loaded d (((List.range 4).filter fun i => first < i && half u i != skip).length
      + 1) u.toBitVec) := by
  obtain ⟨v, hruns, hv⟩ := runs_movk (n := 1) (w := w) hd hzero u _
    (fun i hi => List.mem_range.mp (List.mem_filter.mp hi).1) (by rw [State.pc_loaded]; exact h)
  have hvalue : v = u.toBitVec := by
    refine eq_of_halves fun j hj => ?_
    rw [hv j hj, hw j hj]
    by_cases hput : half u j != skip
    · have hmem := mem_first_rest (half u · != skip) hj hput
      rw [← hfirst, List.mem_cons] at hmem
      rcases hmem with rfl | hmem
      · rw [if_pos (Eq.refl j), ite_self]
      · rw [if_pos hmem]
    · have hskip : half u j = skip := by simpa using hput
      rw [← hskip, extractLsb'_half u hj]
      split_ifs with hmem hjf
      · rfl
      · rw [hjf]
      · rfl
  rw [hvalue, Nat.add_comm] at hruns
  exact .head hstep hruns

theorem runs_movImm (hd : d.toNat < 2 ^ 5) (hzero : regOf d ≠ 31) (v : Int64) (s : State)
    (h : mem.Holds s.pc (((movImm d v).map Prod.fst).flatMap bytes32)) :
    cpu.Runs mem s (s.loaded d (movImm d v).length v.toBitVec) := by
  rw [movImm] at h ⊢
  dsimp only at h ⊢
  rw [List.length_cons, List.length_map]
  rw [List.map_cons, List.map_map] at h
  obtain ⟨hword, hrest⟩ := h.word_cons
  have hfirst (skip : UInt32) := first_lt (half v.toUInt64 · != skip)
  have hplace (skip : UInt32) := Nat.mod_eq_of_lt (hfirst skip)
  split_ifs at hword hrest ⊢ with hinverted
  · refine runs_halves hd hzero rfl
      (step_of_decode (by rw [hword, decode_movn hd (hfirst _)])) (fun j hj => ?_) hrest
    rw [halfOf_not hj, halfOf_putHalf hj, BitVec.toNat_ofNat, hplace]
    split_ifs with hj
    · rw [extractLsb'_and_mask (by decide), UInt32.toBitVec_not, BitVec.extractLsb'_not_of_lt (by decide),
        BitVec.not_not, extractLsb'_half _ (hfirst _)]
    · rw [halfOf_zero]
      decide
  · refine runs_halves hd hzero rfl
      (step_of_decode (by rw [hword, decode_movz hd (hfirst _)])) (fun j hj => ?_) hrest
    rw [halfOf_putHalf hj, BitVec.toNat_ofNat, hplace]
    split_ifs with hj
    · rw [extractLsb'_half _ (hfirst _)]
    · rw [halfOf_zero]
      decide

end

/-- In how many half words two values differ. -/
def distance (v w : BitVec 64) : Nat := (List.range 4).countP fun i => halfOf v i != halfOf w i

/-- The moves of half words. -/
def Instr.IsMove : Instr → Prop
  | .movz .. | .movn .. | .movk .. => True
  | _ => False

section

variable {v w y : BitVec 64} {h : BitVec 16} {p : BitVec 2} {r : BitVec 5} {s : State} {i : Instr}
  {moves : List Instr}

theorem distance_self (v : BitVec 64) : distance v v = 0 := by simp [distance]

theorem distance_not (v w : BitVec 64) : distance (~~~v) (~~~w) = distance v w := by
  refine List.countP_congr fun i hi => ?_
  rw [halfOf_not (List.mem_range.mp hi), halfOf_not (List.mem_range.mp hi)]
  simp

theorem distance_putHalf_le : distance y (putHalf w h p) ≤ distance y w + 1 := by
  have hp := p.isLt
  simp only [distance, show List.range 4 = [0, 1, 2, 3] from rfl, List.countP_cons, List.countP_nil,
    halfOf_putHalf (show 0 < 4 by decide), halfOf_putHalf (show 1 < 4 by decide),
    halfOf_putHalf (show 2 < 4 by decide), halfOf_putHalf (show 3 < 4 by decide)]
  generalize p.toNat = k at hp
  norm_num at hp
  interval_cases k <;> simp <;> split_ifs <;> omega

theorem isMove_movImm {d : Num} (hd : d.toNat < 2 ^ 5) (v : Int64) :
    ∀ w ∈ (movImm d v).map Prod.fst, ∃ i, decode w = some i ∧ i.IsMove := by
  have hfirst (skip : UInt32) := first_lt (half v.toUInt64 · != skip)
  rw [movImm]
  dsimp only
  rw [List.map_cons, List.map_map, List.forall_mem_cons]
  constructor
  · split_ifs
    · exact ⟨_, decode_movn hd (hfirst _), trivial⟩
    · exact ⟨_, decode_movz hd (hfirst _), trivial⟩
  · intro w hw
    obtain ⟨i, hi, rfl⟩ := List.mem_map.mp hw
    exact ⟨_, decode_movk hd (List.mem_range.mp (List.mem_filter.mp hi).1), trivial⟩

theorem get_exec_of_isMove (hi : i.IsMove) (hr : r ≠ 31) : (exec s i).get r = s.get r ∨
    ∃ h p, (exec s i).get r = putHalf 0 h p ∨ (exec s i).get r = ~~~putHalf 0 h p ∨
      (exec s i).get r = putHalf (s.get r) h p := by
  have hset (d : BitVec 5) (v : BitVec 64) :
      ((s.goto (s.pc + 4)).set d v).get r = s.get r ∨ ((s.goto (s.pc + 4)).set d v).get r = v ∧ r = d := by
    by_cases hd : r = d
    · subst hd
      exact .inr ⟨State.get_set_self hr, rfl⟩
    · exact .inl (State.get_set_of_ne hd)
  cases i with
  | movz d h p => exact (hset d _).imp_right fun hv => ⟨h, p, .inl hv.1⟩
  | movn d h p => exact (hset d _).imp_right fun hv => ⟨h, p, .inr (.inl hv.1)⟩
  | movk d h p =>
    rcases hset d (putHalf (s.get d) h p) with hsame | ⟨hv, rfl⟩
    · exact .inl hsame
    · exact .inr ⟨h, p, .inr (.inr hv)⟩
  | _ => exact hi.elim

/-- Every half word that a register holds in the end was there at first, is zero or all ones, or has a
move of its own. -/
theorem exists_distance_le (hr : r ≠ 31) (hmoves : ∀ i ∈ moves, i.IsMove) :
    ∃ y, (y = s.get r ∨ y = 0 ∨ y = BitVec.allOnes 64) ∧
      distance y ((moves.foldl exec s).get r) ≤ moves.length := by
  induction moves using List.reverseRecOn with
  | nil => exact ⟨_, .inl rfl, (distance_self _).le⟩
  | append_singleton moves i ih =>
    obtain ⟨y, hy, hle⟩ := ih fun i hi => hmoves i (List.mem_append_left _ hi)
    rw [List.foldl_append, List.length_append]
    rcases get_exec_of_isMove (s := moves.foldl exec s) (hmoves i (by simp)) hr with
      heq | ⟨h, p, heq | heq | heq⟩
    · exact ⟨y, hy, heq ▸ hle.trans (Nat.le_add_right _ _)⟩
    · refine ⟨0, .inr (.inl rfl), ?_⟩
      have := distance_putHalf_le (y := 0) (w := 0) (h := h) (p := p)
      rw [distance_self] at this
      exact heq ▸ this.trans (Nat.le_add_left _ _)
    · refine ⟨~~~0, .inr (.inr rfl), ?_⟩
      have := distance_putHalf_le (y := 0) (w := 0) (h := h) (p := p)
      rw [distance_self] at this
      exact heq ▸ distance_not 0 _ ▸ this.trans (Nat.le_add_left _ _)
    · exact ⟨y, hy, heq ▸ distance_putHalf_le.trans (Nat.succ_le_succ hle)⟩

theorem half_eq_iff {u : UInt64} {skip : UInt32} {k : Nat} (hk : k < 4)
    (hskip : skip.toBitVec = h.setWidth 32) : half u k = skip ↔ halfOf u.toBitVec k = h := by
  constructor
  · intro heq
    rw [← extractLsb'_half u hk, heq, hskip]
    apply BitVec.eq_of_getLsbD_eq
    intro b hb
    simp [hb]
    omega
  · rintro rfl
    exact UInt32.eq_of_toBitVec_eq ((toBitVec_half u hk).trans hskip.symm)

theorem countP_half (u : UInt64) (skip : UInt32) (y : BitVec 64)
    (hskip : ∀ k < 4, skip.toBitVec = (halfOf y k).setWidth 32) :
    (List.range 4).countP (half u · != skip) = distance y u.toBitVec := by
  refine List.countP_congr fun k hk => ?_
  have hk := List.mem_range.mp hk
  rw [bne_iff_ne, bne_iff_ne, Ne, Ne, half_eq_iff hk (hskip k hk), eq_comm]

theorem length_movImm (d : Num) (v : Int64) : (movImm d v).length =
    max 1 (min (distance 0 v.toBitVec) (distance (BitVec.allOnes 64) v.toBitVec)) := by
  have hzero := countP_half v.toUInt64 0 0 fun k _ => by rw [halfOf_zero]; rfl
  have hones := countP_half v.toUInt64 0xffff (~~~0) fun k hk => by
    rw [halfOf_not hk, halfOf_zero]
    rfl
  have hsplit (skip : UInt32) : ((List.range 4).filter (half v.toUInt64 · == skip)).length +
      (List.range 4).countP (half v.toUInt64 · != skip) = 4 := by
    have h := List.length_eq_countP_add_countP (half v.toUInt64 · == skip) (l := List.range 4)
    rw [List.length_range, List.countP_eq_length_filter] at h
    refine (congrArg _ (List.countP_congr fun k _ => ?_)).trans h.symm
    simp
  have hsplit0 := hsplit 0
  have hsplit1 := hsplit 0xffff
  rw [hzero] at hsplit0
  rw [hones] at hsplit1
  rw [movImm]
  dsimp only
  rw [List.length_cons, List.length_map]
  change _ = max 1 (min (distance 0 v.toUInt64.toBitVec) (distance (~~~0) v.toUInt64.toBitVec))
  split_ifs with hinverted
  · have hlength := length_first_rest (half v.toUInt64 · != 0xffff)
    rw [List.length_cons, hones] at hlength
    rw [hlength]
    omega
  · have hlength := length_first_rest (half v.toUInt64 · != 0)
    rw [List.length_cons, hzero] at hlength
    rw [hlength]
    omega

theorem distance_le (y v : BitVec 64) : distance y v ≤ 4 := List.countP_le_length

theorem distance_not_self (v : BitVec 64) : distance (~~~v) v = 4 := by
  have hne (k : Nat) (hk : k ∈ List.range 4) : (halfOf (~~~v) k != halfOf v k) = true := by
    rw [halfOf_not (List.mem_range.mp hk), bne_iff_ne]
    intro heq
    have hbit := congrArg (·.getLsbD 0) heq
    simp at hbit
  exact (List.countP_eq_length.mpr hne).trans List.length_range

theorem length_movImm_le_four (d : Num) (v : Int64) : (movImm d v).length ≤ 4 := by
  have := distance_le 0 v.toBitVec
  rw [length_movImm]
  omega

/-- No sequence of moves that leaves the constant in a register, whatever it held, is shorter. -/
theorem length_movImm_le (d : Num) (v : Int64) (hr : r ≠ 31) (hmoves : ∀ i ∈ moves, i.IsMove)
    (h : ∀ s, (moves.foldl exec s).get r = v.toBitVec) : (movImm d v).length ≤ moves.length := by
  let s : State := ⟨0, fun _ => ~~~v.toBitVec, fun _ => Double.zero, ⟨false, false, false, false⟩⟩
  have hs : s.get r = ~~~v.toBitVec := if_neg hr
  obtain ⟨y, hy, hle⟩ := exists_distance_le (s := s) hr hmoves
  have hnonempty : 1 ≤ moves.length := by
    rw [Nat.one_le_iff_ne_zero, Ne, List.length_eq_zero_iff]
    rintro rfl
    have hself := hs.symm.trans (h s)
    have hfour := distance_not_self v.toBitVec
    rw [hself, distance_self] at hfour
    exact absurd hfour (by decide)
  have hzero := distance_le 0 v.toBitVec
  rw [h s] at hle
  rw [length_movImm]
  rcases hy with rfl | rfl | rfl
  · rw [hs, distance_not_self] at hle
    omega
  · omega
  · omega

end

end SeaNodes.Arm64
