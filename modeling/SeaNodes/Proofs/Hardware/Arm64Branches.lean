import SeaNodes.Proofs.Hardware.Control
import SeaNodes.Proofs.Hardware.Processors
import SeaNodes.Proofs.Isa.Arm64Banks
import SeaNodes.Proofs.Isa.Fields

namespace SeaNodes.Arm64

/-- Branches change nothing but the address of the next instruction. -/
def control : Control cpu where
  goto := State.goto
  goto_pc _ := rfl
  pc_goto _ _ := rfl
  int_goto _ _ := rfl
  float_goto _ _ := rfl
  kept := (bank .int).diff file.scratch

variable {m : Loaded} {site b : Nat} {c : Cond} {s : State} {w : UInt32} {text : String}

theorem decode_bCond (h : w &&& ~~~0x00ffffe0 = bCond c 0 &&& ~~~0x00ffffe0) :
    decode w = some (.bCond c.bits (imm19Of w)) := by
  have htop (start n : Nat) (hlt : start + n ≤ 11)
      (hmask : (~~~0x00ffffe0 : UInt32).toBitVec.extractLsb' (21 + start) n = BitVec.allOnes n) :
      (top w).extractLsb' start n = (top (bCond c 0)).extractLsb' start n := by
    rw [top, top, extractLsb'_extractLsb' _ _ hlt, extractLsb'_extractLsb' _ _ hlt]
    exact extractLsb'_eq_of_and h hmask
  have hrd : rd w = rd (bCond c 0) := extractLsb'_eq_of_and h (by decide)
  rw [decode, htop 5 6 (by decide) (by decide), htop 3 8 (by decide) (by decide), hrd]
  cases c <;> rfl

theorem decode_b (h : w &&& ~~~0x03ffffff = Arm64.b &&& ~~~0x03ffffff) :
    decode w = some (.b (imm26Of w)) := by
  have htop : (top w).extractLsb' 5 6 = (top Arm64.b).extractLsb' 5 6 := by
    rw [top, top, extractLsb'_extractLsb' _ _ (by decide), extractLsb'_extractLsb' _ _ (by decide)]
    exact extractLsb'_eq_of_and h (by decide)
  rw [decode, htop]
  rfl

theorem signExtend_words {n : Nat} (hn : n ≠ 0) (x : BitVec n) :
    (x ++ 0#2).signExtend 64 = BitVec.ofInt 64 (4 * x.toInt) := by
  rw [BitVec.signExtend, BitVec.toInt_append, if_neg (by simpa using hn)]
  exact congrArg _ (Int.add_zero _)

theorem step_bCond (h : Stands m.image m.base m.place
      [.relocated .a64Branch19 (.block b) (bCond c 0) text] site) :
    cpu.step m.mem (control.goto s (m.at site)) = .next (control.goto s
      (if c.holds s.flags then m.at (m.place b) else m.at (site + 4))) := by
  obtain ⟨hfixed, hexact, hsize⟩ := h.relocated
  have hword : m.mem.word (m.at site) = read32 m.image site := m.maps.word hsize
  simp only [RelocKind.fixedBits, List.cons.injEq, and_true] at hfixed
  rw [show read32 (bytes32 (bCond c 0)).toArray 0 = bCond c 0 from word_of_bytes _] at hfixed
  have hstep := step_of_decode (s := control.goto s (m.at site))
    ((congrArg decode hword).trans (decode_bCond hfixed))
  simp only [RelocKind.address] at hexact
  rw [hstep, exec, signExtend_words (by decide)]
  by_cases hc : c.holds s.flags
  · rw [if_pos hc, ← Loaded.at_add_ofInt hexact]
    exact congrArg Effect.next (if_pos hc)
  · rw [if_neg hc, ← Loaded.at_add]
    exact congrArg Effect.next (if_neg hc)

theorem step_b (h : Stands m.image m.base m.place [jumpItem b] site) :
    cpu.step m.mem (control.goto s (m.at site)) = .next (control.goto s (m.at (m.place b))) := by
  obtain ⟨hfixed, hexact, hsize⟩ := Stands.relocated h
  have hword : m.mem.word (m.at site) = read32 m.image site := m.maps.word hsize
  simp only [RelocKind.fixedBits, List.cons.injEq, and_true] at hfixed
  rw [show read32 (bytes32 Arm64.b).toArray 0 = Arm64.b from word_of_bytes _] at hfixed
  have hstep := step_of_decode (s := control.goto s (m.at site))
    ((congrArg decode hword).trans (decode_b hfixed))
  simp only [RelocKind.address] at hexact
  rw [hstep, exec, signExtend_words (by decide), ← Loaded.at_add_ofInt hexact]
  rfl

theorem jumps_branchPiece (c : Cond) (b : Nat) (s : State) :
    control.Jumps m (branchPiece c b) (c.holds s.flags) b s := by
  intro form hform site h
  rcases List.mem_pair.mp hform with rfl | rfl
  · exact .single (Nat.succ_pos 3) (step_bCond h)
  · have hword := Loaded.holds (h.head rfl) rfl
    have hdecode : decode (bCond c.invert 2) = some (.bCond c.invert.bits 2) := by
      cases c <;> decide
    have hstep := step_of_decode (s := control.goto s (m.at site))
      ((congrArg decode hword.word).trans hdecode)
    refine .around (Nat.succ_pos 3) ?_ (.single (Nat.succ_pos 3) (step_b (h.tail rfl)))
    rw [hstep]
    have hinvert := Cond.holds_invert c s.flags
    by_cases hc : c.holds s.flags
    · rw [hc] at hinvert
      rw [if_pos hc]
      refine (congrArg Effect.next (if_neg (ne_true_of_eq_false hinvert))).trans ?_
      exact congrArg (fun a => Effect.next (control.goto s a)) (Loaded.at_add m site 4)
    · rw [Bool.eq_false_iff.mpr hc] at hinvert
      rw [if_neg hc]
      refine (congrArg Effect.next (if_pos hinvert)).trans ?_
      exact congrArg (fun a => Effect.next (control.goto s a)) (Loaded.at_add m site 8)

theorem jumps_jumpItem (b : Nat) (s : State) :
    control.Jumps m (.fixed (jumpItem b)) true b s := by
  intro form hform site h
  obtain rfl := List.mem_singleton.mp hform
  exact .single (Nat.succ_pos 3) (step_b h)

variable {stop : Nat} {around : Surroundings}

theorem arrives_reach (b : Nat) (hnext : around.fallsTo b → m.place b = stop) :
    control.Arrives m stop (reach around b) s (m.place b) := .reach (jumps_jumpItem b s) hnext

theorem arrives_branchPieces (hnext : ∀ b, around.fallsTo b → m.place b = stop) (c : Cond)
    (t f : Nat) : control.Arrives m stop (branchPieces around c t f) s
      (m.place (if c.holds s.flags then t else f)) := by
  refine .decide (jumps_branchPiece c t s) ?_ (hnext t) (arrives_reach f (hnext f))
  rw [← Cond.holds_invert]
  exact jumps_branchPiece c.invert f s

theorem passes_of_decode {j : Instr} {f : Flags} (hdecode : decode w = some j)
    (hexec : ∀ s' : State, s'.x = s.x → s'.d = s.d →
      exec s' j = { s'.goto (s'.pc + 4) with flags := f }) :
    control.Passes m (.fixed (.word w text)) s { s with flags := f } := by
  refine .fixed rfl (Nat.succ_pos 3) fun site h => ?_
  have hstep := step_of_decode (s := control.goto s (m.at site))
    ((congrArg decode h.word).trans hdecode)
  rw [hstep, hexec (control.goto s (m.at site)) rfl rfl]
  exact congrArg (fun a => Effect.next (control.goto { s with flags := f } a))
    (Loaded.at_add m site 4)

theorem setWidth_immediate {v : Int64} (hlow : 0 ≤ v.toInt) (hhigh : v.toInt < 2 ^ 12) :
    (v.toUInt64.toUInt32.toBitVec.extractLsb' 0 12).setWidth 64 = v.toBitVec := by
  have hint : v.toBitVec.toInt = v.toInt := rfl
  have hlt := v.toBitVec.isLt
  rw [← hint, BitVec.toInt_eq_toNat_cond] at hlow hhigh
  apply BitVec.eq_of_toNat_eq
  rw [BitVec.toNat_setWidth, BitVec.extractLsb'_toNat, Nat.shiftRight_zero, UInt32.toNat_toBitVec,
    UInt64.toNat_toUInt32]
  change v.toBitVec.toNat % 2 ^ 32 % 2 ^ 12 % 2 ^ 64 = v.toBitVec.toNat
  norm_num at hlow hhigh hlt ⊢
  split_ifs at hlow hhigh <;> omega

theorem passes_compareItem {t : Compare} {regs : OperandRegs} {i : Item}
    (hi : compareItem t regs = .ok i)
    (himm : ∀ v, t = .imm v → -2 ^ 12 < v.toInt ∧ v.toInt < 2 ^ 12) :
    control.Passes m (.fixed i) s { s with flags := t.flags (cpu.readings s regs) } := by
  have hint {k : Nat} {n : Num} (h : int (regs.u k) = .ok n) (s' : State) (hx : s'.x = s.x) :
      s'.get (regOf n) = (cpu.readings s regs).int k := by
    rw [State.get, hx]
    exact (int_of_int h).symm
  cases t with
  | regs =>
    obtain ⟨n, hn, hi⟩ := Except.bind_eq_ok hi
    obtain ⟨n', hn', hi⟩ := Except.bind_eq_ok hi
    cases hi
    refine passes_of_decode (decode_cmp (lt_of_int hn) (lt_of_int hn')) fun s' hx _ => ?_
    rw [exec, hint hn s' hx, hint hn' s' hx]
    rfl
  | imm v =>
    obtain ⟨n, hn, hi⟩ := Except.bind_eq_ok hi
    have hbounds := himm v rfl
    have hsign_iff : 0 ≤ v ↔ 0 ≤ v.toInt := Int64.le_iff_toInt_le
    split_ifs at hi with hsign
    · cases hi
      refine passes_of_decode (decode_cmpImm (lt_of_int hn) (regOf_ne_of_int hn)) fun s' hx _ => ?_
      rw [exec, hint hn s' hx, setWidth_immediate (hsign_iff.mp hsign) hbounds.2, Compare.flags,
        if_pos hsign]
      rfl
    · cases hi
      have hlow : ¬0 ≤ v.toInt := mt hsign_iff.mpr hsign
      have hneg : (-v).toInt = -v.toInt := by
        rw [Int64.toInt_neg, Int.bmod_def]
        omega
      refine passes_of_decode (decode_cmnImm (lt_of_int hn) (regOf_ne_of_int hn)) fun s' hx _ => ?_
      rw [exec, hint hn s' hx, setWidth_immediate (by omega) (by omega), Compare.flags,
        if_neg hsign]
      rfl
  | float =>
    obtain ⟨n, hn, hi⟩ := Except.bind_eq_ok hi
    obtain ⟨n', hn', hi⟩ := Except.bind_eq_ok hi
    cases hi
    refine passes_of_decode (decode_fcmp (toNat_of_float hn).2 (toNat_of_float hn').2)
      fun s' _ hd => ?_
    have hfloat {k : Nat} {n : Num} (h : float (regs.u k) = .ok n) :
        (cpu.readings s regs).float k = s.d (regOf n) := float_of_float h
    rw [exec, hd, Compare.flags, hfloat hn, hfloat hn']

theorem holdFields_reach (around : Surroundings) (b : Nat) : HoldFields (reach around b) := by
  unfold reach
  split_ifs
  · exact .nil
  · exact .fixed (soundItems_jumpItem b) .nil

theorem holdFields_branchPieces (around : Surroundings) (c : Cond) (t f : Nat) :
    HoldFields (branchPieces around c t f) := by
  have hpiece (c : Cond) (b : Nat) {ps : List Piece} (h : HoldFields ps) :
      HoldFields (branchPiece c b :: ps) :=
    .sized (.word rfl .nil) (.plain rfl (soundItems_jumpItem b)) h
  unfold branchPieces
  split_ifs
  · exact hpiece _ f .nil
  · exact hpiece _ t (holdFields_reach around f)

variable {t : Test} {yes no : Nat} {regs : OperandRegs} {ps : List Piece}

theorem holdFields_branch (h : expand around (.branch t yes no) regs = .ok ps) : HoldFields ps := by
  obtain ⟨i, hi, h⟩ := Except.bind_eq_ok h
  cases h
  exact .fixed (.plain (ensures_compareItem t.compare regs i hi) .nil)
    (holdFields_branchPieces around t.cond yes no)

theorem holdFields_jump (h : expand around (.jump b) regs = .ok ps) : HoldFields ps := by
  cases h
  exact holdFields_reach around b

theorem arrives_branch (hnext : ∀ b, around.fallsTo b → m.place b = stop)
    (himm : ∀ v, t.compare = .imm v → -2 ^ 12 < v.toInt ∧ v.toInt < 2 ^ 12)
    (h : expand around (.branch t yes no) regs = .ok ps) :
    control.Arrives m stop ps s (m.place (if t.holds (cpu.readings s regs) then yes else no)) := by
  obtain ⟨i, hi, h⟩ := Except.bind_eq_ok h
  cases h
  refine .pass (passes_compareItem hi himm) ⟨fun _ _ => rfl, rfl⟩ ?_
  exact arrives_branchPieces hnext t.cond yes no

theorem arrives_jump (hnext : ∀ b, around.fallsTo b → m.place b = stop)
    (h : expand around (.jump b) regs = .ok ps) : control.Arrives m stop ps s (m.place b) := by
  cases h
  exact arrives_reach b (hnext b)

end SeaNodes.Arm64
