import SeaNodes.Proofs.Hardware.Control
import SeaNodes.Proofs.Hardware.Processors
import SeaNodes.Proofs.Isa.Fields
import SeaNodes.Proofs.Isa.RiscVBanks

namespace SeaNodes.RiscV

/-- Branches change the address of the next instruction, and the scratch register. -/
def control : Control cpu where
  goto := State.goto
  goto_pc _ := rfl
  pc_goto _ _ := rfl
  int_goto _ _ := rfl
  float_goto _ _ := rfl
  kept := (bank .int).diff file.scratch

variable {m : Loaded} {site b : Nat} {c : Cond} {x y : Num} {s : State} {w : UInt32} {v : BitVec 64}
  {text : String}

theorem keeps_set : cpu.Keeps control.kept s (s.set 5 v) where
  int r hr := by
    obtain ⟨hbank, hscratch⟩ := RegMask.contains_diff_single hr
    have hlt := contains_bank_int.mp hbank
    refine State.get_set_of_ne fun heq => hscratch ?_
    have hnat := congrArg BitVec.toNat heq
    rw [BitVec.toNat_ofNat, Nat.mod_eq_of_lt (show r < 2 ^ 5 from hlt)] at hnat
    exact hnat
  float := by
    funext r
    exact congrFun (State.f_set (s := s) (r := 5) (v := v)) _

theorem decode_of_fields {rx ry : BitVec 5} (hop : opcode w = 0x63) (hfunct : funct3 w = c.bits)
    (hx : rs1 w = rx) (hy : rs2 w = ry) : decode w = some (.branch c.bits rx ry (immB w)) := by
  rw [decode, hop, hfunct, hx, hy]
  cases c <;> rfl

theorem decode_branch (hx : x.toNat < 2 ^ 5) (hy : y.toNat < 2 ^ 5)
    (h : w &&& ~~~0xfe000f80 = branch c x y 0 &&& ~~~0xfe000f80) :
    decode w = some (.branch c.bits (regOf x) (regOf y) (immB w)) := by
  obtain ⟨hop, hfunct, hrs1, hrs2, -⟩ := branch_fields (c := c) (v := 0) hx hy
  refine decode_of_fields ?_ ?_ ?_ ?_
  · exact (extractLsb'_eq_of_and h (by decide)).trans hop
  · exact (extractLsb'_eq_of_and h (by decide)).trans hfunct
  · exact (extractLsb'_eq_of_and h (by decide)).trans hrs1
  · exact (extractLsb'_eq_of_and h (by decide)).trans hrs2

theorem decode_around (hx : x.toNat < 2 ^ 5) (hy : y.toNat < 2 ^ 5) :
    decode (branch c x y 12) = some (.branch c.bits (regOf x) (regOf y) 12) := by
  obtain ⟨hop, hfunct, hrs1, hrs2, himm⟩ := branch_fields (c := c) (v := 12) hx hy
  rw [decode_of_fields hop hfunct hrs1 hrs2, himm (by decide)]
  rfl

theorem decode_jal (h : w &&& ~~~0xfffff000 = jal zero &&& ~~~0xfffff000) :
    decode w = some (.jal 0 (immJ w)) := by
  have hop : opcode w = opcode (jal zero) := extractLsb'_eq_of_and h (by decide)
  have hrd : rd w = rd (jal zero) := extractLsb'_eq_of_and h (by decide)
  rw [decode, hop, hrd]
  rfl

theorem decode_auipc (h : w &&& ~~~0xfffff000 = auipc t0 &&& ~~~0xfffff000) :
    decode w = some (.auipc 5 (immU w)) := by
  have hop : opcode w = opcode (auipc t0) := extractLsb'_eq_of_and h (by decide)
  have hrd : rd w = rd (auipc t0) := extractLsb'_eq_of_and h (by decide)
  rw [decode, hop, hrd]
  rfl

theorem decode_jalr
    (h : w &&& ~~~0xfff00000 = OpImm.jalr.encode zero t0 0 &&& ~~~0xfff00000) :
    decode w = some (.jalr 0 5 (immI w)) := by
  have hop : opcode w = opcode (OpImm.jalr.encode zero t0 0) := extractLsb'_eq_of_and h (by decide)
  have hrd : rd w = rd (OpImm.jalr.encode zero t0 0) := extractLsb'_eq_of_and h (by decide)
  have hfunct : funct3 w = funct3 (OpImm.jalr.encode zero t0 0) :=
    extractLsb'_eq_of_and h (by decide)
  have hrs1 : rs1 w = rs1 (OpImm.jalr.encode zero t0 0) := extractLsb'_eq_of_and h (by decide)
  rw [decode, hop, hrd, hfunct, hrs1]
  rfl

theorem decode_compare {funct : UInt32} (hfunct : funct = 0 ∨ funct = 1 ∨ funct = 2)
    (hx : x.toNat < 2 ^ 5) (hy : y.toNat < 2 ^ 5) : decode (rType 0x51 funct 0x53 t0 x y) =
      some (.compare (funct.toBitVec.extractLsb' 0 3) 5 (regOf x) (regOf y)) := by
  have hlt : funct.toNat < 2 ^ 3 := by rcases hfunct with rfl | rfl | rfl <;> decide
  obtain ⟨hop, hrd, hbits, hrs1, hrs2, htop⟩ :=
    rType_fields (d := t0) 0x51 funct 0x53 hlt (by decide) (by decide) hx hy
  rw [decode, hop, hrd, hbits, hrs1, hrs2, htop]
  rcases hfunct with rfl | rfl | rfl <;> rfl

theorem step_branch (hx : x.toNat < 2 ^ 5) (hy : y.toNat < 2 ^ 5) (h : Stands m.image m.base m.place
      [.relocated .rvBranch (.block b) (branch c x y 0) text] site) :
    cpu.step m.mem (control.goto s (m.at site)) = .next (control.goto s
      (if c.holds (s.get (regOf x)) (s.get (regOf y)) then m.at (m.place b)
        else m.at (site + 4))) := by
  obtain ⟨hfixed, hexact, hsize⟩ := h.relocated
  have hword : m.mem.word (m.at site) = read32 m.image site := m.maps.word hsize
  simp only [RelocKind.fixedBits, List.cons.injEq, and_true] at hfixed
  rw [show read32 (bytes32 (branch c x y 0)).toArray 0 = branch c x y 0 from word_of_bytes _] at hfixed
  have hstep := step_of_decode (s := control.goto s (m.at site))
    ((congrArg decode hword).trans (decode_branch hx hy hfixed))
  simp only [RelocKind.address] at hexact
  rw [hstep, exec]
  by_cases hc : c.holds (s.get (regOf x)) (s.get (regOf y))
  · rw [if_pos hc, ← Loaded.at_add_ofInt hexact]
    exact congrArg Effect.next (if_pos hc)
  · rw [if_neg hc, ← Loaded.at_add]
    exact congrArg Effect.next (if_neg hc)

theorem at_and_not_one {q : Nat} (h : 2 ∣ m.base + q) : m.at q &&& ~~~1 = m.at q := by
  apply BitVec.eq_of_getLsbD_eq
  intro i hi
  cases i with
  | zero =>
    have hbit : (m.at q).getLsbD 0 = false := by
      rw [Loaded.at, BitVec.getLsbD_ofNat, Nat.testBit_zero, Nat.mod_eq_zero_of_dvd h]
      rfl
    rw [BitVec.getLsbD_and, hbit, Bool.false_and]
  | succ i =>
    have hone : (1 : BitVec 64).getLsbD (i + 1) = false := by simp
    rw [BitVec.getLsbD_and, BitVec.getLsbD_not, hone, decide_eq_true hi]
    exact Bool.and_true _

theorem decode_farJump (h : Stands m.image m.base m.place (farJump b) site) : ∃ upper lower,
    decode (m.mem.word (m.at site)) = some (.auipc 5 upper) ∧
    decode (m.mem.word (m.at (site + 4))) = some (.jalr 0 5 lower) ∧
    m.at site + (upper ++ 0#12).signExtend 64 + lower.signExtend 64 = m.at (m.place b) := by
  have hmem : (⟨0, .rvPcrelHiLo, .block b⟩ : Fixup) ∈ fixupsOf (farJump b) :=
    List.mem_singleton_self _
  have hfixed := h.fixedBits _ hmem
  have hexact := h.exact _ hmem b rfl
  have hsize : site + 8 ≤ m.image.size := h.inside
  have hword : m.mem.word (m.at site) = read32 m.image site := m.maps.word (by omega)
  have hword' : m.mem.word (m.at (site + 4)) = read32 m.image (site + 4) := m.maps.word (by omega)
  simp only [RelocKind.fixedBits, List.cons.injEq, and_true] at hfixed
  simp only [RelocKind.address, Nat.add_zero, Int.add_assoc] at hexact
  refine ⟨immU (read32 m.image site), immI (read32 m.image (site + 4)), ?_, ?_, ?_⟩
  · rw [hword]
    exact decode_auipc (hfixed.1.trans (congrArg (· &&& _) (word_of_bytes _)))
  · rw [hword']
    exact decode_jalr (hfixed.2.trans (congrArg (· &&& _) (word_of_bytes _)))
  · rw [BitVec.signExtend, BitVec.signExtend, BitVec.add_assoc, ← BitVec.ofInt_add]
    exact Loaded.at_add_ofInt ((Int.add_assoc ..).trans hexact)

theorem jumps_farJump (heven : 2 ∣ m.base + m.place b)
    (h : Stands m.image m.base m.place (farJump b) site) :
    control.FormJumps m (farJump b) true b s site := by
  obtain ⟨upper, lower, hauipc, hjalr, htarget⟩ := decode_farJump h
  let far := s.set 5 (m.at site + (upper ++ 0#12).signExtend 64)
  have hstep : cpu.step m.mem (control.goto s (m.at site)) =
      .next (control.goto far (m.at (site + 4))) := by
    rw [step_of_decode (s := control.goto s (m.at site)) hauipc, ← Loaded.at_add]
    exact congrArg Effect.next State.set_goto
  have hstep' : cpu.step m.mem (control.goto far (m.at (site + 4))) =
      .next (control.goto far (m.at (m.place b))) := by
    have hscratch : far.get 5 = m.at site + (upper ++ 0#12).signExtend 64 :=
      State.get_set_self (by decide)
    rw [step_of_decode (s := control.goto far (m.at (site + 4))) hjalr]
    change Effect.next (((State.goto far _).set 0 _).goto
      ((far.get 5 + lower.signExtend 64) &&& ~~~1)) = _
    rw [hscratch, htarget, at_and_not_one heven]
    rfl
  have hfirst : cpu.Executes m.mem (m.base + site) (m.base + (site + 4))
      (control.goto s (m.at site)) (control.goto far (m.at (site + 4))) :=
    .single (control.pc_goto s (m.at site)) le_rfl (by omega) hstep
  have hlength : (bytesOf (farJump b)).length = 8 := rfl
  have hsecond : cpu.Executes m.mem (m.base + (site + 4)) (m.base + (site + (bytesOf (farJump b)).length))
      (control.goto far (m.at (site + 4))) (control.goto far (m.at (m.place b))) :=
    .single (control.pc_goto far (m.at (site + 4))) le_rfl (by omega) hstep'
  have hkeeps : cpu.Keeps control.kept s far := keeps_set
  exact ⟨Nat.succ_pos 7, _, hfirst.trans hsecond (by omega) (by omega), rfl,
    hkeeps.int, hkeeps.float⟩

theorem jumps_jumpPiece (b : Nat) (heven : 2 ∣ m.base + m.place b) (s : State) :
    control.Jumps m (jumpPiece b) true b s := by
  intro form hform site h
  rcases List.mem_pair.mp hform with rfl | rfl
  · obtain ⟨hfixed, hexact, hsize⟩ := h.relocated
    have hword : m.mem.word (m.at site) = read32 m.image site := m.maps.word hsize
    simp only [RelocKind.fixedBits, List.cons.injEq, and_true] at hfixed
    rw [show read32 (bytes32 (jal zero)).toArray 0 = jal zero from word_of_bytes _] at hfixed
    have hstep := step_of_decode (s := control.goto s (m.at site))
      ((congrArg decode hword).trans (decode_jal hfixed))
    simp only [RelocKind.address] at hexact
    refine .single (Nat.succ_pos 3) ?_
    rw [hstep, if_pos rfl, ← Loaded.at_add_ofInt hexact]
    rfl
  · exact jumps_farJump heven h

theorem jumps_branchPiece (c : Cond) (hx : x.toNat < 2 ^ 5) (hy : y.toNat < 2 ^ 5) (b : Nat)
    (heven : 2 ∣ m.base + m.place b) (s : State) :
    control.Jumps m (branchPiece c x y b) (c.holds (s.get (regOf x)) (s.get (regOf y))) b s := by
  intro form hform site h
  rcases List.mem_pair.mp hform with rfl | rfl
  · exact .single (Nat.succ_pos 3) (step_branch hx hy h)
  · have hword := Loaded.holds (h.head rfl) rfl
    have hstep := step_of_decode (s := control.goto s (m.at site))
      ((congrArg decode hword.word).trans (decode_around hx hy))
    refine .around (Nat.succ_pos 3) ?_ (jumps_farJump heven (h.tail rfl))
    rw [hstep]
    have hinvert := Cond.holds_invert c (s.get (regOf x)) (s.get (regOf y))
    by_cases hc : c.holds (s.get (regOf x)) (s.get (regOf y))
    · rw [hc] at hinvert
      rw [if_pos hc]
      refine (congrArg Effect.next (if_neg (ne_true_of_eq_false hinvert))).trans ?_
      exact congrArg (fun a => Effect.next (control.goto s a)) (Loaded.at_add m site 4)
    · rw [Bool.eq_false_iff.mpr hc] at hinvert
      rw [if_neg hc]
      refine (congrArg Effect.next (if_pos hinvert)).trans ?_
      exact congrArg (fun a => Effect.next (control.goto s a)) (Loaded.at_add m site 12)

variable {stop : Nat} {around : Surroundings}

theorem arrives_reach (b : Nat) (heven : 2 ∣ m.base + m.place b)
    (hnext : around.fallsTo b → m.place b = stop) :
    control.Arrives m stop (reach around b) s (m.place b) :=
  .reach (jumps_jumpPiece b heven s) hnext

theorem arrives_branchPieces (hnext : ∀ b, around.fallsTo b → m.place b = stop)
    (heven : ∀ b, 2 ∣ m.base + m.place b) (c : Cond) (hx : x.toNat < 2 ^ 5) (hy : y.toNat < 2 ^ 5)
    (t f : Nat) : control.Arrives m stop (branchPieces around c x y t f) s
      (m.place (if c.holds (s.get (regOf x)) (s.get (regOf y)) then t else f)) := by
  refine .decide (jumps_branchPiece c hx hy t (heven t) s) ?_ (hnext t)
    (arrives_reach f (heven f) (hnext f))
  rw [← Cond.holds_invert]
  exact jumps_branchPiece c.invert hx hy f (heven f) s

theorem passes_floatCompare {op : CmpOp} {regs : OperandRegs} (hx : float (regs.u 0) = .ok x)
    (hy : float (regs.u 1) = .ok y) :
    control.Passes m (.fixed (floatCompare op t0 regs x y)) s (s.set 5
      (if isOrdered (floatBits op) ((cpu.readings s regs).float 0) ((cpu.readings s regs).float 1)
        then 1 else 0)) := by
  have hfloat {k : Nat} {n : Num} (h : float (regs.u k) = .ok n) :
      (cpu.readings s regs).float k = s.f (regOf n) := float_of_float h
  rw [hfloat hx, hfloat hy]
  have hlt := (toNat_of_float hx).2
  have hlt' := (toNat_of_float hy).2
  refine .fixed (by cases op <;> rfl) (by cases op <;> exact Nat.succ_pos 3) fun site h => ?_
  have hword : ∃ w, (floatCompare op t0 regs x y).bytes = bytes32 w ∧
      decode w = some (.compare (floatBits op) 5 (regOf x) (regOf y)) := by
    cases op with
    | eq | ne => exact ⟨_, rfl, decode_compare (.inr (.inr rfl)) hlt hlt'⟩
    | lt => exact ⟨_, rfl, decode_compare (.inr (.inl rfl)) hlt hlt'⟩
    | le => exact ⟨_, rfl, decode_compare (.inl rfl) hlt hlt'⟩
  obtain ⟨w, hbytes, hdecode⟩ := hword
  rw [hbytes] at h ⊢
  rw [step_of_decode (s := control.goto s (m.at site)) ((congrArg decode h.word).trans hdecode),
    ← Loaded.at_add]
  exact congrArg Effect.next State.set_goto

theorem holdFields_reach (around : Surroundings) (b : Nat) : HoldFields (reach around b) := by
  unfold reach
  split_ifs
  · exact .nil
  · exact .sized (.word rfl .nil) (soundItems_farJump b) .nil

theorem holdFields_branchPieces (around : Surroundings) (c : Cond) (x y : Num) (t f : Nat) :
    HoldFields (branchPieces around c x y t f) := by
  have hpiece (c : Cond) (b : Nat) {ps : List Piece} (h : HoldFields ps) :
      HoldFields (branchPiece c x y b :: ps) :=
    .sized (.word rfl .nil) (.plain rfl (soundItems_farJump b)) h
  unfold branchPieces
  split_ifs
  · exact hpiece _ f .nil
  · exact hpiece _ t (holdFields_reach around f)

variable {t : Test} {yes no : Nat} {regs : OperandRegs} {ps : List Piece}

theorem holdFields_branch (h : expand around (.branch t yes no) regs = .ok ps) : HoldFields ps := by
  cases t with
  | int c l r =>
    obtain ⟨x, -, h⟩ := Except.bind_eq_ok h
    obtain ⟨y, -, h⟩ := Except.bind_eq_ok h
    cases h
    exact holdFields_branchPieces around c x y yes no
  | float op =>
    obtain ⟨x, -, h⟩ := Except.bind_eq_ok h
    obtain ⟨y, -, h⟩ := Except.bind_eq_ok h
    cases h
    exact .fixed (.plain rfl .nil) (holdFields_branchPieces around _ t0 zero yes no)

theorem holdFields_jump (h : expand around (.jump b) regs = .ok ps) : HoldFields ps := by
  cases h
  exact holdFields_reach around b

theorem src_spec (s : State) {l : Src} (h : src regs l = .ok x) :
    x.toNat < 2 ^ 5 ∧ s.get (regOf x) = l.read (cpu.readings s regs) := by
  cases l with
  | use k => exact ⟨lt_of_int h, (int_of_int h).symm⟩
  | zero =>
    cases h
    exact ⟨by decide, State.get_zero⟩

theorem holds_scratch (op : CmpOp) (u : Readings) : Cond.holds (if op = .ne then .eq else .ne)
    (if isOrdered (floatBits op) (u.float 0) (u.float 1) then 1 else 0) 0 =
      (Test.float op).holds u := by
  rw [Test.holds]
  cases isOrdered (floatBits op) (u.float 0) (u.float 1) <;> cases op <;> rfl

theorem arrives_branch (hnext : ∀ b, around.fallsTo b → m.place b = stop)
    (heven : ∀ b, 2 ∣ m.base + m.place b)
    (h : expand around (.branch t yes no) regs = .ok ps) :
    control.Arrives m stop ps s (m.place (if t.holds (cpu.readings s regs) then yes else no)) := by
  cases t with
  | int c l r =>
    obtain ⟨x, hx, h⟩ := Except.bind_eq_ok h
    obtain ⟨y, hy, h⟩ := Except.bind_eq_ok h
    cases h
    obtain ⟨hlt, hread⟩ := src_spec s hx
    obtain ⟨hlt', hread'⟩ := src_spec s hy
    have harrives := arrives_branchPieces (s := s) hnext heven c hlt hlt' yes no
    rwa [hread, hread'] at harrives
  | float op =>
    obtain ⟨x, hx, h⟩ := Except.bind_eq_ok h
    obtain ⟨y, hy, h⟩ := Except.bind_eq_ok h
    cases h
    refine .pass (passes_floatCompare hx hy) keeps_set ?_
    have harrives (v : BitVec 64) (c : Cond) : control.Arrives m stop
        (branchPieces around c t0 zero yes no) (s.set 5 v)
        (m.place (if c.holds v 0 then yes else no)) := by
      have h := arrives_branchPieces (s := s.set 5 v) (y := zero) hnext heven c
        (show t0.toNat < 2 ^ 5 by decide) (by decide) yes no
      have hscratch : (s.set 5 v).get (regOf t0) = v := State.get_set_self (by decide)
      have hzero : (s.set 5 v).get (regOf zero) = 0 := State.get_zero
      rwa [hscratch, hzero] at h
    rw [← holds_scratch]
    exact harrives _ _

theorem arrives_jump (hnext : ∀ b, around.fallsTo b → m.place b = stop)
    (heven : 2 ∣ m.base + m.place b) (h : expand around (.jump b) regs = .ok ps) :
    control.Arrives m stop ps s (m.place b) := by
  cases h
  exact arrives_reach b heven (hnext b)

end SeaNodes.RiscV
