import SeaNodes.Proofs.Code.Resolved
import SeaNodes.Proofs.Hardware.RiscVConstants
import SeaNodes.Proofs.Hardware.Basic

namespace SeaNodes.RiscV

structure StackState where
  cpu : State
  data : ByteMemory

inductive StackInstr where
  | add (d a b : BitVec 5)
  | ld (d a : BitVec 5) (imm : BitVec 12)
  /-- Stores `b` at the sum of `a` and the immediate. -/
  | sd (b a : BitVec 5) (imm : BitVec 12)
deriving DecidableEq

def immS (w : UInt32) : BitVec 12 := funct7 w ++ rd w

def decodeStack (w : UInt32) : Option StackInstr :=
  if opcode w = 0x33 ∧ funct3 w = 0 ∧ funct7 w = 0 then some (.add (rd w) (rs1 w) (rs2 w))
  else if opcode w = 0x03 ∧ funct3 w = 3 then some (.ld (rd w) (rs1 w) (immI w))
  else if opcode w = 0x23 ∧ funct3 w = 3 then some (.sd (rs2 w) (rs1 w) (immS w))
  else none

def execStack (s : StackState) (i : StackInstr) : StackState :=
  let next := s.cpu.goto (s.cpu.pc + 4)
  match i with
  | .add d a b => { s with cpu := next.set d (s.cpu.get a + s.cpu.get b) }
  | .ld d a imm => { s with cpu := next.set d (s.data.load (s.cpu.get a + imm.signExtend 64)) }
  | .sd b a imm =>
    ⟨next, s.data.store (s.cpu.get a + imm.signExtend 64) (s.cpu.get b)⟩

def stepStack (mem : ByteMemory) (s : StackState) : Effect StackState :=
  match decode (mem.word s.cpu.pc) with
  | some i => .next { s with cpu := exec s.cpu i }
  | none =>
    match decodeStack (mem.word s.cpu.pc) with
    | some i => .next (execStack s i)
    | none => .fault

abbrev stackCpu : StackCpu where
  State := StackState
  step := stepStack
  pc s := s.cpu.pc
  int s := cpu.int s.cpu
  float s := cpu.float s.cpu
  sp s := s.cpu.get 2
  data := StackState.data
  link s := [s.cpu.get 1]
  returnTo s := s.cpu.get 1 &&& ~~~1

section

variable {mem : ByteMemory} {s : StackState} {cpu' : State} {i : StackInstr}

theorem step_of_decodeStack (hnone : decode (mem.word s.cpu.pc) = none)
    (h : decodeStack (mem.word s.cpu.pc) = some i) :
    stackCpu.step mem s = .next (execStack s i) := by
  change stepStack mem s = .next (execStack s i)
  simp only [stepStack, hnone, h]

theorem step_of_step (h : cpu.step mem s.cpu = .next cpu') :
    stackCpu.step mem s = .next { s with cpu := cpu' } := by
  change stepStack mem s = _
  change step mem s.cpu = _ at h
  rw [step] at h
  rw [stepStack]
  rcases hi : decode (mem.word s.cpu.pc) with _ | i <;> rw [hi] at h
  · cases h
  · obtain rfl := Effect.next.inj h
    rfl

theorem runs_of_runs (h : cpu.Runs mem s.cpu cpu') :
    stackCpu.Runs mem s { s with cpu := cpu' } := by
  induction h with
  | refl => exact .refl
  | tail _ hstep ih => exact ih.trans (.single (step_of_step hstep))

end

section

variable {d a b : Num} {v : Int}

theorem sType_fields (funct op : UInt32) (v : Int) (hfunct : funct.toNat < 2 ^ 3)
    (hop : op.toNat < 2 ^ 7) (hb : b.toNat < 2 ^ 5) (ha : a.toNat < 2 ^ 5) :
    let w := sType funct op b a v
    opcode w = op.toBitVec.extractLsb' 0 7 ∧ funct3 w = funct.toBitVec.extractLsb' 0 3 ∧
      rs1 w = regOf a ∧ rs2 w = regOf b ∧ immS w = BitVec.ofInt 12 v := by
  have hop (s n : Nat) (h : 7 ≤ s) := extractLsb'_of_lt (n := n) hop h
  have hlow (s n : Nat) (h : 12 ≤ s) := extractLsb'_field_of_le (k := 7) (n := n)
    (toNat_and_lt (w := word32 v) (show (0x1f : UInt32).toNat < 2 ^ 5 by decide)) (by decide) h
  have hfunct (s n : Nat) (h : 15 ≤ s) :=
    extractLsb'_field_of_le (k := 12) (n := n) hfunct (by decide) h
  have ha (s n : Nat) (h : 20 ≤ s) := extractLsb'_field_of_le (k := 15) (n := n) ha (by decide) h
  have hb (s n : Nat) (h : 25 ≤ s) := extractLsb'_field_of_le (k := 20) (n := n) hb (by decide) h
  simp (disch := decide) only [opcode, funct3, rs1, rs2, immS, funct7, rd, sType, field,
    extractLsb'_or_field, extractLsb'_field_of_ge, extractLsb'_shiftLeft, extractLsb'_and_mask, hop,
    hlow, hfunct, ha, hb, BitVec.or_zero, BitVec.zero_or, regOf, true_and]
  have hhigh : (word32 v >>> 5).toBitVec.extractLsb' 0 7 = (word32 v).toBitVec.extractLsb' 5 7 := by
    apply BitVec.eq_of_getLsbD_eq
    intro i hi
    simp [UInt32.toBitVec_shiftRight]
  have hparts : (word32 v).toBitVec.extractLsb' 5 7 ++ (word32 v).toBitVec.extractLsb' 0 5 =
      (word32 v).toBitVec.extractLsb' 0 12 := BitVec.extractLsb'_append_extractLsb'_eq_extractLsb' rfl
  rw [hhigh, hparts, extractLsb'_word32 (by decide)]

theorem decode_add (hd : d.toNat < 2 ^ 5) (ha : a.toNat < 2 ^ 5) (hb : b.toNat < 2 ^ 5) :
    decode (Op3.add.encode d a b) = none ∧
      decodeStack (Op3.add.encode d a b) = some (.add (regOf d) (regOf a) (regOf b)) := by
  obtain ⟨hop, hrd, hfunct, hrs1, hrs2, htop⟩ :=
    rType_fields 0 0 0x33 (by decide) (by decide) hd ha hb
  rw [decode, decodeStack, Op3.encode, hop, hrd, hfunct, hrs1, hrs2, htop]
  exact ⟨rfl, rfl⟩

theorem decode_ld (hd : d.toNat < 2 ^ 5) (ha : a.toNat < 2 ^ 5) :
    decode (OpImm.ld.encode d a v) = none ∧
      decodeStack (OpImm.ld.encode d a v) = some (.ld (regOf d) (regOf a) (BitVec.ofInt 12 v)) := by
  obtain ⟨hop, hrd, hfunct, hrs, himm⟩ := iType_fields 3 0x03 v (by decide) (by decide) hd ha
  rw [decode, decodeStack, OpImm.encode, hop, hrd, hfunct, hrs, himm]
  exact ⟨rfl, rfl⟩

theorem decode_sd (hb : b.toNat < 2 ^ 5) (ha : a.toNat < 2 ^ 5) :
    decode (OpImm.sd.encode b a v) = none ∧
      decodeStack (OpImm.sd.encode b a v) = some (.sd (regOf b) (regOf a) (BitVec.ofInt 12 v)) := by
  obtain ⟨hop, hfunct, hrs1, hrs2, himm⟩ := sType_fields 3 0x23 v (by decide) (by decide) hb ha
  rw [decode, decodeStack, OpImm.encode, hop, hfunct, hrs1, hrs2, himm]
  exact ⟨rfl, rfl⟩

theorem decode_ret : decode ret = some (.jalr 0 1 0) := by decide

end

/-- A register is set and the next instruction comes. -/
def StackState.wrote (s : StackState) (r : BitVec 5) (v : BitVec 64) : StackState :=
  { s with cpu := (s.cpu.goto (s.cpu.pc + 4)).set r v }

/-- The stack pointer, the return address and memory are as they were, `n` bytes further. -/
structure StackState.Passes (s s' : StackState) (n : Nat) : Prop where
  pc : s'.cpu.pc = s.cpu.pc + BitVec.ofNat 64 n
  sp : s'.cpu.get 2 = s.cpu.get 2
  link : s'.cpu.get 1 = s.cpu.get 1
  data : s'.data = s.data

section

variable {mem : ByteMemory} {s : StackState} {r r' : BitVec 5} {x : BitVec 64} {v : Int}

theorem pc_wrote : (s.wrote r x).cpu.pc = s.cpu.pc + 4 := State.pc_set

theorem get_wrote_self (h : r ≠ 0) : (s.wrote r x).cpu.get r = x := State.get_set_self h

theorem get_wrote_of_ne (h : r' ≠ r) : (s.wrote r x).cpu.get r' = s.cpu.get r' :=
  State.get_set_of_ne h

theorem StackState.Passes.refl (s : StackState) : s.Passes s 0 :=
  ⟨(BitVec.add_zero _).symm, rfl, rfl, rfl⟩

theorem StackState.Passes.wrote {s' : StackState} {n : Nat} (h : s.Passes s' n) (hsp : 2 ≠ r)
    (hlink : 1 ≠ r) : s.Passes (s'.wrote r x) (n + 4) where
  pc := by
    rw [pc_wrote, h.pc, BitVec.ofNat_add, ← BitVec.add_assoc]
    rfl
  sp := (get_wrote_of_ne hsp).trans h.sp
  link := (get_wrote_of_ne hlink).trans h.link
  data := h.data

theorem step_addSp (hv : fits12 v) (hw : mem.word s.cpu.pc = OpImm.addi.encode sp sp v) :
    stackCpu.step mem s = .next (s.wrote 2 (s.cpu.get 2 + BitVec.ofInt 64 v)) := by
  have hstep := step_of_step (s := s) (step_of_decode
    (hw ▸ decode_addi (d := sp) (a := sp) (v := v) (by decide) (by decide)))
  rw [exec, signExtend_ofInt (by decide) 64 (fitsSigned_of_fits12 hv)] at hstep
  exact hstep

theorem step_add {d a b : Num} (hd : d.toNat < 2 ^ 5) (ha : a.toNat < 2 ^ 5) (hb : b.toNat < 2 ^ 5)
    (hw : mem.word s.cpu.pc = Op3.add.encode d a b) : stackCpu.step mem s =
      .next (s.wrote (regOf d) (s.cpu.get (regOf a) + s.cpu.get (regOf b))) := by
  obtain ⟨hnone, hadd⟩ := decode_add hd ha hb
  exact step_of_decodeStack (hw ▸ hnone) (hw ▸ hadd)

theorem bytesOf_constItems (d : Num) (v : Int) :
    bytesOf (constItems d v) = ((loadConst d v).map Prod.fst).flatMap bytes32 := by
  rw [bytesOf, constItems, List.flatMap_map, List.flatMap_map]
  rfl

theorem runs_constItems (h : mem.Holds s.cpu.pc (bytesOf (constItems t0 v))) :
    ∃ s', stackCpu.Runs mem s s' ∧ s'.cpu.get 5 = BitVec.ofInt 64 v ∧
      s.Passes s' (bytesOf (constItems t0 v)).length := by
  have hlength : (bytesOf (constItems t0 v)).length = 4 * (loadConst t0 v).length := by
    rw [bytesOf_constItems, ByteMemory.length_flatMap_bytes32, List.length_map]
  rw [bytesOf_constItems] at h
  have hruns := runs_loadConst (d := t0) (by decide) (by decide) v s.cpu h
  have hkept (k : BitVec 5) (hk : k ≠ 5) :
      (s.cpu.loaded t0 (loadConst t0 v).length v).get k = s.cpu.get k :=
    State.get_set_of_ne (r := 5) hk
  refine ⟨_, runs_of_runs hruns, State.get_loaded (d := t0) (by decide), ?_, hkept 2 (by decide),
    hkept 1 (by decide), rfl⟩
  rw [hlength]
  exact State.pc_loaded

theorem runs_moveSp (h : mem.Holds s.cpu.pc (bytesOf (moveSp v))) :
    ∃ s', stackCpu.Runs mem s s' ∧
      s'.cpu.pc = s.cpu.pc + BitVec.ofNat 64 (bytesOf (moveSp v)).length ∧
      s'.cpu.get 2 = s.cpu.get 2 + BitVec.ofInt 64 v ∧ s'.cpu.get 1 = s.cpu.get 1 ∧
      s'.data = s.data := by
  unfold moveSp at h ⊢
  split_ifs at h ⊢ with hzero hfits
  · refine ⟨s, .refl, (BitVec.add_zero _).symm, ?_, rfl, rfl⟩
    rw [hzero]
    exact (BitVec.add_zero _).symm
  · exact ⟨_, .single (step_addSp hfits (ByteMemory.Holds.word_single h)), pc_wrote,
      get_wrote_self (by decide), get_wrote_of_ne (by decide), rfl⟩
  · rw [bytesOf_append] at h ⊢
    obtain ⟨s₁, hruns, hconst, hpasses⟩ := runs_constItems h.left
    have hw : mem.word s₁.cpu.pc = Op3.add.encode sp sp t0 := by
      rw [hpasses.pc]
      exact ByteMemory.Holds.word_single h.right
    have hadd := step_add (by decide) (by decide) (by decide) hw
    refine ⟨_, hruns.trans (.single hadd), ?_, ?_, ?_, hpasses.data⟩
    · rw [pc_wrote, hpasses.pc, List.length_append, BitVec.ofNat_add, ← BitVec.add_assoc]
      rfl
    · refine (get_wrote_self (by decide)).trans ?_
      exact congrArg₂ (· + ·) hpasses.sp hconst
    · exact (get_wrote_of_ne (by decide)).trans hpasses.link

/-- What a load or store does at a place. -/
structure Accesses (op : OpImm) (r : Num) (effect : StackState → BitVec 64 → StackState) : Prop where
  step : ∀ {mem : ByteMemory} {s : StackState} {base : Num} {offset : Int}, base.toNat < 2 ^ 5 →
    fits12 offset → mem.word s.cpu.pc = op.encode r base offset →
    stackCpu.step mem s =
      .next (effect s (s.cpu.get (regOf base) + BitVec.ofInt 64 offset))

def loadLink (s : StackState) (place : BitVec 64) : StackState := s.wrote 1 (s.data.load place)

def storeLink (s : StackState) (place : BitVec 64) : StackState :=
  ⟨s.cpu.goto (s.cpu.pc + 4), s.data.store place (s.cpu.get 1)⟩

theorem sp_loadLink (place : BitVec 64) : (loadLink s place).cpu.get 2 = s.cpu.get 2 :=
  get_wrote_of_ne (by decide)

theorem accesses_ld : Accesses .ld ra loadLink where
  step {mem s base offset} hbase hfits hw := by
    obtain ⟨hnone, hld⟩ := decode_ld (d := ra) (v := offset) (by decide) hbase
    have hstep := step_of_decodeStack (s := s) (hw ▸ hnone) (hw ▸ hld)
    rw [execStack, signExtend_ofInt (by decide) 64 (fitsSigned_of_fits12 hfits)] at hstep
    exact hstep

theorem accesses_sd : Accesses .sd ra storeLink where
  step {mem s base offset} hbase hfits hw := by
    obtain ⟨hnone, hsd⟩ := decode_sd (b := ra) (v := offset) (by decide) hbase
    have hstep := step_of_decodeStack (s := s) (hw ▸ hnone) (hw ▸ hsd)
    rw [execStack, signExtend_ofInt (by decide) 64 (fitsSigned_of_fits12 hfits)] at hstep
    exact hstep

theorem runs_access {op : OpImm} {effect : StackState → BitVec 64 → StackState} {name : String}
    (heffect : Accesses op ra effect) (h : mem.Holds s.cpu.pc (bytesOf (access op ra name sp v))) :
    ∃ s₁ n, stackCpu.Runs mem s (effect s₁ (s.cpu.get 2 + BitVec.ofInt 64 v)) ∧ s.Passes s₁ n ∧
      (bytesOf (access op ra name sp v)).length = n + 4 := by
  unfold access at h ⊢
  dsimp only at h ⊢
  split_ifs at h ⊢ with hfits
  · have hw := ByteMemory.Holds.word_single h
    have haccess : stackCpu.step mem s =
        .next (effect s (s.cpu.get (regOf sp) + BitVec.ofInt 64 v)) :=
      heffect.step (by decide) hfits hw
    exact ⟨s, 0, .single haccess, .refl s, rfl⟩
  · rw [bytesOf_append] at h ⊢
    obtain ⟨s₁, hruns, hconst, hpasses⟩ := runs_constItems h.left
    have hrest : mem.Holds s₁.cpu.pc
        ([Op3.add.encode t0 sp t0, op.encode ra t0 0].flatMap bytes32) := by
      rw [hpasses.pc]
      exact h.right
    obtain ⟨hadd, hrest⟩ := hrest.word_cons
    have hlast := hrest.word_cons.1
    have hsum := step_add (by decide) (by decide) (by decide) hadd
    let s₂ := s₁.wrote 5 (s₁.cpu.get 2 + s₁.cpu.get 5)
    have hplace : s₂.cpu.get (regOf t0) + BitVec.ofInt 64 0 = s.cpu.get 2 + BitVec.ofInt 64 v := by
      have hwrote : s₂.cpu.get (regOf t0) = s₁.cpu.get 2 + s₁.cpu.get 5 := get_wrote_self (by decide)
      rw [hwrote, hpasses.sp, hconst]
      exact BitVec.add_zero _
    have haccess : stackCpu.step mem s₂ =
        .next (effect s₂ (s₂.cpu.get (regOf t0) + BitVec.ofInt 64 0)) :=
      heffect.step (by decide) (by decide) (by rw [pc_wrote]; exact hlast)
    rw [hplace] at haccess
    refine ⟨_, _, hruns.trans (.head hsum (.single haccess)),
      hpasses.wrote (by decide) (by decide), ?_⟩
    rw [List.length_append]
    rfl

variable {frame : Frame}

theorem linkOffset_eq (h : 8 ≤ frame.size.toNat) :
    BitVec.ofInt 64 (linkOffset frame) = BitVec.ofNat 64 (frame.size.toNat - 8) := by
  have hcast : linkOffset frame = ((frame.size.toNat - 8 : Nat) : Int) := (Int.ofNat_sub h).symm
  rw [hcast, BitVec.ofInt_natCast]

theorem entersBy_prologue (hroom : frame.savesLink → 8 ≤ frame.size.toNat) :
    stackCpu.EntersBy (bytesOf (prologue frame)) frame.size.toNat
      (if frame.savesLink then 8 else 0) := by
  intro mem s h
  rw [prologue, bytesOf_append] at h ⊢
  obtain ⟨s₁, hmove, hpc, hsp, hra, hdata⟩ := runs_moveSp h.left
  rw [BitVec.ofInt_neg, BitVec.ofInt_natCast, ← BitVec.sub_eq_add_neg] at hsp
  split_ifs at h ⊢ with hlink
  · have hrest := h.right
    rw [← hpc] at hrest
    obtain ⟨s₂, n, hstore, hpasses, hlength⟩ := runs_access accesses_sd hrest
    rw [linkOffset_eq (hroom hlink)] at hstore
    refine ⟨_, hmove.trans hstore, ?_, ?_, ?_, fun a ha => ?_, nofun⟩
    · change s₂.cpu.pc + 4 = _
      rw [hpasses.pc, hpc, List.length_append, hlength, BitVec.ofNat_add, BitVec.ofNat_add,
        BitVec.add_assoc, BitVec.add_assoc]
      rfl
    · exact hpasses.sp.trans hsp
    · have hplace : StackCpu.linkPlace (s₂.cpu.get 2) frame.size.toNat 8 =
          s₁.cpu.get 2 + BitVec.ofNat 64 (frame.size.toNat - 8) := by
        rw [StackCpu.linkPlace, hpasses.sp]
      change (s₂.data.store _ (s₂.cpu.get 1)).words
        (StackCpu.linkPlace (s₂.cpu.get 2) frame.size.toNat 8) 1 = [s.cpu.get 1]
      rw [hplace, ByteMemory.words_one, ByteMemory.load_store, hpasses.link, hra]
    · have hout : 8 ≤ (a - (s₁.cpu.get 2 + BitVec.ofNat 64 (frame.size.toNat - 8))).toNat := by
        rw [← hpasses.sp]
        exact ha
      exact (ByteMemory.store_of_le hout).trans (congrFun (hpasses.data.trans hdata) a)
  · refine ⟨s₁, hmove, ?_, hsp, rfl, fun a _ => congrFun hdata a, fun _ => ?_⟩
    · rw [show bytesOf [] = [] from rfl, List.append_nil]
      exact hpc
    · exact congrArg (fun ra => [ra]) hra

theorem step_ret (h : mem.Holds s.cpu.pc (bytesOf [.word ret "ret"])) :
    ∃ s'', stackCpu.step mem s = .next s'' ∧ s''.cpu.pc = stackCpu.returnTo s ∧
      stackCpu.sp s'' = stackCpu.sp s + BitVec.ofNat 64 0 := by
  have hword := ByteMemory.Holds.word_single h
  have hstep := step_of_step (s := s) (step_of_decode (hword ▸ decode_ret))
  refine ⟨_, hstep, ?_, (BitVec.add_zero _).symm⟩
  exact congrArg (· &&& ~~~1) (BitVec.add_zero (s.cpu.get 1))

theorem runs_moveSp_ret {size : Nat}
    (h : mem.Holds s.cpu.pc (bytesOf (moveSp size) ++ bytesOf [.word ret "ret"])) :
    ∃ s' s'', stackCpu.Runs mem s s' ∧
      stackCpu.sp s' = stackCpu.sp s + BitVec.ofNat 64 size ∧
      s'.data = s.data ∧ stackCpu.link s' = stackCpu.link s ∧
      stackCpu.step mem s' = .next s'' ∧ s''.cpu.pc = stackCpu.returnTo s' ∧
      stackCpu.sp s'' = stackCpu.sp s' + BitVec.ofNat 64 0 := by
  obtain ⟨s', hmove, hpc, hsp, hra, hdata⟩ := runs_moveSp h.left
  rw [BitVec.ofInt_natCast] at hsp
  have hret := h.right
  rw [← hpc] at hret
  obtain ⟨s'', hstep, hto, hkept⟩ := step_ret hret
  exact ⟨s', s'', hmove, hsp, hdata, congrArg (fun ra => [ra]) hra, hstep, hto, hkept⟩

theorem leavesBy_ret (hroom : frame.savesLink → 8 ≤ frame.size.toNat)
    {around : Surroundings} (hframe : around.frame = frame) (regs : OperandRegs) :
    ∃ code, expand around .ret regs = .ok (code.map .fixed) ∧
      stackCpu.LeavesBy (bytesOf code) frame.size.toNat (if frame.savesLink then 8 else 0) 0 := by
  subst hframe
  refine ⟨(if around.frame.savesLink then access .ld ra ra.name sp (linkOffset around.frame) else [])
    ++ moveSp around.frame.size.toNat ++ [.word ret "ret"], rfl, fun mem s h => ?_⟩
  rw [bytesOf_append, bytesOf_append] at h
  split_ifs at h ⊢ with hlink
  · obtain ⟨s₂, n, hload, hpasses, hlength⟩ := runs_access accesses_ld h.left.left
    rw [linkOffset_eq (hroom hlink)] at hload
    let place := s.cpu.get 2 + BitVec.ofNat 64 (around.frame.size.toNat - 8)
    let s₁ := loadLink s₂ place
    have hpc : s₁.cpu.pc = s.cpu.pc + BitVec.ofNat 64
        (bytesOf (access .ld ra ra.name sp (linkOffset around.frame))).length := by
      refine pc_wrote.trans ?_
      rw [hpasses.pc, hlength, BitVec.ofNat_add, BitVec.add_assoc]
      rfl
    have hrest : mem.Holds s₁.cpu.pc
        (bytesOf (moveSp around.frame.size.toNat) ++ bytesOf [.word ret "ret"]) := by
      rw [List.append_assoc] at h
      rw [hpc]
      exact h.right
    obtain ⟨s', s'', hmove, hsp, hdata, hkept, hstep⟩ := runs_moveSp_ret hrest
    refine ⟨s', s'', hload.trans hmove, ⟨?_, hdata.trans hpasses.data, ?_⟩, hstep⟩
    · rw [hsp]
      exact congrArg (· + _) ((sp_loadLink place).trans hpasses.sp)
    · have hread : s₁.cpu.get 1 = s₂.data.load place := get_wrote_self (by decide)
      rw [hkept, if_neg (by decide)]
      change [s₁.cpu.get 1] = s.data.words (StackCpu.linkPlace (s.cpu.get 2) _ 8) 1
      rw [hread, ByteMemory.words_one, hpasses.data, StackCpu.linkPlace]
  · obtain ⟨s', s'', hmove, hsp, hdata, hkept, hstep⟩ := runs_moveSp_ret h
    exact ⟨s', s'', hmove, ⟨hsp, hdata, hkept⟩, hstep⟩

end

end SeaNodes.RiscV
