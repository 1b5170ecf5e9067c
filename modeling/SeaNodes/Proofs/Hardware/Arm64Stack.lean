import SeaNodes.Proofs.Code.Resolved
import SeaNodes.Proofs.Hardware.Arm64
import SeaNodes.Proofs.Hardware.Basic

namespace SeaNodes.Arm64

structure StackState where
  cpu : State
  sp : BitVec 64
  data : ByteMemory

inductive StackInstr where
  /-- Register 31 is the stack pointer in these. -/
  | add (d n : BitVec 5) (imm : BitVec 64)
  | sub (d n : BitVec 5) (imm : BitVec 64)
  /-- Stores a pair below an address, which is moved down first. -/
  | push (a b n : BitVec 5) (offset : BitVec 64)
  /-- Loads a pair from an address, which is moved up afterwards. -/
  | pop (a b n : BitVec 5) (offset : BitVec 64)
  | ret (n : BitVec 5)
deriving DecidableEq

/-- An immediate of 12 bits, which a bit above it shifts by 12. -/
def shiftedImm (w : UInt32) : BitVec 64 :=
  (imm12Of w).setWidth 64 <<< (if (top w).extractLsb' 1 1 = 1 then 12 else 0)

def pairOffset (w : UInt32) : BitVec 64 := (w.toBitVec.extractLsb' 15 7 ++ 0#3).signExtend 64

def pairSecond (w : UInt32) : BitVec 5 := w.toBitVec.extractLsb' 10 5

def decodeStack (w : UInt32) : Option StackInstr :=
  let t := top w
  if t.extractLsb' 2 9 = 0b100100010 then some (.add (rd w) (rn w) (shiftedImm w))
  else if t.extractLsb' 2 9 = 0b110100010 then some (.sub (rd w) (rn w) (shiftedImm w))
  else if t.extractLsb' 1 10 = 0b1010100110 then
    some (.push (rd w) (pairSecond w) (rn w) (pairOffset w))
  else if t.extractLsb' 1 10 = 0b1010100011 then
    some (.pop (rd w) (pairSecond w) (rn w) (pairOffset w))
  else if t = 0b11010110010 ∧ rm w = 31 ∧ middle w = 0 ∧ rd w = 0 then some (.ret (rn w))
  else none

namespace StackState

def get (s : StackState) (r : BitVec 5) : BitVec 64 := if r = 31 then s.sp else s.cpu.get r

def set (s : StackState) (r : BitVec 5) (v : BitVec 64) : StackState :=
  if r = 31 then { s with sp := v } else { s with cpu := s.cpu.set r v }

def next (s : StackState) : StackState := { s with cpu := s.cpu.goto (s.cpu.pc + 4) }

end StackState

def execStack (s : StackState) (i : StackInstr) : StackState :=
  match i with
  | .add d n imm => s.next.set d (s.get n + imm)
  | .sub d n imm => s.next.set d (s.get n - imm)
  | .push a b n offset =>
    let place := s.get n + offset
    { s.next.set n place with
      data := (s.data.store place (s.cpu.get a)).store (place + 8) (s.cpu.get b) }
  | .pop a b n offset =>
    let place := s.get n
    let s' := s.next.set n (place + offset)
    { s' with cpu := (s'.cpu.set a (s.data.load place)).set b (s.data.load (place + 8)) }
  | .ret n => { s with cpu := s.cpu.goto (s.cpu.get n) }

def stepStack (mem : ByteMemory) (s : StackState) : Effect StackState :=
  match decode (mem.word s.cpu.pc) with
  | some i => .next { s with cpu := exec s.cpu i }
  | none =>
    match decodeStack (mem.word s.cpu.pc) with
    | some i => .next (execStack s i)
    | none => .fault

abbrev stackCpu : StackCpu where
  State := StackState
  step := stepStack
  pc s := s.cpu.pc
  int s := cpu.int s.cpu
  float s := cpu.float s.cpu
  sp := StackState.sp
  data := StackState.data
  link s := [s.cpu.get 29, s.cpu.get 30]
  returnTo s := s.cpu.get 30

theorem step_of_decodeStack {mem : ByteMemory} {s : StackState} {i : StackInstr}
    (hnone : decode (mem.word s.cpu.pc) = none)
    (h : decodeStack (mem.word s.cpu.pc) = some i) :
    stackCpu.step mem s = .next (execStack s i) := by
  change stepStack mem s = .next (execStack s i)
  simp only [stepStack, hnone, h]

section

variable {d n : Num} {imm : UInt32}

theorem decode_pushFrame : decode pushFrame = none ∧
    decodeStack pushFrame = some (.push 29 30 31 (-16)) := by
  decide

theorem decode_popFrame : decode popFrame = none ∧
    decodeStack popFrame = some (.pop 29 30 31 16) := by
  decide

theorem decode_moveFramePointer : decode (addImm framePointer sp 0 false) = none ∧
    decodeStack (addImm framePointer sp 0 false) = some (.add 29 31 0) := by
  decide

theorem decode_ret : decode ret = none ∧ decodeStack ret = some (.ret 30) := by decide

theorem decode_of_top {w : UInt32} {op : BitVec 9} (hop : op = 0b100100010 ∨ op = 0b110100010)
    (htop : (top w).extractLsb' 2 9 = op) : decode w = none ∧ decodeStack w = some
      (if op = 0b100100010 then .add (rd w) (rn w) (shiftedImm w)
        else .sub (rd w) (rn w) (shiftedImm w)) := by
  have hsplit : top w = op ++ (top w).extractLsb' 0 2 := by
    have hparts : (top w).extractLsb' 2 9 ++ (top w).extractLsb' 0 2 = (top w).extractLsb' 0 11 :=
      BitVec.extractLsb'_append_extractLsb'_eq_extractLsb' rfl
    rw [← htop, hparts, BitVec.extractLsb'_eq_self]
  have hother : ∀ low : BitVec 2, (op ++ low).extractLsb' 5 6 ≠ 0b000101 ∧
      (op ++ low).extractLsb' 3 8 ≠ 0b01010100 ∧ (op ++ low).extractLsb' 2 9 ≠ 0b110100101 ∧
      (op ++ low).extractLsb' 2 9 ≠ 0b100100101 ∧ (op ++ low).extractLsb' 2 9 ≠ 0b111100101 ∧
      (op ++ low).extractLsb' 1 10 ≠ 0b1111000100 ∧ (op ++ low).extractLsb' 1 10 ≠ 0b1011000100 ∧
      op ++ low ≠ 0b10011010110 ∧ op ++ low ≠ 0b11101011000 ∧ op ++ low ≠ 0b00011110011 := by
    rcases hop with rfl | rfl <;> decide
  obtain ⟨h₁, h₂, h₃, h₄, h₅, h₆, h₇, h₈, h₉, h₁₀⟩ := hother ((top w).extractLsb' 0 2)
  rw [← hsplit] at h₁ h₂ h₃ h₄ h₅ h₆ h₇ h₈ h₉ h₁₀
  constructor
  · simp only [decode, h₁, h₂, h₃, h₄, h₅, h₆, h₇, h₈, h₉, h₁₀, if_false]
  · rcases hop with rfl | rfl <;> simp [decodeStack, htop]

/-- The value of an immediate of 12 bits. -/
def immValue (imm : UInt32) (shifted : Bool) : BitVec 64 :=
  (imm.toBitVec.extractLsb' 0 12).setWidth 64 <<< (if shifted then 12 else 0)

theorem decode_imm12 {base : UInt32} {op : BitVec 9} {shifted : Bool} (hd : d.toNat < 2 ^ 5)
    (hn : n.toNat < 2 ^ 5) (hop : op = 0b100100010 ∨ op = 0b110100010)
    (hbase : (top base).extractLsb' 2 9 = op ∧ (top base).extractLsb' 1 1 = .ofBool shifted ∧
      rd base = 0#5 ∧ rn base = 0#5 ∧ imm12Of base = 0#12) :
    decode (imm12 base imm d n) = none ∧ decodeStack (imm12 base imm d n) = some
      (if op = 0b100100010 then .add (regOf d) (regOf n) (immValue imm shifted)
        else .sub (regOf d) (regOf n) (immValue imm shifted)) := by
  obtain ⟨htopop, hshift, hrd₀, hrn₀, himm₀⟩ := hbase
  obtain ⟨htop, hrd, hrn, himm⟩ := imm12_fields base imm hd hn
  rw [hrd₀, BitVec.zero_or] at hrd
  rw [hrn₀, BitVec.zero_or] at hrn
  rw [himm₀, BitVec.zero_or] at himm
  have hvalue : shiftedImm (imm12 base imm d n) = immValue imm shifted := by
    rw [shiftedImm, immValue, himm, htop 1 1 (by decide) (by decide), hshift]
    cases shifted <;> rfl
  have h := decode_of_top hop ((htop 2 9 (by decide) (by decide)).trans htopop)
  rwa [hrd, hrn, hvalue] at h

theorem decode_addImm (shifted : Bool) (hd : d.toNat < 2 ^ 5) (hn : n.toNat < 2 ^ 5) :
    decode (addImm d n imm shifted) = none ∧ decodeStack (addImm d n imm shifted) =
      some (.add (regOf d) (regOf n) (immValue imm shifted)) :=
  decode_imm12 hd hn (.inl rfl) (by cases shifted <;> decide)

theorem decode_subImm (shifted : Bool) (hd : d.toNat < 2 ^ 5) (hn : n.toNat < 2 ^ 5) :
    decode (subImm d n imm shifted) = none ∧ decodeStack (subImm d n imm shifted) =
      some (.sub (regOf d) (regOf n) (immValue imm shifted)) :=
  decode_imm12 hd hn (.inr rfl) (by cases shifted <;> decide)

end

section

variable {mem : ByteMemory} {s : StackState} {bytes : UInt32}

/-- The processor with its stack pointer elsewhere, after some instructions. -/
def StackState.moved (s : StackState) (v : BitVec 64) (n : Nat) : StackState :=
  { s with cpu := s.cpu.goto (s.cpu.pc + BitVec.ofNat 64 n), sp := v }

theorem StackState.moved_zero : s.moved s.sp 0 = s := by
  rw [moved, BitVec.add_zero]
  rfl

theorem StackState.moved_moved {v v' : BitVec 64} {n n' : Nat} :
    (s.moved v n).moved v' n' = s.moved v' (n + n') := by
  rw [moved, moved, moved, BitVec.ofNat_add, ← BitVec.add_assoc]
  rfl

theorem immValue_eq {imm : UInt32} (shifted : Bool) (h : imm.toNat < 2 ^ 12) :
    immValue imm shifted = BitVec.ofNat 64 (imm.toNat * if shifted then 2 ^ 12 else 1) := by
  have hfield : (imm.toBitVec.extractLsb' 0 12).toNat = imm.toNat := by
    rw [BitVec.extractLsb'_toNat, Nat.shiftRight_zero, UInt32.toNat_toBitVec, Nat.mod_eq_of_lt h]
  apply BitVec.eq_of_toNat_eq
  rw [immValue, BitVec.toNat_shiftLeft, BitVec.toNat_setWidth, hfield, BitVec.toNat_ofNat,
    Nat.shiftLeft_eq, Nat.mod_eq_of_lt (h.trans (by decide) : imm.toNat < 2 ^ 64)]
  cases shifted <;> rfl

theorem immValue_add (h : bytes.toNat < 2 ^ 24) :
    immValue (bytes >>> 12) true + immValue (bytes &&& 0xfff) false =
      BitVec.ofNat 64 bytes.toNat := by
  have hhigh : (bytes >>> 12).toNat = bytes.toNat / 2 ^ 12 := by
    rw [UInt32.toNat_shiftRight, Nat.shiftRight_eq_div_pow]
    rfl
  have hlow : (bytes &&& 0xfff).toNat = bytes.toNat % 2 ^ 12 := by
    rw [UInt32.toNat_and]
    exact Nat.and_two_pow_sub_one_eq_mod bytes.toNat 12
  rw [immValue_eq true (by omega), immValue_eq false (by omega), hhigh, hlow, ← BitVec.ofNat_add]
  congr 1
  simp only [if_true, Bool.false_eq_true, if_false, Nat.mul_one]
  omega

theorem immValue_zero (shifted : Bool) : immValue 0 shifted = 0 := by cases shifted <;> decide

/-- What an instruction on the stack pointer does to it. -/
structure Moves (encode : Num → Num → UInt32 → Bool → UInt32)
    (move : BitVec 64 → BitVec 64 → BitVec 64) : Prop where
  step : ∀ {mem : ByteMemory} {s : StackState} {imm shifted},
    mem.word s.cpu.pc = encode sp sp imm shifted →
    stackCpu.step mem s = .next (s.moved (move s.sp (immValue imm shifted)) 4)
  zero : ∀ x, move x 0 = x
  add : ∀ x a b, move (move x a) b = move x (a + b)

theorem moves_add : Moves addImm (· + ·) where
  step {mem s imm shifted} hw := by
    obtain ⟨hnone, hdecode⟩ : decode (addImm sp sp imm shifted) = none ∧ _ :=
      decode_addImm shifted (by decide) (by decide)
    exact step_of_decodeStack (hw ▸ hnone) (hw ▸ hdecode)
  zero x := BitVec.add_zero x
  add x a b := BitVec.add_assoc x a b

theorem moves_sub : Moves subImm (· - ·) where
  step {mem s imm shifted} hw := by
    obtain ⟨hnone, hdecode⟩ : decode (subImm sp sp imm shifted) = none ∧ _ :=
      decode_subImm shifted (by decide) (by decide)
    exact step_of_decodeStack (hw ▸ hnone) (hw ▸ hdecode)
  zero x := BitVec.sub_zero x
  add x a b := by
    rw [BitVec.sub_eq_add_neg, BitVec.sub_eq_add_neg, BitVec.sub_eq_add_neg, BitVec.neg_add,
      BitVec.add_assoc, BitVec.sub_eq_add_neg]

variable {encode : Num → Num → UInt32 → Bool → UInt32} {move : BitVec 64 → BitVec 64 → BitVec 64}

theorem runs_part (hmoves : Moves encode move) (v : UInt32) (shifted : Bool) (text : String)
    (h : mem.Holds s.cpu.pc
      (bytesOf (if v = 0 then [] else [.word (encode sp sp v shifted) text]))) :
    stackCpu.Runs mem s (s.moved (move s.sp (immValue v shifted))
      (bytesOf (if v = 0 then [] else [.word (encode sp sp v shifted) text])).length) := by
  split_ifs at h ⊢ with hzero
  · have hsame : s.moved s.sp (bytesOf []).length = s := StackState.moved_zero
    rw [hzero, immValue_zero, hmoves.zero, hsame]
    exact .refl
  · exact .single (hmoves.step (ByteMemory.Holds.word_single h))

theorem runs_moveSp (hmoves : Moves encode move) (mnemonic : String) (hbytes : bytes.toNat < 2 ^ 24)
    (h : mem.Holds s.cpu.pc (bytesOf (moveSp mnemonic encode bytes))) :
    stackCpu.Runs mem s (s.moved (move s.sp (BitVec.ofNat 64 bytes.toNat))
      (bytesOf (moveSp mnemonic encode bytes)).length) := by
  rw [moveSp, bytesOf_append] at h
  rw [moveSp, bytesOf_append]
  refine (runs_part hmoves _ true _ h.left).trans ?_
  have hlow := runs_part (s := s.moved (move s.sp (immValue (bytes >>> 12) true)) _) hmoves
    (bytes &&& 0xfff) false _ h.right
  rw [StackState.moved_moved] at hlow
  rw [List.length_append, ← immValue_add hbytes, ← hmoves.add]
  exact hlow

variable {frame : Frame}

/-- The state after the frame pointer and the return address are pushed. -/
def StackState.pushed (s : StackState) : StackState where
  cpu := (s.cpu.goto (s.cpu.pc + 8)).set 29 (s.sp + -16)
  sp := s.sp + -16
  data := (s.data.store (s.sp + -16) (s.cpu.get 29)).store (s.sp + -16 + 8) (s.cpu.get 30)

theorem runs_push (h : mem.Holds s.cpu.pc
    ([pushFrame, addImm framePointer sp 0 false].flatMap bytes32)) :
    stackCpu.Runs mem s s.pushed := by
  obtain ⟨hpush, hrest⟩ := h.word_cons
  have hmove := hrest.word_cons.1
  let s₁ : StackState := {
    cpu := s.cpu.goto (s.cpu.pc + 4)
    sp := s.sp + -16
    data := (s.data.store (s.sp + -16) (s.cpu.get 29)).store (s.sp + -16 + 8) (s.cpu.get 30) }
  have hfirst : stackCpu.step mem s = .next s₁ :=
    step_of_decodeStack (hpush ▸ decode_pushFrame.1) (hpush ▸ decode_pushFrame.2)
  have hsecond : stackCpu.step mem s₁ = .next (execStack s₁ (.add 29 31 0)) :=
    step_of_decodeStack (hmove ▸ decode_moveFramePointer.1) (hmove ▸ decode_moveFramePointer.2)
  have hexec : execStack s₁ (.add 29 31 0) = s.pushed := by
    have hpc : s.cpu.pc + 4 + 4 = s.cpu.pc + 8 := by
      rw [BitVec.add_assoc]
      rfl
    change { s₁ with cpu := (s.cpu.goto (s.cpu.pc + 4 + 4)).set 29 (s.sp + -16 + 0) } = s.pushed
    rw [hpc, show s.sp + -16 + 0 = s.sp + -16 from BitVec.add_zero _]
    rfl
  exact .head hfirst (.single (hexec ▸ hsecond))

theorem pc_pushed : s.pushed.cpu.pc = s.cpu.pc + 8 := State.pc_set

theorem words_pushed : s.pushed.data.words s.pushed.sp 2 = [s.cpu.get 29, s.cpu.get 30] :=
  ByteMemory.words_store_store ..

theorem entersBy_prologue (hbody : (bodySize frame).toNat < 2 ^ 24)
    (hsize : frame.size.toNat = (bodySize frame).toNat + if frame.savesLink then 16 else 0) :
    stackCpu.EntersBy (bytesOf (prologue frame)) frame.size.toNat
      (if frame.savesLink then 16 else 0) := by
  intro mem s h
  rw [prologue, bytesOf_append] at h ⊢
  rw [hsize]
  split_ifs at h ⊢ with hlink
  · have hpush := runs_push h.left
    have hrest : mem.Holds s.pushed.cpu.pc (bytesOf (moveSp "sub" subImm (bodySize frame))) := by
      rw [pc_pushed]
      exact h.right
    have hmove := runs_moveSp moves_sub "sub" hbody hrest
    have hplace : StackCpu.linkPlace (s.pushed.sp - BitVec.ofNat 64 (bodySize frame).toNat)
        ((bodySize frame).toNat + 16) 16 = s.pushed.sp := by
      rw [StackCpu.linkPlace, Nat.add_sub_cancel, BitVec.sub_add_cancel]
    refine ⟨_, hpush.trans hmove, ?_, ?_, ?_, fun a ha => ?_, nofun⟩
    · change s.pushed.cpu.pc + _ = _
      rw [pc_pushed, List.length_append, BitVec.ofNat_add, ← BitVec.add_assoc]
      rfl
    · change s.sp + -16 - BitVec.ofNat 64 (bodySize frame).toNat = _
      rw [BitVec.ofNat_add]
      generalize BitVec.ofNat 64 (bodySize frame).toNat = n
      change s.sp + -16 - n = s.sp - (n + 16#64)
      bv_omega
    · exact (congrArg (s.pushed.data.words · 2) hplace).trans words_pushed
    · have hout : 16 ≤ (a - s.pushed.sp).toNat := by
        rw [← hplace]
        exact ha
      exact ByteMemory.store_store_of_le hout
  · have hbody' : mem.Holds s.cpu.pc (bytesOf (moveSp "sub" subImm (bodySize frame))) := h
    exact ⟨_, runs_moveSp moves_sub "sub" hbody hbody', rfl, rfl, rfl, fun _ _ => rfl, fun _ => rfl⟩

/-- The state after the frame pointer and the return address are popped. -/
def StackState.popped (s : StackState) : StackState where
  cpu := ((s.cpu.goto (s.cpu.pc + 4)).set 29 (s.data.load s.sp)).set 30 (s.data.load (s.sp + 8))
  sp := s.sp + 16
  data := s.data

theorem pc_popped : s.popped.cpu.pc = s.cpu.pc + 4 := State.pc_set.trans State.pc_set

theorem step_pop (hw : mem.word s.cpu.pc = popFrame) : stackCpu.step mem s = .next s.popped :=
  step_of_decodeStack (hw ▸ decode_popFrame.1) (hw ▸ decode_popFrame.2)

theorem link_popped : stackCpu.link s.popped = s.data.words s.sp 2 := by
  have hlow : s.popped.cpu.get 29 = s.data.load s.sp := by
    rw [StackState.popped, State.get_set_of_ne (by decide), State.get_set_self (by decide)]
  have hhigh : s.popped.cpu.get 30 = s.data.load (s.sp + 8) := State.get_set_self (by decide)
  rw [ByteMemory.words_two]
  exact congrArg₂ (fun a b => [a, b]) hlow hhigh

theorem step_ret (h : mem.Holds s.cpu.pc (bytesOf [.word ret "ret"])) :
    ∃ s'', stackCpu.step mem s = .next s'' ∧ s''.cpu.pc = stackCpu.returnTo s ∧
      stackCpu.sp s'' = stackCpu.sp s + BitVec.ofNat 64 0 := by
  have hword := ByteMemory.Holds.word_single h
  exact ⟨_, step_of_decodeStack (hword ▸ decode_ret.1) (hword ▸ decode_ret.2), rfl,
    (BitVec.add_zero _).symm⟩

/-- The code of a return gives up the frame, and the instruction at its end returns. -/
theorem leavesBy_ret (hbody : (bodySize frame).toNat < 2 ^ 24)
    (hsize : frame.size.toNat = (bodySize frame).toNat + if frame.savesLink then 16 else 0)
    {around : Surroundings} (hframe : around.frame = frame) (regs : OperandRegs) :
    ∃ code, expand around .ret regs = .ok (code.map .fixed) ∧
      stackCpu.LeavesBy (bytesOf code) frame.size.toNat (if frame.savesLink then 16 else 0) 0 := by
  subst hframe
  refine ⟨moveSp "add" addImm (bodySize around.frame) ++
    (if around.frame.savesLink then [.word popFrame "ldp x29, x30, [sp], #16"] else []) ++
    [.word ret "ret"], rfl, fun mem s h => ?_⟩
  rw [bytesOf_append, bytesOf_append] at h
  have hmove := runs_moveSp moves_add "add" hbody h.left.left
  rw [hsize]
  split_ifs at h ⊢ with hlink
  · let s₁ := s.moved (s.sp + BitVec.ofNat 64 (bodySize around.frame).toNat)
      (bytesOf (moveSp "add" addImm (bodySize around.frame))).length
    have hpop : mem.word s₁.cpu.pc = popFrame :=
      ByteMemory.Holds.word_single h.left.right
    have hret : mem.Holds s₁.popped.cpu.pc (bytesOf [.word ret "ret"]) := by
      have hpc : s₁.popped.cpu.pc = s.cpu.pc + BitVec.ofNat 64
          (bytesOf (moveSp "add" addImm (bodySize around.frame)) ++
            bytesOf [.word popFrame "ldp x29, x30, [sp], #16"]).length := by
        rw [pc_popped, List.length_append, BitVec.ofNat_add, ← BitVec.add_assoc]
        rfl
      rw [hpc]
      exact h.right
    obtain ⟨s'', hstep, hpc, hsp⟩ := step_ret hret
    refine ⟨_, s'', hmove.trans (.single (step_pop hpop)), ⟨?_, rfl, ?_⟩, hstep, hpc, hsp⟩
    · change s.sp + BitVec.ofNat 64 (bodySize around.frame).toNat + 16 = _
      rw [BitVec.ofNat_add, ← BitVec.add_assoc]
      rfl
    · have hplace : StackCpu.linkPlace s.sp ((bodySize around.frame).toNat + 16) 16 = s₁.sp := by
        rw [StackCpu.linkPlace, Nat.add_sub_cancel]
        rfl
      rw [if_neg (by decide)]
      exact link_popped.trans (congrArg (s.data.words · 2) hplace.symm)
  · have hret : mem.Holds (s.moved (s.sp + BitVec.ofNat 64 (bodySize around.frame).toNat)
        (bytesOf (moveSp "add" addImm (bodySize around.frame))).length).cpu.pc
        (bytesOf [.word ret "ret"]) := by
      have hright := h.right
      rw [show bytesOf [] = [] from rfl, List.append_nil] at hright
      exact hright
    obtain ⟨s'', hstep, hpc, hsp⟩ := step_ret hret
    exact ⟨_, s'', hmove, ⟨rfl, rfl, rfl⟩, hstep, hpc, hsp⟩

end

end SeaNodes.Arm64
