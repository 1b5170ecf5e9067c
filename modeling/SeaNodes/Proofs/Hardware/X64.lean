import Mathlib.Data.Fintype.Basic
import Mathlib.Logic.Function.Basic
import SeaNodes.Isa.X64
import SeaNodes.Proofs.Hardware.Basic

namespace SeaNodes.X64

structure Flags where
  cf : Bool
  pf : Bool
  zf : Bool
  sf : Bool
  of : Bool
deriving DecidableEq

structure State where
  rip : BitVec 64
  regs : Gpr → BitVec 64
  xmms : Xmm → Double
  flags : Flags
  /-- What the flags are after an instruction that leaves them undefined. -/
  undefined : Flags

namespace State

def set (s : State) (r : Gpr) (v : BitVec 64) : State :=
  { s with regs := Function.update s.regs r v }

/-- Goes on after an instruction of `n` bytes. -/
def past (s : State) (n : Nat) : State := { s with rip := s.rip + BitVec.ofNat 64 n }

variable {s : State} {r r' : Gpr} {v : BitVec 64} {n : Nat}

@[simp] theorem regs_past : (s.past n).regs = s.regs := rfl
@[simp] theorem xmms_past : (s.past n).xmms = s.xmms := rfl
@[simp] theorem flags_past : (s.past n).flags = s.flags := rfl
@[simp] theorem rip_past : (s.past n).rip = s.rip + BitVec.ofNat 64 n := rfl

@[simp] theorem regs_set_self : (s.set r v).regs r = v := Function.update_self ..

@[simp] theorem regs_set_of_ne (h : r' ≠ r) : (s.set r v).regs r' = s.regs r' :=
  Function.update_of_ne h ..

end State

inductive Instr where
  | cmp (a b : Gpr)
  | cmpImm (a : Gpr) (imm : BitVec 64)
  | test (a b : Gpr)
  | ucomisd (a b : Xmm)
  | mov (d : Gpr) (imm : BitVec 64)
  | cqo
  | idiv (a : Gpr)
  | jumpIf (cond : BitVec 4) (offset : BitVec 64)
  | jump (offset : BitVec 64)
deriving DecidableEq

/-- What stands before the opcode. -/
structure Prefixes where
  /-- The byte that makes operands half words, or selects among vector instructions. -/
  half : Bool
  /-- The REX byte; one whose fields are zero stands for none. -/
  rex : UInt8
  length : Nat

namespace Prefixes

/-- From the place of a REX byte on. -/
def ofRest (b : Nat → UInt8) (half : Bool) (n : Nat) : Prefixes :=
  if b n >>> 4 = 4 then ⟨half, b n, n + 1⟩ else ⟨half, 0x40, n⟩

def ofBytes (b : Nat → UInt8) : Prefixes :=
  if b 0 = 0x66 then ofRest b true 1 else ofRest b false 0

variable (p : Prefixes) (modrm : UInt8)

/-- Operands have 64 bits. -/
def wide : Bool := p.rex.toBitVec.getLsbD 3

def reg : Fin 16 :=
  (p.rex.toBitVec.extractLsb' 2 1 ++ modrm.toBitVec.extractLsb' 3 3 : BitVec 4).toFin

def rm : Fin 16 :=
  (p.rex.toBitVec.extractLsb' 0 1 ++ modrm.toBitVec.extractLsb' 0 3 : BitVec 4).toFin

end Prefixes

/-- A ModR/M byte for registers only. -/
def isDirect (modrm : UInt8) : Bool := modrm >>> 6 = 3

/-- The extension of the opcode in a ModR/M byte. -/
def digit (modrm : UInt8) : BitVec 3 := modrm.toBitVec.extractLsb' 3 3

def signed8 (b : Nat → UInt8) (k : Nat) : BitVec 64 := (b k).toBitVec.signExtend 64

def signed32 (b : Nat → UInt8) (k : Nat) : BitVec 64 := (word32At b k).toBitVec.signExtend 64

def word64At (b : Nat → UInt8) (k : Nat) : BitVec 64 :=
  (word32At b (k + 4)).toBitVec ++ (word32At b k).toBitVec

/-- The instruction that bytes start with, and its length. -/
def decode (b : Nat → UInt8) : Option (Instr × Nat) :=
  let p := Prefixes.ofBytes b
  let o := p.length
  let m := b (o + 1)
  if p.half then
    if b o = 0x0f ∧ m = 0x2e ∧ isDirect (b (o + 2)) then
      some (.ucomisd (p.reg (b (o + 2))) (p.rm (b (o + 2))), o + 3)
    else none
  else if b o >>> 3 = 0x17 then
    if p.wide then some (.mov (p.rm (b o)) (word64At b (o + 1)), o + 9)
    else some (.mov (p.rm (b o)) ((word32At b (o + 1)).toBitVec.setWidth 64), o + 5)
  else if p.wide then
    if b o = 0x99 then some (.cqo, o + 1)
    else if !isDirect m then none
    else if b o = 0x39 then some (.cmp (p.rm m) (p.reg m), o + 2)
    else if b o = 0x85 then some (.test (p.rm m) (p.reg m), o + 2)
    else if b o = 0x83 ∧ digit m = 7 then some (.cmpImm (p.rm m) (signed8 b (o + 2)), o + 3)
    else if b o = 0x81 ∧ digit m = 7 then some (.cmpImm (p.rm m) (signed32 b (o + 2)), o + 6)
    else if b o = 0xc7 ∧ digit m = 0 then some (.mov (p.rm m) (signed32 b (o + 2)), o + 6)
    else if b o = 0xf7 ∧ digit m = 7 then some (.idiv (p.rm m), o + 2)
    else none
  else if b o >>> 4 = 7 then
    some (.jumpIf ((b o).toBitVec.extractLsb' 0 4) (signed8 b (o + 1)), o + 2)
  else if b o = 0x0f ∧ m >>> 4 = 8 then
    some (.jumpIf (m.toBitVec.extractLsb' 0 4) (signed32 b (o + 2)), o + 6)
  else if b o = 0xeb then some (.jump (signed8 b (o + 1)), o + 2)
  else if b o = 0xe9 then some (.jump (signed32 b (o + 1)), o + 5)
  else none

/-- Whether the low byte of a result has an even number of ones. -/
def parity (v : BitVec 64) : Bool := (List.range 8).countP v.getLsbD % 2 = 0

/-- The flags of a difference. -/
def subFlags (a b : BitVec 64) : Flags where
  cf := a.toNat < b.toNat
  pf := parity (a - b)
  zf := a - b = 0
  sf := (a - b).msb
  of := (a - b).toInt ≠ a.toInt - b.toInt

def andFlags (a b : BitVec 64) : Flags where
  cf := false
  pf := parity (a &&& b)
  zf := a &&& b = 0
  sf := (a &&& b).msb
  of := false

/-- The flags of a comparison of doubles. -/
def orderFlags : Option Ordering → Flags
  | some .lt => ⟨true, false, false, false, false⟩
  | some .eq => ⟨false, false, true, false, false⟩
  | some .gt => ⟨false, false, false, false, false⟩
  | none => ⟨true, true, true, false, false⟩

/-- Whether a condition holds; its lowest bit inverts it. -/
def conditionHolds (cond : BitVec 4) (f : Flags) : Bool :=
  let result :=
    if cond.extractLsb' 1 3 = 0 then f.of
    else if cond.extractLsb' 1 3 = 1 then f.cf
    else if cond.extractLsb' 1 3 = 2 then f.zf
    else if cond.extractLsb' 1 3 = 3 then f.cf || f.zf
    else if cond.extractLsb' 1 3 = 4 then f.sf
    else if cond.extractLsb' 1 3 = 5 then f.pf
    else if cond.extractLsb' 1 3 = 6 then f.sf != f.of
    else f.zf || f.sf != f.of
  result != cond.getLsbD 0

/-- Quotient and remainder of 128 bits, if the quotient has room in 64. -/
def divide? (high low divisor : BitVec 64) : Option (BitVec 64 × BitVec 64) :=
  let n := (high ++ low).toInt
  let q := n.tdiv divisor.toInt
  if divisor = 0 ∨ q < -2 ^ 63 ∨ 2 ^ 63 ≤ q then none
  else some (.ofInt 64 q, .ofInt 64 (n.tmod divisor.toInt))

/-- Carries out an instruction of `n` bytes. -/
def exec (s : State) (i : Instr) (n : Nat) : Effect State :=
  let next := s.past n
  match i with
  | .cmp a b => .next { next with flags := subFlags (s.regs a) (s.regs b) }
  | .cmpImm a imm => .next { next with flags := subFlags (s.regs a) imm }
  | .test a b => .next { next with flags := andFlags (s.regs a) (s.regs b) }
  | .ucomisd a b => .next { next with flags := orderFlags ((s.xmms a).order (s.xmms b)) }
  | .mov d imm => .next (next.set d imm)
  | .cqo => .next (next.set rdx (if (s.regs rax).msb then BitVec.allOnes 64 else 0))
  | .idiv a =>
    match divide? (s.regs rdx) (s.regs rax) (s.regs a) with
    | some (quotient, remainder) =>
      .next { (next.set rax quotient).set rdx remainder with flags := s.undefined }
    | none => .fault
  | .jumpIf cond offset =>
    .next (if conditionHolds cond s.flags then { next with rip := next.rip + offset } else next)
  | .jump offset => .next { next with rip := next.rip + offset }

def step (mem : ByteMemory) (s : State) : Effect State :=
  match decode (mem.bytesAt s.rip) with
  | some (i, n) => exec s i n
  | none => .fault

/-- The processor, with its registers by their numbers in the register file. -/
abbrev cpu : Cpu where
  State := State
  step := step
  pc := State.rip
  int s r := (gpr? r).elim 0 s.regs
  float s r := (xmm? r).elim Double.zero s.xmms

theorem step_of_decode {mem : ByteMemory} {s : State} {i : Instr} {n : Nat}
    (h : decode (mem.bytesAt s.rip) = some (i, n)) : cpu.step mem s = exec s i n := by
  change step mem s = exec s i n
  simp only [step, h]

section

variable {b : Nat → UInt8} {op : UInt8} {w r x : Bool} {reg rm : Fin 16}
  {p : Prefixes}

theorem reg_of_rex (h : p.rex = rexByte w (high reg) false (high rm)) :
    p.reg (modrm 3 (low reg) (low rm)) = reg := by
  rw [Prefixes.reg, h]
  clear h
  revert w reg rm
  decide +kernel

theorem rm_of_rex (h : p.rex = rexByte w (high reg) false (high rm)) :
    p.rm (modrm 3 (low reg) (low rm)) = rm := by
  rw [Prefixes.rm, h]
  clear h
  revert w reg rm
  decide +kernel

theorem isDirect_modrm (reg rm : Fin 16) : isDirect (modrm 3 (low reg) (low rm)) := by
  revert reg rm
  decide +kernel

theorem digit_modrm (reg rm : Fin 16) :
    digit (modrm 3 (low reg) (low rm)) = BitVec.ofNat 3 reg.val := by
  revert reg rm
  decide +kernel

/-- A REX byte is there unless all of its fields are zero. -/
theorem rex_cases (w r i x : Bool) : rex w r i x = [rexByte w r i x] ∨
    rex w r i x = [] ∧ rexByte w r i x = 0x40 := by
  cases w <;> cases r <;> cases i <;> cases x <;> decide

theorem ofRest_of_bytes {i : Bool} {n : Nat} (half : Bool) (hrex : op >>> 4 ≠ 4)
    (h : ∀ k < (rex w r i x ++ [op]).length, b (n + k) = (rex w r i x ++ [op]).getD k 0) :
    Prefixes.ofRest b half n = ⟨half, rexByte w r i x, n + (rex w r i x).length⟩ := by
  have hbyte : rexByte w r i x >>> 4 = 4 := by
    cases w <;> cases r <;> cases i <;> cases x <;> decide
  unfold Prefixes.ofRest
  rcases rex_cases w r i x with hone | ⟨hnone, hzero⟩
  · rw [hone] at h ⊢
    have hb : b n = rexByte w r i x := h 0 (by simp)
    rw [hb, if_pos hbyte]
    rfl
  · rw [hnone] at h ⊢
    have hb : b n = op := h 0 (by simp)
    rw [hb, if_neg hrex, hzero]
    rfl

theorem prefixes_of_starts (h : Starts b (rex w r false x ++ [op])) (hhalf : op ≠ 0x66)
    (hrex : op >>> 4 ≠ 4) :
    Prefixes.ofBytes b = ⟨false, rexByte w r false x, (rex w r false x).length⟩ := by
  have hfirst : b 0 ≠ 0x66 := by
    rw [h 0 (by simp)]
    rcases rex_cases w r false x with hone | ⟨hnone, -⟩
    · rw [hone]
      change rexByte w r false x ≠ 0x66
      cases w <;> cases r <;> cases x <;> decide
    · rwa [hnone]
  unfold Prefixes.ofBytes
  rw [if_neg hfirst, ofRest_of_bytes false hrex (fun k hk => (congrArg b (Nat.zero_add k)).trans (h k hk)),
    Nat.zero_add]

theorem prefixes_of_half (h : Starts b (0x66 :: (rex w r false x ++ [op]))) (hrex : op >>> 4 ≠ 4) :
    Prefixes.ofBytes b = ⟨true, rexByte w r false x, 1 + (rex w r false x).length⟩ := by
  have hfirst : b 0 = 0x66 := h 0 (Nat.succ_pos _)
  unfold Prefixes.ofBytes
  rw [if_pos hfirst]
  have hbytes : Starts b ([0x66] ++ (rex w r false x ++ [op])) := h
  exact ofRest_of_bytes true hrex hbytes.right

theorem prefixes_of_opcode (h : b 0 = op) (hhalf : op ≠ 0x66) (hrex : op >>> 4 ≠ 4) :
    Prefixes.ofBytes b = ⟨false, 0x40, 0⟩ := by
  refine prefixes_of_starts (w := false) (r := false) (x := false) ?_ hhalf hrex
  intro k hk
  obtain rfl : k = 0 := Nat.lt_one_iff.mp hk
  exact h

theorem direct_fields (h : Starts b (direct true [op] reg rm)) (hhalf : op ≠ 0x66)
    (hrex : op >>> 4 ≠ 4) :
    ∃ p, Prefixes.ofBytes b = p ∧ p.half = false ∧ p.length = 1 ∧ p.wide = true ∧ b 1 = op ∧
      isDirect (b 2) = true ∧ digit (b 2) = BitVec.ofNat 3 reg.val ∧ p.reg (b 2) = reg ∧
      p.rm (b 2) = rm := by
  have hop : b 1 = op := h 1 (by simp [direct, rex])
  have hmodrm : b 2 = modrm 3 (low reg) (low rm) := h 2 (by simp [direct, rex])
  have hwide : (rexByte true (high reg) false (high rm)).toBitVec.getLsbD 3 = true := by
    cases high reg <;> cases high rm <;> rfl
  exact ⟨_, prefixes_of_starts h.left hhalf hrex, rfl, rfl, hwide, hop,
    hmodrm ▸ isDirect_modrm reg rm, hmodrm ▸ digit_modrm reg rm, hmodrm ▸ reg_of_rex rfl,
    hmodrm ▸ rm_of_rex rfl⟩

theorem opcode_fields {d : Gpr} (h : Starts b (rex w false false (high d) ++ [0xb8 + low d])) :
    ∃ p, Prefixes.ofBytes b = p ∧ p.half = false ∧
      p.length = (rex w false false (high d)).length ∧ p.wide = w ∧ b p.length >>> 3 = 0x17 ∧
      p.rm (b p.length) = d := by
  have hfacts : 0xb8 + low d ≠ 0x66 ∧ (0xb8 + low d) >>> 4 ≠ 4 ∧ (0xb8 + low d) >>> 3 = 0x17 ∧
      ((rexByte w false false (high d)).toBitVec.extractLsb' 0 1 ++
        (0xb8 + low d).toBitVec.extractLsb' 0 3 : BitVec 4).toFin = d := by
    clear h
    revert w d
    decide +kernel
  have hwide : (rexByte w false false (high d)).toBitVec.getLsbD 3 = w := by
    cases w <;> cases high d <;> rfl
  have hop : b (rex w false false (high d)).length = 0xb8 + low d := h.right 0 Nat.one_pos
  obtain ⟨hhalf, hrex, hgroup, hrm⟩ := hfacts
  exact ⟨_, prefixes_of_starts h hhalf hrex, rfl, rfl, hwide, hop ▸ hgroup, hop ▸ hrm⟩

theorem decode_cmp {a c : Gpr} (h : Starts b (Alu.cmp.regs a c)) :
    decode b = some (.cmp a c, 3) := by
  obtain ⟨p, hp, hhalf, hlength, hwide, hop, hdirect, hdigit, hreg, hrm⟩ :=
    direct_fields h (by decide) (by decide)
  simp only [decode, hp, hhalf, hlength, hwide, hop, hdirect, hdigit, hreg, hrm]
  rfl

theorem decode_test {a c : Gpr} (h : Starts b (testRegs a c)) : decode b = some (.test a c, 3) := by
  obtain ⟨p, hp, hhalf, hlength, hwide, hop, hdirect, hdigit, hreg, hrm⟩ :=
    direct_fields h (by decide) (by decide)
  simp only [decode, hp, hhalf, hlength, hwide, hop, hdirect, hdigit, hreg, hrm]
  rfl

theorem decode_idiv {a : Gpr} (h : Starts b (idivReg a)) : decode b = some (.idiv a, 3) := by
  obtain ⟨p, hp, hhalf, hlength, hwide, hop, hdirect, hdigit, hreg, hrm⟩ :=
    direct_fields h (by decide) (by decide)
  simp only [decode, hp, hhalf, hlength, hwide, hop, hdirect, hdigit, hrm]
  rfl

theorem decode_cqo (h : Starts b cqo) : decode b = some (.cqo, 2) := by
  have hbytes : Starts b (rex true false false false ++ [0x99]) := h
  have hp : Prefixes.ofBytes b = ⟨false, 0x48, 1⟩ :=
    prefixes_of_starts hbytes (by decide) (by decide)
  have hop : b 1 = 0x99 := h 1 (by decide)
  simp only [decode, hp, hop]
  rfl

theorem toInt_setWidth_of_fits {v : Int32} (hv : fitsByte v) :
    (v.toBitVec.setWidth 8).toInt = v.toBitVec.toInt := by
  rw [fitsByte, Bool.and_eq_true, decide_eq_true_iff, decide_eq_true_iff, Int32.le_iff_toInt_le,
    Int32.le_iff_toInt_le] at hv
  have hlow : (-128 : Int) ≤ v.toBitVec.toInt := hv.1
  have hhigh : v.toBitVec.toInt ≤ (127 : Int) := hv.2
  rw [BitVec.toInt_setWidth]
  rw [BitVec.toInt_eq_toNat_cond] at hlow hhigh ⊢
  rw [Int.bmod_def]
  norm_num at hlow hhigh ⊢
  split_ifs at hlow hhigh ⊢ <;> omega

theorem signed8_of_fits {v : Int32} {k : Nat} (hv : fitsByte v) (h : b k = v.toUInt32.toUInt8) :
    signed8 b k = v.toBitVec.signExtend 64 := by
  rw [signed8, h, BitVec.signExtend, BitVec.signExtend]
  exact congrArg _ (toInt_setWidth_of_fits hv)

theorem length_direct : (direct true [op] reg rm).length = 3 := by simp [direct, rex]

theorem signed32_of_starts {code : List UInt8} {v : Int32} (h : Starts b (code ++ imm32 v)) :
    signed32 b code.length = v.toBitVec.signExtend 64 := by
  rw [signed32, Starts.word h]
  rfl

theorem decode_cmpImm {a : Gpr} {v : Int32} (h : Starts b (Alu.cmp.imm a v)) :
    decode b = some (.cmpImm a (v.toBitVec.signExtend 64), (Alu.cmp.imm a v).length) := by
  unfold Alu.imm at h ⊢
  split_ifs at h ⊢ with hv
  · obtain ⟨p, hp, hhalf, hlength, hwide, hop, hdirect, hdigit, -, hrm⟩ :=
      direct_fields h.left (by decide) (by decide)
    have himm := h.right 0 Nat.one_pos
    rw [length_direct] at himm
    have himm := signed8_of_fits hv himm
    simp only [decode, hp, hhalf, hlength, hwide, hop, hdirect, hdigit, hrm, himm]
    rfl
  · obtain ⟨p, hp, hhalf, hlength, hwide, hop, hdirect, hdigit, -, hrm⟩ :=
      direct_fields h.left (by decide) (by decide)
    have himm := signed32_of_starts h
    rw [length_direct] at himm
    simp only [decode, hp, hhalf, hlength, hwide, hop, hdirect, hdigit, hrm, himm]
    rfl

theorem decode_movImmSigned {d : Gpr} {v : Int32} (h : Starts b (movImmSigned d v)) :
    decode b = some (.mov d (v.toBitVec.signExtend 64), (movImmSigned d v).length) := by
  unfold movImmSigned at h ⊢
  obtain ⟨p, hp, hhalf, hlength, hwide, hop, hdirect, hdigit, -, hrm⟩ :=
      direct_fields h.left (by decide) (by decide)
  have himm := signed32_of_starts h
  rw [length_direct] at himm
  simp only [decode, hp, hhalf, hlength, hwide, hop, hdirect, hdigit, hrm, himm]
  rfl

theorem decode_movImm32 {d : Gpr} {v : UInt32} (h : Starts b (movImm32 d v)) :
    decode b = some (.mov d (v.toBitVec.setWidth 64), (movImm32 d v).length) := by
  obtain ⟨p, hp, hhalf, hlength, hwide, hop, hrm⟩ := opcode_fields (Starts.left h)
  have himm := Starts.word h
  rw [List.length_append, ← hlength, List.length_singleton] at himm
  simp only [decode, hp, hhalf, hwide, hop, hrm, himm, if_true, Bool.false_eq_true, if_false]
  rw [movImm32, List.length_append, List.length_append, ← hlength]
  rfl

theorem toUInt8_shiftRight (v : UInt64) {j k : Nat} (hj : j < 4) (hk : k < 2) :
    (v >>> (8 * (4 * k + j)).toUInt64).toUInt8 =
      ((v >>> (32 * k).toUInt64).toUInt32 >>> (8 * j).toUInt32).toUInt8 := by
  apply UInt8.toNat_inj.mp
  simp only [UInt64.toNat_toUInt8, UInt32.toNat_toUInt8, UInt64.toNat_shiftRight,
    UInt32.toNat_shiftRight, UInt64.toNat_toUInt32, Nat.shiftRight_eq_div_pow]
  interval_cases j <;> interval_cases k <;> norm_num [Nat.toUInt64, Nat.toUInt32] <;> omega

theorem append_halves (v : UInt64) :
    ((v >>> 32).toUInt32.toBitVec ++ v.toUInt32.toBitVec : BitVec 64) = v.toBitVec := by
  have hshift : (v >>> 32).toNat = v.toNat / 2 ^ 32 := Nat.shiftRight_eq_div_pow ..
  have hlt := v.toNat_lt
  apply BitVec.eq_of_toNat_eq
  rw [BitVec.toNat_append, UInt32.toNat_toBitVec, UInt32.toNat_toBitVec, UInt64.toNat_toUInt32,
    UInt64.toNat_toUInt32, hshift, ← Nat.shiftLeft_add_eq_or_of_lt (Nat.mod_lt _ (by decide)),
    Nat.shiftLeft_eq]
  norm_num at hlt ⊢
  omega

theorem word64At_of_starts {code : List UInt8} {v : UInt64} (h : Starts b (code ++ wordBytes v)) :
    word64At b code.length = v.toBitVec := by
  have hbyte (k j : Nat) (hj : j < 4) (hk : k < 2) : b (code.length + (4 * k + j)) =
      (bytes32 (v >>> (32 * k).toUInt64).toUInt32).getD j 0 := by
    rw [h.right _ (by rw [wordBytes, List.length_map, List.length_range]; omega), wordBytes,
      List.getD_eq_getElem _ _ (by rw [List.length_map, List.length_range]; omega), List.getElem_map,
      List.getElem_range, toUInt8_shiftRight v hj hk]
    interval_cases j <;> rfl
  have hlow : word32At b code.length = v.toUInt32 := word32At_of_bytes32 fun j hj => by
    have hj := hbyte 0 j hj (by decide)
    rw [Nat.mul_zero, Nat.zero_add] at hj
    exact hj
  have hhigh : word32At b (code.length + 4) = (v >>> 32).toUInt32 := word32At_of_bytes32 fun j hj => by
    rw [Nat.add_assoc]
    exact hbyte 1 j hj (by decide)
  rw [word64At, hlow, hhigh, append_halves]

theorem decode_movImm64 {d : Gpr} {v : Int64} (h : Starts b (movImm64 d v)) :
    decode b = some (.mov d v.toBitVec, (movImm64 d v).length) := by
  obtain ⟨p, hp, hhalf, hlength, hwide, hop, hrm⟩ := opcode_fields (Starts.left h)
  have himm := word64At_of_starts h
  rw [List.length_append, ← hlength, List.length_singleton] at himm
  simp only [decode, hp, hhalf, hwide, hop, hrm, himm, if_true, Bool.false_eq_true, if_false]
  rw [movImm64, List.length_append, List.length_append, ← hlength]
  rfl

theorem decode_ucomisd {a c : Xmm} (h : Starts b (Sse.ucomisd.regs a c)) :
    decode b = some (.ucomisd a c, (Sse.ucomisd.regs a c).length) := by
  have hbytes : Sse.ucomisd.regs a c = (0x66 :: (rex false (high a) false (high c) ++ [0x0f])) ++
      [0x2e, modrm 3 (low a) (low c)] := by
    simp [Sse.regs, sseRegs, direct]
  rw [hbytes] at h ⊢
  have hp := prefixes_of_half h.left (by decide)
  have hplace : (0x66 :: (rex false (high a) false (high c) ++ [0x0f])).length =
      1 + (rex false (high a) false (high c)).length + 1 := by
    simp [Nat.add_comm]
  have hop : b (1 + (rex false (high a) false (high c)).length) = 0x0f := by
    rw [Nat.add_comm]
    have hescape : Starts b ((0x66 :: rex false (high a) false (high c)) ++ [0x0f]) := h.left
    exact hescape.right 0 Nat.one_pos
  have hop' := h.right 0 Nat.two_pos
  have hmodrm := h.right 1 (Nat.lt_succ_self 1)
  rw [hplace, List.getD_cons_zero] at hop'
  rw [hplace, List.getD_cons_succ, List.getD_cons_zero] at hmodrm
  rw [List.length_append, hplace]
  simp only [decode, hp, hop, hop', hmodrm, isDirect_modrm, if_true, and_self]
  exact congrArg some (by rw [reg_of_rex (w := false) rfl, rm_of_rex (w := false) rfl]; rfl)

def Cond.bits (c : Cond) : BitVec 4 := c.code.toBitVec.extractLsb' 0 4

theorem decode_jumpIfShort {c : Cond} (h : b 0 = 0x70 + c.code) :
    decode b = some (.jumpIf c.bits (signed8 b 1), 2) := by
  have hfacts : 0x70 + c.code ≠ 0x66 ∧ (0x70 + c.code) >>> 4 = 7 ∧ (0x70 + c.code) >>> 3 ≠ 0x17 ∧
      (0x70 + c.code).toBitVec.extractLsb' 0 4 = c.bits := by
    cases c <;> decide
  have hp := prefixes_of_opcode h hfacts.1 (by rw [hfacts.2.1]; decide)
  simp only [decode, hp, h, hfacts, if_true, if_false, Bool.false_eq_true]
  rfl

theorem decode_jumpIfLong {c : Cond} (h : b 0 = 0x0f) (h' : b 1 = 0x80 + c.code) :
    decode b = some (.jumpIf c.bits (signed32 b 2), 6) := by
  have hfacts : (0x80 + c.code) >>> 4 = 8 ∧ (0x80 + c.code).toBitVec.extractLsb' 0 4 = c.bits := by
    cases c <;> decide
  have hp := prefixes_of_opcode h (by decide) (by decide)
  simp only [decode, hp, h, h', hfacts]
  rfl

theorem decode_jumpShort (h : b 0 = 0xeb) : decode b = some (.jump (signed8 b 1), 2) := by
  have hp := prefixes_of_opcode h (by decide) (by decide)
  simp only [decode, hp, h]
  rfl

theorem decode_jumpLong (h : b 0 = 0xe9) : decode b = some (.jump (signed32 b 1), 5) := by
  have hp := prefixes_of_opcode h (by decide) (by decide)
  simp only [decode, hp, h]
  rfl

end

end SeaNodes.X64
