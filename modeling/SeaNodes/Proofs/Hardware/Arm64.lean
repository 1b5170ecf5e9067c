import Mathlib.Logic.Function.Basic
import SeaNodes.Isa.Arm64
import SeaNodes.Proofs.Hardware.Basic

namespace SeaNodes.Arm64

structure Flags where
  n : Bool
  z : Bool
  c : Bool
  v : Bool
deriving DecidableEq

structure State where
  pc : BitVec 64
  x : BitVec 5 → BitVec 64
  d : BitVec 5 → Double
  flags : Flags

namespace State

def get (s : State) (r : BitVec 5) : BitVec 64 := if r = 31 then 0 else s.x r

def set (s : State) (r : BitVec 5) (v : BitVec 64) : State :=
  if r = 31 then s else { s with x := Function.update s.x r v }

def goto (s : State) (a : BitVec 64) : State := { s with pc := a }

variable {s : State} {r r' : BitVec 5} {v v' a a' : BitVec 64}

@[simp] theorem get_goto : (s.goto a).get r = s.get r := rfl
@[simp] theorem pc_goto : (s.goto a).pc = a := rfl
@[simp] theorem goto_goto : (s.goto a).goto a' = s.goto a' := rfl

@[simp] theorem pc_set : (s.set r v).pc = s.pc := by
  unfold set
  split_ifs <;> rfl

@[simp] theorem d_set : (s.set r v).d = s.d := by
  unfold set
  split_ifs <;> rfl

theorem set_goto : (s.goto a).set r v = (s.set r v).goto a := by
  unfold set
  split_ifs <;> rfl

@[simp] theorem get_set_self (h : r ≠ 31) : (s.set r v).get r = v := by
  rw [get, if_neg h, set, if_neg h]
  exact Function.update_self _ _ _

@[simp] theorem get_set_of_ne (h : r' ≠ r) : (s.set r v).get r' = s.get r' := by
  unfold get set
  split_ifs
  · rfl
  · rfl
  · exact Function.update_of_ne h _ _

@[simp] theorem set_set : (s.set r v).set r v' = s.set r v' := by
  unfold set
  split_ifs
  · rfl
  · rw [Function.update_idem]

end State

/-- The bits of a word that hold a register number. -/
def regOf (n : Num) : BitVec 5 := n.toBitVec.extractLsb' 0 5

theorem toNat_regOf {n : Num} (h : n.toNat < 2 ^ 5) : (regOf n).toNat = n.toNat := by
  rw [regOf, BitVec.extractLsb'_toNat, Nat.shiftRight_zero, UInt32.toNat_toBitVec, Nat.mod_eq_of_lt h]

inductive Instr where
  /-- Puts a half word at its place and zeros elsewhere. -/
  | movz (d : BitVec 5) (imm : BitVec 16) (place : BitVec 2)
  /-- The complement of `movz`. -/
  | movn (d : BitVec 5) (imm : BitVec 16) (place : BitVec 2)
  /-- Puts a half word at its place and keeps the others. -/
  | movk (d : BitVec 5) (imm : BitVec 16) (place : BitVec 2)
  | sdiv (d n m : BitVec 5)
  | subs (d n m : BitVec 5)
  | subsImm (d n : BitVec 5) (imm : BitVec 12)
  | addsImm (d n : BitVec 5) (imm : BitVec 12)
  | fcmp (n m : BitVec 5)
  | bCond (cond : BitVec 4) (words : BitVec 19)
  | b (words : BitVec 26)
deriving DecidableEq

def top (w : UInt32) : BitVec 11 := w.toBitVec.extractLsb' 21 11
def rd (w : UInt32) : BitVec 5 := w.toBitVec.extractLsb' 0 5
def rn (w : UInt32) : BitVec 5 := w.toBitVec.extractLsb' 5 5
def rm (w : UInt32) : BitVec 5 := w.toBitVec.extractLsb' 16 5
def middle (w : UInt32) : BitVec 6 := w.toBitVec.extractLsb' 10 6
def imm12Of (w : UInt32) : BitVec 12 := w.toBitVec.extractLsb' 10 12
def imm16Of (w : UInt32) : BitVec 16 := w.toBitVec.extractLsb' 5 16
def imm19Of (w : UInt32) : BitVec 19 := w.toBitVec.extractLsb' 5 19
def imm26Of (w : UInt32) : BitVec 26 := w.toBitVec.extractLsb' 0 26

def decode (w : UInt32) : Option Instr :=
  let t := top w
  if t.extractLsb' 5 6 = 0b000101 then some (.b (imm26Of w))
  else if t.extractLsb' 3 8 = 0b01010100 then
    if (rd w).getLsbD 4 then none else some (.bCond ((rd w).extractLsb' 0 4) (imm19Of w))
  else if t.extractLsb' 2 9 = 0b110100101 then some (.movz (rd w) (imm16Of w) (t.extractLsb' 0 2))
  else if t.extractLsb' 2 9 = 0b100100101 then some (.movn (rd w) (imm16Of w) (t.extractLsb' 0 2))
  else if t.extractLsb' 2 9 = 0b111100101 then some (.movk (rd w) (imm16Of w) (t.extractLsb' 0 2))
  else if t.extractLsb' 1 10 = 0b1111000100 then
    if rn w = 31 then none else some (.subsImm (rd w) (rn w) (imm12Of w))
  else if t.extractLsb' 1 10 = 0b1011000100 then
    if rn w = 31 then none else some (.addsImm (rd w) (rn w) (imm12Of w))
  else if t = 0b10011010110 then
    if middle w = 0b000011 then some (.sdiv (rd w) (rn w) (rm w)) else none
  else if t = 0b11101011000 then
    if middle w = 0 then some (.subs (rd w) (rn w) (rm w)) else none
  else if t = 0b00011110011 then
    if middle w = 0b001000 ∧ rd w = 0 then some (.fcmp (rn w) (rm w)) else none
  else none

def addWithCarry (a b : BitVec 64) (carry : Bool) : BitVec 64 × Flags :=
  let sum := a + b + BitVec.ofNat 64 carry.toNat
  (sum, {
    n := sum.msb
    z := sum = 0
    c := sum.toNat ≠ a.toNat + b.toNat + carry.toNat
    v := sum.toInt ≠ a.toInt + b.toInt + carry.toNat })

/-- The flags of a comparison of doubles. -/
def orderFlags : Option Ordering → Flags
  | some .lt => ⟨true, false, false, false⟩
  | some .eq => ⟨false, true, true, false⟩
  | some .gt => ⟨false, false, true, false⟩
  | none => ⟨false, false, true, true⟩

/-- Whether a condition holds; its lowest bit inverts it. -/
def conditionHolds (cond : BitVec 4) (f : Flags) : Bool :=
  let result :=
    if cond.extractLsb' 1 3 = 0 then f.z
    else if cond.extractLsb' 1 3 = 1 then f.c
    else if cond.extractLsb' 1 3 = 2 then f.n
    else if cond.extractLsb' 1 3 = 3 then f.v
    else if cond.extractLsb' 1 3 = 4 then f.c && !f.z
    else if cond.extractLsb' 1 3 = 5 then f.n == f.v
    else if cond.extractLsb' 1 3 = 6 then f.n == f.v && !f.z
    else true
  if cond.getLsbD 0 ∧ cond ≠ 15 then !result else result

/-- Replaces one half word. -/
def putHalf (v : BitVec 64) (imm : BitVec 16) (place : BitVec 2) : BitVec 64 :=
  let shift := 16 * place.toNat
  v &&& ~~~(0xffff#64 <<< shift) ||| imm.setWidth 64 <<< shift

/-- Rounds towards zero and wraps around. -/
def divide (a b : BitVec 64) : BitVec 64 :=
  if b = 0 then 0 else BitVec.ofInt 64 (a.toInt.tdiv b.toInt)

def exec (s : State) (i : Instr) : State :=
  let next := s.goto (s.pc + 4)
  match i with
  | .movz d imm place => next.set d (putHalf 0 imm place)
  | .movn d imm place => next.set d (~~~putHalf 0 imm place)
  | .movk d imm place => next.set d (putHalf (s.get d) imm place)
  | .sdiv d n m => next.set d (divide (s.get n) (s.get m))
  | .subs d n m =>
    let (r, flags) := addWithCarry (s.get n) (~~~s.get m) true
    { next.set d r with flags }
  | .subsImm d n imm =>
    let (r, flags) := addWithCarry (s.get n) (~~~imm.setWidth 64) true
    { next.set d r with flags }
  | .addsImm d n imm =>
    let (r, flags) := addWithCarry (s.get n) (imm.setWidth 64) false
    { next.set d r with flags }
  | .fcmp n m => { next with flags := orderFlags ((s.d n).order (s.d m)) }
  | .bCond cond words =>
    if conditionHolds cond s.flags then s.goto (s.pc + (words ++ 0#2).signExtend 64) else next
  | .b words => s.goto (s.pc + (words ++ 0#2).signExtend 64)

def step (mem : ByteMemory) (s : State) : Effect State :=
  match decode (mem.word s.pc) with
  | some i => .next (exec s i)
  | none => .fault

/-- The processor, with its registers by their numbers in the register file. -/
abbrev cpu : Cpu where
  State := State
  step := step
  pc := State.pc
  int s r := s.get (.ofNat 5 r)
  float s r := s.d (.ofNat 5 (r - floatBase))

theorem step_of_decode {mem : ByteMemory} {s : State} {i : Instr}
    (h : decode (mem.word s.pc) = some i) : cpu.step mem s = .next (exec s i) := by
  change step mem s = .next (exec s i)
  simp only [step, h]

section

variable {w imm : UInt32} {d n m : Num} {i : Nat}

theorem encode_fields (base : UInt32) (hd : d.toNat < 2 ^ 5) (hn : n.toNat < 2 ^ 5)
    (hm : m.toNat < 2 ^ 5) :
    let w := base ||| field m 16 ||| field n 5 ||| field d 0
    top w = top base ∧ middle w = middle base ∧ rd w = rd base ||| regOf d ∧
      rn w = rn base ||| regOf n ∧ rm w = rm base ||| regOf m := by
  have hd (s k : Nat) (h : 5 ≤ s) := extractLsb'_field_of_le (k := 0) (n := k) hd (by decide) h
  have hn (s k : Nat) (h : 10 ≤ s) := extractLsb'_field_of_le (k := 5) (n := k) hn (by decide) h
  have hm (s k : Nat) (h : 21 ≤ s) := extractLsb'_field_of_le (k := 16) (n := k) hm (by decide) h
  simp (disch := decide) only [top, middle, rd, rn, rm, field, extractLsb'_or_field,
    extractLsb'_field_of_ge, extractLsb'_shiftLeft, hd, hn, hm, BitVec.or_zero, regOf, and_self]

theorem decode_sdiv (hd : d.toNat < 2 ^ 5) (hn : n.toNat < 2 ^ 5) (hm : m.toNat < 2 ^ 5) :
    decode (Op3.sdiv.encode d n m) = some (.sdiv (regOf d) (regOf n) (regOf m)) := by
  obtain ⟨htop, hmiddle, hrd, hrn, hrm⟩ := encode_fields 0x9ac00c00 hd hn hm
  rw [show rd 0x9ac00c00 = 0#5 by decide, BitVec.zero_or] at hrd
  rw [show rn 0x9ac00c00 = 0#5 by decide, BitVec.zero_or] at hrn
  rw [show rm 0x9ac00c00 = 0#5 by decide, BitVec.zero_or] at hrm
  rw [decode, Op3.encode, Op3.base, htop, hmiddle, hrd, hrn, hrm]
  rfl

theorem compare_fields (base : UInt32) (hn : n.toNat < 2 ^ 5) (hm : m.toNat < 2 ^ 5) :
    let w := base ||| field m 16 ||| field n 5
    top w = top base ∧ middle w = middle base ∧ rd w = rd base ∧
      rn w = rn base ||| regOf n ∧ rm w = rm base ||| regOf m := by
  have h := encode_fields base (d := 0) (by decide) hn hm
  rwa [show field 0 0 = 0 by decide, UInt32.or_zero, show regOf 0 = 0#5 by decide,
    BitVec.or_zero] at h

theorem decode_cmp (hn : n.toNat < 2 ^ 5) (hm : m.toNat < 2 ^ 5) :
    decode (cmp n m) = some (.subs 31 (regOf n) (regOf m)) := by
  obtain ⟨htop, hmiddle, hrd, hrn, hrm⟩ := compare_fields 0xeb00001f hn hm
  rw [show rn 0xeb00001f = 0#5 by decide, BitVec.zero_or] at hrn
  rw [show rm 0xeb00001f = 0#5 by decide, BitVec.zero_or] at hrm
  rw [decode, cmp, htop, hmiddle, hrd, hrn, hrm]
  rfl

theorem decode_fcmp (hn : n.toNat < 2 ^ 5) (hm : m.toNat < 2 ^ 5) :
    decode (fcmp n m) = some (.fcmp (regOf n) (regOf m)) := by
  obtain ⟨htop, hmiddle, hrd, hrn, hrm⟩ := compare_fields 0x1e602000 hn hm
  rw [show rn 0x1e602000 = 0#5 by decide, BitVec.zero_or] at hrn
  rw [show rm 0x1e602000 = 0#5 by decide, BitVec.zero_or] at hrm
  rw [decode, fcmp, htop, hmiddle, hrd, hrn, hrm]
  rfl

theorem imm12_fields (base imm : UInt32) (hd : d.toNat < 2 ^ 5) (hn : n.toNat < 2 ^ 5) :
    let w := imm12 base imm d n
    (∀ s k, 1 ≤ s → s + k ≤ 11 → (top w).extractLsb' s k = (top base).extractLsb' s k) ∧
      rd w = rd base ||| regOf d ∧ rn w = rn base ||| regOf n ∧
      imm12Of w = imm12Of base ||| imm.toBitVec.extractLsb' 0 12 := by
  have hd (s k : Nat) (h : 5 ≤ s) := extractLsb'_field_of_le (k := 0) (n := k) hd (by decide) h
  have hn (s k : Nat) (h : 10 ≤ s) := extractLsb'_field_of_le (k := 5) (n := k) hn (by decide) h
  have himm (s k : Nat) (h : 22 ≤ s) := extractLsb'_field_of_le (k := 10) (n := k)
    (toNat_and_lt (w := imm) (show (0xfff : UInt32).toNat < 2 ^ 12 by decide)) (by decide) h
  constructor
  · intro s k hs hk
    rw [top, top, extractLsb'_extractLsb' _ _ hk, extractLsb'_extractLsb' _ _ hk, imm12,
      extractLsb'_or_field, extractLsb'_or_field, extractLsb'_or_field, himm _ _ (by omega), field,
      field, hn _ _ (by omega), hd _ _ (by omega), BitVec.or_zero, BitVec.or_zero, BitVec.or_zero]
  · simp (disch := decide) only [imm12, rd, rn, imm12Of, field, extractLsb'_or_field,
      extractLsb'_field_of_ge, extractLsb'_shiftLeft, extractLsb'_and_mask, hd, hn, BitVec.or_zero,
      regOf, and_self]

theorem decode_cmpImm (hn : n.toNat < 2 ^ 5) (hsp : regOf n ≠ 31) :
    decode (cmpImm n imm) = some (.subsImm 31 (regOf n) (imm.toBitVec.extractLsb' 0 12)) := by
  obtain ⟨htop, hrd, hrn, himm⟩ := imm12_fields 0xf1000000 imm (d := zr) (by decide) hn
  rw [show rn 0xf1000000 = 0#5 by decide, BitVec.zero_or] at hrn
  rw [show imm12Of 0xf1000000 = 0#12 by decide, BitVec.zero_or] at himm
  rw [decode, cmpImm, hrd, hrn, himm, htop 5 6 (by decide) (by decide),
    htop 3 8 (by decide) (by decide), htop 2 9 (by decide) (by decide),
    htop 1 10 (by decide) (by decide), if_neg hsp]
  rfl

theorem decode_cmnImm (hn : n.toNat < 2 ^ 5) (hsp : regOf n ≠ 31) :
    decode (cmnImm n imm) = some (.addsImm 31 (regOf n) (imm.toBitVec.extractLsb' 0 12)) := by
  obtain ⟨htop, hrd, hrn, himm⟩ := imm12_fields 0xb1000000 imm (d := zr) (by decide) hn
  rw [show rn 0xb1000000 = 0#5 by decide, BitVec.zero_or] at hrn
  rw [show imm12Of 0xb1000000 = 0#12 by decide, BitVec.zero_or] at himm
  rw [decode, cmnImm, hrd, hrn, himm, htop 5 6 (by decide) (by decide),
    htop 3 8 (by decide) (by decide), htop 2 9 (by decide) (by decide),
    htop 1 10 (by decide) (by decide), if_neg hsp, if_neg hsp]
  rfl

theorem movHalf_fields (base imm : UInt32) (hd : d.toNat < 2 ^ 5) :
    let w := movHalf base d imm i
    top w = top base ||| (i.toUInt32 &&& 3).toBitVec.extractLsb' 0 11 ∧ rd w = rd base ||| regOf d ∧
      imm16Of w = imm16Of base ||| imm.toBitVec.extractLsb' 0 16 := by
  have hd (s k : Nat) (h : 5 ≤ s) := extractLsb'_field_of_le (k := 0) (n := k) hd (by decide) h
  have himm (s k : Nat) (h : 21 ≤ s) := extractLsb'_field_of_le (k := 5) (n := k)
    (toNat_and_lt (w := imm) (show (0xffff : UInt32).toNat < 2 ^ 16 by decide)) (by decide) h
  simp (disch := decide) only [movHalf, top, rd, imm16Of, field, extractLsb'_or_field,
    extractLsb'_field_of_ge, extractLsb'_shiftLeft, extractLsb'_and_mask, hd, himm, BitVec.or_zero,
    regOf, and_self]

theorem decode_movz (hd : d.toNat < 2 ^ 5) (hi : i < 4) :
    decode (movHalf 0xd2800000 d imm i) =
      some (.movz (regOf d) (imm.toBitVec.extractLsb' 0 16) (.ofNat 2 i)) := by
  obtain ⟨htop, hrd, himm⟩ := movHalf_fields 0xd2800000 imm (i := i) hd
  rw [show rd 0xd2800000 = 0#5 by decide, BitVec.zero_or] at hrd
  rw [show imm16Of 0xd2800000 = 0#16 by decide, BitVec.zero_or] at himm
  rw [decode, htop, hrd, himm]
  interval_cases i <;> rfl

theorem decode_movn (hd : d.toNat < 2 ^ 5) (hi : i < 4) :
    decode (movHalf 0x92800000 d imm i) =
      some (.movn (regOf d) (imm.toBitVec.extractLsb' 0 16) (.ofNat 2 i)) := by
  obtain ⟨htop, hrd, himm⟩ := movHalf_fields 0x92800000 imm (i := i) hd
  rw [show rd 0x92800000 = 0#5 by decide, BitVec.zero_or] at hrd
  rw [show imm16Of 0x92800000 = 0#16 by decide, BitVec.zero_or] at himm
  rw [decode, htop, hrd, himm]
  interval_cases i <;> rfl

theorem decode_movk (hd : d.toNat < 2 ^ 5) (hi : i < 4) :
    decode (movHalf 0xf2800000 d imm i) =
      some (.movk (regOf d) (imm.toBitVec.extractLsb' 0 16) (.ofNat 2 i)) := by
  obtain ⟨htop, hrd, himm⟩ := movHalf_fields 0xf2800000 imm (i := i) hd
  rw [show rd 0xf2800000 = 0#5 by decide, BitVec.zero_or] at hrd
  rw [show imm16Of 0xf2800000 = 0#16 by decide, BitVec.zero_or] at himm
  rw [decode, htop, hrd, himm]
  interval_cases i <;> rfl

end

end SeaNodes.Arm64
