import Mathlib.Logic.Function.Basic
import SeaNodes.Isa.RiscV
import SeaNodes.Proofs.Hardware.Basic

namespace SeaNodes.RiscV

structure State where
  pc : BitVec 64
  x : BitVec 5 → BitVec 64
  f : BitVec 5 → Double

namespace State

def get (s : State) (r : BitVec 5) : BitVec 64 := if r = 0 then 0 else s.x r

def set (s : State) (r : BitVec 5) (v : BitVec 64) : State :=
  if r = 0 then s else { s with x := Function.update s.x r v }

def goto (s : State) (a : BitVec 64) : State := { s with pc := a }

variable {s : State} {r r' : BitVec 5} {v v' a a' : BitVec 64}

@[simp] theorem get_goto : (s.goto a).get r = s.get r := rfl
@[simp] theorem pc_goto : (s.goto a).pc = a := rfl
@[simp] theorem f_goto : (s.goto a).f = s.f := rfl
@[simp] theorem goto_goto : (s.goto a).goto a' = s.goto a' := rfl

@[simp] theorem get_zero : s.get 0 = 0 := if_pos rfl

@[simp] theorem pc_set : (s.set r v).pc = s.pc := by
  unfold set
  split_ifs <;> rfl

@[simp] theorem f_set : (s.set r v).f = s.f := by
  unfold set
  split_ifs <;> rfl

theorem set_goto : (s.goto a).set r v = (s.set r v).goto a := by
  unfold set
  split_ifs <;> rfl

@[simp] theorem get_set_self (h : r ≠ 0) : (s.set r v).get r = v := by
  rw [get, if_neg h, set, if_neg h]
  exact Function.update_self _ _ _

@[simp] theorem get_set_of_ne (h : r' ≠ r) : (s.set r v).get r' = s.get r' := by
  unfold get set
  split_ifs
  · rfl
  · rfl
  · exact Function.update_of_ne h _ _

@[simp] theorem set_set : (s.set r v).set r v' = s.set r v' := by
  unfold set
  split_ifs
  · rfl
  · rw [Function.update_idem]

end State

/-- The bits of a word that hold a register number. -/
def regOf (n : Num) : BitVec 5 := n.toBitVec.extractLsb' 0 5

theorem toNat_regOf {n : Num} (h : n.toNat < 2 ^ 5) : (regOf n).toNat = n.toNat := by
  rw [regOf, BitVec.extractLsb'_toNat, Nat.shiftRight_zero, UInt32.toNat_toBitVec, Nat.mod_eq_of_lt h]

def opcode (w : UInt32) : BitVec 7 := w.toBitVec.extractLsb' 0 7
def rd (w : UInt32) : BitVec 5 := w.toBitVec.extractLsb' 7 5
def funct3 (w : UInt32) : BitVec 3 := w.toBitVec.extractLsb' 12 3
def rs1 (w : UInt32) : BitVec 5 := w.toBitVec.extractLsb' 15 5
def rs2 (w : UInt32) : BitVec 5 := w.toBitVec.extractLsb' 20 5
def funct7 (w : UInt32) : BitVec 7 := w.toBitVec.extractLsb' 25 7
def immI (w : UInt32) : BitVec 12 := w.toBitVec.extractLsb' 20 12
def immU (w : UInt32) : BitVec 20 := w.toBitVec.extractLsb' 12 20

def immB (w : UInt32) : BitVec 13 :=
  let w := w.toBitVec
  w.extractLsb' 31 1 ++ w.extractLsb' 7 1 ++ w.extractLsb' 25 6 ++ w.extractLsb' 8 4 ++ 0#1

def immJ (w : UInt32) : BitVec 21 :=
  let w := w.toBitVec
  w.extractLsb' 31 1 ++ w.extractLsb' 12 8 ++ w.extractLsb' 20 1 ++ w.extractLsb' 21 10 ++ 0#1

inductive Instr where
  | addi (d a : BitVec 5) (imm : BitVec 12)
  /-- On 32 bits, whose sign is extended. -/
  | addiw (d a : BitVec 5) (imm : BitVec 12)
  | slli (d a : BitVec 5) (count : BitVec 6)
  | lui (d : BitVec 5) (imm : BitVec 20)
  | auipc (d : BitVec 5) (imm : BitVec 20)
  | jal (d : BitVec 5) (offset : BitVec 21)
  | jalr (d a : BitVec 5) (imm : BitVec 12)
  | branch (test : BitVec 3) (a b : BitVec 5) (offset : BitVec 13)
  | div (d a b : BitVec 5)
  /-- Compares two doubles. -/
  | compare (test : BitVec 3) (d a b : BitVec 5)
deriving DecidableEq

def decode (w : UInt32) : Option Instr :=
  if opcode w = 0x13 then
    if funct3 w = 0 then some (.addi (rd w) (rs1 w) (immI w))
    else if funct3 w = 1 ∧ (immI w).extractLsb' 6 6 = 0 then
      some (.slli (rd w) (rs1 w) ((immI w).extractLsb' 0 6))
    else none
  else if opcode w = 0x1b then
    if funct3 w = 0 then some (.addiw (rd w) (rs1 w) (immI w)) else none
  else if opcode w = 0x37 then some (.lui (rd w) (immU w))
  else if opcode w = 0x17 then some (.auipc (rd w) (immU w))
  else if opcode w = 0x6f then some (.jal (rd w) (immJ w))
  else if opcode w = 0x67 then
    if funct3 w = 0 then some (.jalr (rd w) (rs1 w) (immI w)) else none
  else if opcode w = 0x63 then
    if funct3 w = 2 ∨ funct3 w = 3 then none
    else some (.branch (funct3 w) (rs1 w) (rs2 w) (immB w))
  else if opcode w = 0x33 then
    if funct3 w = 4 ∧ funct7 w = 1 then some (.div (rd w) (rs1 w) (rs2 w)) else none
  else if opcode w = 0x53 then
    if funct3 w < 3 ∧ funct7 w = 0x51 then some (.compare (funct3 w) (rd w) (rs1 w) (rs2 w))
    else none
  else none

/-- Whether a branch is taken. -/
def isTaken (test : BitVec 3) (a b : BitVec 64) : Bool :=
  if test = 0 then a = b
  else if test = 1 then a ≠ b
  else if test = 4 then a.toInt < b.toInt
  else if test = 5 then b.toInt ≤ a.toInt
  else if test = 6 then a.toNat < b.toNat
  else b.toNat ≤ a.toNat

/-- What a comparison of doubles gives, which is false on a NaN. -/
def isOrdered (test : BitVec 3) (a b : Double) : Bool :=
  if test = 2 then a.order b == some .eq
  else if test = 1 then a.order b == some .lt
  else (a.order b).any (·.isLE)

/-- Rounds towards zero and wraps around. -/
def divide (a b : BitVec 64) : BitVec 64 :=
  if b = 0 then BitVec.allOnes 64 else BitVec.ofInt 64 (a.toInt.tdiv b.toInt)

def exec (s : State) (i : Instr) : State :=
  let next := s.goto (s.pc + 4)
  match i with
  | .addi d a imm => next.set d (s.get a + imm.signExtend 64)
  | .addiw d a imm => next.set d (((s.get a).setWidth 32 + imm.signExtend 32).signExtend 64)
  | .slli d a count => next.set d (s.get a <<< count.toNat)
  | .lui d imm => next.set d ((imm ++ 0#12).signExtend 64)
  | .auipc d imm => next.set d (s.pc + (imm ++ 0#12).signExtend 64)
  | .jal d offset => (s.set d (s.pc + 4)).goto (s.pc + offset.signExtend 64)
  | .jalr d a imm => (s.set d (s.pc + 4)).goto ((s.get a + imm.signExtend 64) &&& ~~~1)
  | .branch test a b offset =>
    if isTaken test (s.get a) (s.get b) then s.goto (s.pc + offset.signExtend 64) else next
  | .div d a b => next.set d (divide (s.get a) (s.get b))
  | .compare test d a b => next.set d (if isOrdered test (s.f a) (s.f b) then 1 else 0)

def step (mem : ByteMemory) (s : State) : Effect State :=
  match decode (mem.word s.pc) with
  | some i => .next (exec s i)
  | none => .fault

/-- The processor, with its registers by their numbers in the register file. -/
abbrev cpu : Cpu where
  State := State
  step := step
  pc := State.pc
  int s r := s.get (.ofNat 5 r)
  float s r := s.f (.ofNat 5 (r - floatBase))

theorem step_of_decode {mem : ByteMemory} {s : State} {i : Instr}
    (h : decode (mem.word s.pc) = some i) : cpu.step mem s = .next (exec s i) := by
  change step mem s = .next (exec s i)
  simp only [step, h]

theorem fits12_iff {v : Int} : fits12 v ↔ -2 ^ 11 ≤ v ∧ v < 2 ^ 11 := by
  rw [fits12, Bool.and_eq_true, decide_eq_true_iff, decide_eq_true_iff]
  omega

section

variable {w imm : UInt32} {d a b : Num} {v : Int} {c : Cond}

theorem rType_fields (top funct op : UInt32) (hfunct : funct.toNat < 2 ^ 3) (hop : op.toNat < 2 ^ 7)
    (hd : d.toNat < 2 ^ 5) (ha : a.toNat < 2 ^ 5) (hb : b.toNat < 2 ^ 5) :
    let w := rType top funct op d a b
    opcode w = op.toBitVec.extractLsb' 0 7 ∧ rd w = regOf d ∧
      funct3 w = funct.toBitVec.extractLsb' 0 3 ∧ rs1 w = regOf a ∧ rs2 w = regOf b ∧
      funct7 w = top.toBitVec.extractLsb' 0 7 := by
  have hop (s n : Nat) (h : 7 ≤ s) := extractLsb'_of_lt (n := n) hop h
  have hd (s n : Nat) (h : 12 ≤ s) := extractLsb'_field_of_le (k := 7) (n := n) hd (by decide) h
  have hfunct (s n : Nat) (h : 15 ≤ s) :=
    extractLsb'_field_of_le (k := 12) (n := n) hfunct (by decide) h
  have ha (s n : Nat) (h : 20 ≤ s) := extractLsb'_field_of_le (k := 15) (n := n) ha (by decide) h
  have hb (s n : Nat) (h : 25 ≤ s) := extractLsb'_field_of_le (k := 20) (n := n) hb (by decide) h
  simp (disch := decide) only [opcode, rd, funct3, rs1, rs2, funct7, rType, field,
    extractLsb'_or_field, extractLsb'_field_of_ge, extractLsb'_shiftLeft, hop, hd, hfunct, ha, hb,
    BitVec.or_zero, BitVec.zero_or, regOf, and_self]

theorem iType_fields (funct op : UInt32) (v : Int) (hfunct : funct.toNat < 2 ^ 3) (hop : op.toNat < 2 ^ 7)
    (hd : d.toNat < 2 ^ 5) (ha : a.toNat < 2 ^ 5) :
    let w := iType funct op d a v
    opcode w = op.toBitVec.extractLsb' 0 7 ∧ rd w = regOf d ∧
      funct3 w = funct.toBitVec.extractLsb' 0 3 ∧ rs1 w = regOf a ∧
      immI w = BitVec.ofInt 12 v := by
  have hop (s n : Nat) (h : 7 ≤ s) := extractLsb'_of_lt (n := n) hop h
  have hd (s n : Nat) (h : 12 ≤ s) := extractLsb'_field_of_le (k := 7) (n := n) hd (by decide) h
  have hfunct (s n : Nat) (h : 15 ≤ s) :=
    extractLsb'_field_of_le (k := 12) (n := n) hfunct (by decide) h
  have ha (s n : Nat) (h : 20 ≤ s) := extractLsb'_field_of_le (k := 15) (n := n) ha (by decide) h
  simp (disch := decide) only [opcode, rd, funct3, rs1, immI, iType, field,
    extractLsb'_or_field, extractLsb'_field_of_ge, extractLsb'_shiftLeft, extractLsb'_and_mask,
    extractLsb'_word32, hop, hd, hfunct, ha, BitVec.or_zero, BitVec.zero_or, regOf, and_self]

theorem lui_fields (imm : UInt32) (hd : d.toNat < 2 ^ 5) :
    opcode (lui d imm) = 0x37 ∧ rd (lui d imm) = regOf d ∧
      immU (lui d imm) = imm.toBitVec.extractLsb' 0 20 := by
  have hop (s n : Nat) (h : 7 ≤ s) : (0x37 : UInt32).toBitVec.extractLsb' s n = 0#n :=
    extractLsb'_of_lt (m := 7) (by decide) h
  have hd (s n : Nat) (h : 12 ≤ s) := extractLsb'_field_of_le (k := 7) (n := n) hd (by decide) h
  simp (disch := decide) only [opcode, rd, immU, lui, field, extractLsb'_or_field,
    extractLsb'_field_of_ge, extractLsb'_shiftLeft, extractLsb'_and_mask, hop, hd,
    BitVec.or_zero, BitVec.zero_or, regOf]
  decide

theorem branchBits_around (x : UInt32) :
    let w := (RelocKind.branchBits x).toBitVec
    w.extractLsb' 0 7 = 0#7 ∧ w.extractLsb' 12 3 = 0#3 ∧ w.extractLsb' 15 5 = 0#5 ∧
      w.extractLsb' 20 5 = 0#5 := by
  have hbit (x : UInt32) (s n : Nat) (h : 8 ≤ s) :=
    extractLsb'_field_of_le (k := 7) (n := n)
      (toNat_and_lt (w := x) (show (1 : UInt32).toNat < 2 ^ 1 by decide)) (by decide) h
  have hlow (x : UInt32) (s n : Nat) (h : 12 ≤ s) :=
    extractLsb'_field_of_le (k := 8) (n := n)
      (toNat_and_lt (w := x) (show (0xf : UInt32).toNat < 2 ^ 4 by decide)) (by decide) h
  simp (disch := decide) only [RelocKind.branchBits, extractLsb'_or_field,
    extractLsb'_field_of_ge, hbit, hlow, BitVec.or_zero, and_self]

theorem branch_fields (ha : a.toNat < 2 ^ 5) (hb : b.toNat < 2 ^ 5) :
    let w := branch c a b v
    opcode w = 0x63 ∧ funct3 w = c.funct3.toBitVec.extractLsb' 0 3 ∧ rs1 w = regOf a ∧
      rs2 w = regOf b ∧ (v % 2 = 0 → immB w = BitVec.ofInt 13 v) := by
  have hop (s n : Nat) (h : 7 ≤ s) : (0x63 : UInt32).toBitVec.extractLsb' s n = 0#n :=
    extractLsb'_of_lt (m := 7) (by decide) h
  have hfunct (s n : Nat) (h : 15 ≤ s) : (c.funct3 <<< 12).toBitVec.extractLsb' s n = 0#n :=
    extractLsb'_field_of_le (m := 3) (by cases c <;> decide) (by decide) h
  have ha (s n : Nat) (h : 20 ≤ s) := extractLsb'_field_of_le (k := 15) (n := n) ha (by decide) h
  have hb (s n : Nat) (h : 25 ≤ s) := extractLsb'_field_of_le (k := 20) (n := n) hb (by decide) h
  obtain ⟨hopcode, hfunct3, hrs1, hrs2⟩ := branchBits_around (word32 v)
  simp (disch := decide) only [opcode, funct3, rs1, rs2, immB, branch, field,
    extractLsb'_or_field, extractLsb'_field_of_ge, extractLsb'_shiftLeft, hop, hfunct, ha, hb,
    hopcode, hfunct3, hrs1, hrs2, BitVec.or_zero, BitVec.zero_or, regOf, true_and]
  refine ⟨by decide, fun heven => ?_⟩
  exact (branchBits_spec (getLsbD_zero_word32 heven)).trans (extractLsb'_word32 (by decide) v)

theorem decode_addi (hd : d.toNat < 2 ^ 5) (ha : a.toNat < 2 ^ 5) :
    decode (OpImm.addi.encode d a v) = some (.addi (regOf d) (regOf a) (BitVec.ofInt 12 v)) := by
  obtain ⟨hop, hrd, hfunct, hrs, himm⟩ := iType_fields 0 0x13 v (by decide) (by decide) hd ha
  rw [decode, OpImm.encode, hop, hrd, hfunct, hrs, himm]
  rfl

theorem decode_addiw (hd : d.toNat < 2 ^ 5) (ha : a.toNat < 2 ^ 5) :
    decode (OpImm.addiw.encode d a v) = some (.addiw (regOf d) (regOf a) (BitVec.ofInt 12 v)) := by
  obtain ⟨hop, hrd, hfunct, hrs, himm⟩ := iType_fields 0 0x1b v (by decide) (by decide) hd ha
  rw [decode, OpImm.encode, hop, hrd, hfunct, hrs, himm]
  rfl

theorem decode_slli {n : Nat} (hd : d.toNat < 2 ^ 5) (ha : a.toNat < 2 ^ 5) (hn : n < 64) :
    decode (OpImm.slli.encode d a n) = some (.slli (regOf d) (regOf a) (BitVec.ofNat 6 n)) := by
  obtain ⟨hop, hrd, hfunct, hrs, himm⟩ := iType_fields 1 0x13 ((n : Int) % 64) (by decide) (by decide) hd ha
  have hhigh : (BitVec.ofInt 12 ((n : Int) % 64)).extractLsb' 6 6 = 0 := by
    apply BitVec.eq_of_toNat_eq
    rw [BitVec.extractLsb'_toNat, BitVec.toNat_ofInt, Nat.shiftRight_eq_div_pow, BitVec.ofNat_eq_ofNat,
      BitVec.toNat_ofNat]
    norm_num
    omega
  have hlow : (BitVec.ofInt 12 ((n : Int) % 64)).extractLsb' 0 6 = BitVec.ofNat 6 n := by
    apply BitVec.eq_of_toNat_eq
    rw [BitVec.extractLsb'_toNat, BitVec.toNat_ofInt, BitVec.toNat_ofNat]
    norm_num
    omega
  rw [decode, OpImm.encode, hop, hrd, hfunct, hrs, himm, hlow]
  exact (if_pos rfl).trans ((if_neg (by decide)).trans (if_pos ⟨rfl, hhigh⟩))

theorem decode_lui (hd : d.toNat < 2 ^ 5) :
    decode (lui d imm) = some (.lui (regOf d) (imm.toBitVec.extractLsb' 0 20)) := by
  obtain ⟨hop, hrd, himm⟩ := lui_fields imm hd
  rw [decode, hop, hrd, himm]
  rfl

theorem decode_div (hd : d.toNat < 2 ^ 5) (ha : a.toNat < 2 ^ 5) (hb : b.toNat < 2 ^ 5) :
    decode (Op3.div.encode d a b) = some (.div (regOf d) (regOf a) (regOf b)) := by
  obtain ⟨hop, hrd, hfunct, hrs1, hrs2, htop⟩ := rType_fields 1 4 0x33 (by decide) (by decide) hd ha hb
  rw [decode, Op3.encode, hop, hrd, hfunct, hrs1, hrs2, htop]
  rfl

end

end SeaNodes.RiscV
