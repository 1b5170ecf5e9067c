import SeaNodes.Proofs.Code.Resolved
import SeaNodes.Proofs.Hardware.Basic
import SeaNodes.Proofs.Hardware.X64

namespace SeaNodes.X64

structure StackState where
  cpu : State
  data : ByteMemory

inductive StackInstr where
  | add (d : Gpr) (imm : BitVec 64)
  | sub (d : Gpr) (imm : BitVec 64)
  | ret
deriving DecidableEq

def decodeStack (b : Nat → UInt8) : Option (StackInstr × Nat) :=
  let p := Prefixes.ofBytes b
  let o := p.length
  let m := b (o + 1)
  if p.half then none
  else if p.wide then
    if !isDirect m then none
    else if b o = 0x83 ∧ digit m = 0 then some (.add (p.rm m) (signed8 b (o + 2)), o + 3)
    else if b o = 0x83 ∧ digit m = 5 then some (.sub (p.rm m) (signed8 b (o + 2)), o + 3)
    else if b o = 0x81 ∧ digit m = 0 then some (.add (p.rm m) (signed32 b (o + 2)), o + 6)
    else if b o = 0x81 ∧ digit m = 5 then some (.sub (p.rm m) (signed32 b (o + 2)), o + 6)
    else none
  else if b o = 0xc3 then some (.ret, o + 1)
  else none

/-- The flags of a sum. -/
def addFlags (a b : BitVec 64) : Flags where
  cf := (a + b).toNat ≠ a.toNat + b.toNat
  pf := parity (a + b)
  zf := a + b = 0
  sf := (a + b).msb
  of := (a + b).toInt ≠ a.toInt + b.toInt

def execStack (s : StackState) (i : StackInstr) (n : Nat) : StackState :=
  let next := s.cpu.past n
  match i with
  | .add d imm =>
    let v := s.cpu.regs d
    { s with cpu := { next.set d (v + imm) with flags := addFlags v imm } }
  | .sub d imm =>
    let v := s.cpu.regs d
    { s with cpu := { next.set d (v - imm) with flags := subFlags v imm } }
  | .ret =>
    let top := s.cpu.regs rsp
    { s with cpu := { next.set rsp (top + 8) with rip := s.data.load top } }

def stepStack (mem : ByteMemory) (s : StackState) : Effect StackState :=
  match decode (mem.bytesAt s.cpu.rip) with
  | some (i, n) =>
    match exec s.cpu i n with
    | .next cpu => .next { s with cpu }
    | .fault => .fault
  | none =>
    match decodeStack (mem.bytesAt s.cpu.rip) with
    | some (i, n) => .next (execStack s i n)
    | none => .fault

abbrev stackCpu : StackCpu where
  State := StackState
  step := stepStack
  pc s := s.cpu.rip
  int s := cpu.int s.cpu
  float s := cpu.float s.cpu
  sp s := s.cpu.regs rsp
  data := StackState.data
  link _ := []
  returnTo s := s.data.load (s.cpu.regs rsp)

theorem step_of_decodeStack {mem : ByteMemory} {s : StackState} {i : StackInstr} {n : Nat}
    (hnone : decode (mem.bytesAt s.cpu.rip) = none)
    (h : decodeStack (mem.bytesAt s.cpu.rip) = some (i, n)) :
    stackCpu.step mem s = .next (execStack s i n) := by
  change stepStack mem s = .next (execStack s i n)
  simp only [stepStack, hnone, h]

section

variable {s : StackState} {imm : BitVec 64} {n : Nat}

theorem sp_add : stackCpu.sp (execStack s (.add rsp imm) n) = stackCpu.sp s + imm := by
  change Function.update s.cpu.regs rsp (s.cpu.regs rsp + imm) rsp = _
  rw [Function.update_self]

theorem sp_sub : stackCpu.sp (execStack s (.sub rsp imm) n) = stackCpu.sp s - imm := by
  change Function.update s.cpu.regs rsp (s.cpu.regs rsp - imm) rsp = _
  rw [Function.update_self]

theorem sp_ret : stackCpu.sp (execStack s .ret n) = stackCpu.sp s + 8 := by
  change Function.update s.cpu.regs rsp (s.cpu.regs rsp + 8) rsp = _
  rw [Function.update_self]

end

section

variable {b : Nat → UInt8} {op : Alu} {d : Gpr} {v : Int32}

theorem imm_fields (h : Starts b (op.imm d v)) : ∃ p, Prefixes.ofBytes b = p ∧ p.half = false ∧
    p.length = 1 ∧ p.wide = true ∧ isDirect (b 2) = true ∧ digit (b 2) = BitVec.ofNat 3 op.digit.val ∧
    p.rm (b 2) = d ∧ (b 1 = 0x83 ∧ signed8 b 3 = v.toBitVec.signExtend 64 ∧ (op.imm d v).length = 4 ∨
      b 1 = 0x81 ∧ signed32 b 3 = v.toBitVec.signExtend 64 ∧ (op.imm d v).length = 7) := by
  unfold Alu.imm at h ⊢
  split_ifs at h ⊢ with hv
  · obtain ⟨p, hp, hhalf, hlength, hwide, hop, hdirect, hdigit, -, hrm⟩ :=
      direct_fields h.left (by decide) (by decide)
    have himm := h.right 0 Nat.one_pos
    rw [length_direct] at himm
    exact ⟨p, hp, hhalf, hlength, hwide, hdirect, hdigit, hrm, .inl ⟨hop, signed8_of_fits hv himm, rfl⟩⟩
  · obtain ⟨p, hp, hhalf, hlength, hwide, hop, hdirect, hdigit, -, hrm⟩ :=
      direct_fields h.left (by decide) (by decide)
    have himm := signed32_of_starts h
    rw [length_direct] at himm
    exact ⟨p, hp, hhalf, hlength, hwide, hdirect, hdigit, hrm, .inr ⟨hop, himm, rfl⟩⟩

theorem decode_addImm (h : Starts b (Alu.add.imm d v)) : decode b = none ∧
    decodeStack b = some (.add d (v.toBitVec.signExtend 64), (Alu.add.imm d v).length) := by
  obtain ⟨p, hp, hhalf, hlength, hwide, hdirect, hdigit, hrm, ⟨hop, himm, hn⟩ | ⟨hop, himm, hn⟩⟩ :=
    imm_fields h
  all_goals
    simp only [decode, decodeStack, hp, hhalf, hlength, hwide, hop, hdirect, hdigit, hrm, himm, hn]
    exact ⟨rfl, rfl⟩

theorem decode_subImm (h : Starts b (Alu.sub.imm d v)) : decode b = none ∧
    decodeStack b = some (.sub d (v.toBitVec.signExtend 64), (Alu.sub.imm d v).length) := by
  obtain ⟨p, hp, hhalf, hlength, hwide, hdirect, hdigit, hrm, ⟨hop, himm, hn⟩ | ⟨hop, himm, hn⟩⟩ :=
    imm_fields h
  all_goals
    simp only [decode, decodeStack, hp, hhalf, hlength, hwide, hop, hdirect, hdigit, hrm, himm, hn]
    exact ⟨rfl, rfl⟩

theorem decode_ret (h : Starts b ret) : decode b = none ∧ decodeStack b = some (.ret, 1) := by
  have hop : b 0 = 0xc3 := h 0 Nat.one_pos
  have hp : Prefixes.ofBytes b = ⟨false, 0x40, 0⟩ :=
    prefixes_of_opcode hop (by decide) (by decide)
  simp only [decode, decodeStack, hp, hop]
  exact ⟨rfl, rfl⟩

end

theorem signExtend_size {size : UInt32} (h : size.toNat < 2 ^ 31) :
    size.toInt32.toBitVec.signExtend 64 = BitVec.ofNat 64 size.toNat := by
  have hbits : size.toInt32.toBitVec = size.toBitVec := rfl
  rw [hbits, BitVec.signExtend_eq_setWidth_of_msb_false]
  · exact BitVec.eq_of_toNat_eq (by rw [BitVec.toNat_setWidth, BitVec.toNat_ofNat]; rfl)
  · rw [BitVec.msb_eq_false_iff_two_mul_lt]
    change 2 * size.toNat < 2 ^ 32
    omega

variable {frame : Frame} {mem : ByteMemory} {s : StackState}

theorem entersBy_prologue (hsize : frame.size.toNat < 2 ^ 31) :
    stackCpu.EntersBy (bytesOf (prologue frame)) frame.size.toNat 0 := by
  intro mem s h
  unfold prologue at h ⊢
  split_ifs at h ⊢ with hzero
  · refine ⟨s, .refl, (BitVec.add_zero _).symm, ?_, rfl, fun _ _ => rfl, fun _ => rfl⟩
    rw [hzero]
    exact (BitVec.sub_zero _).symm
  · have hcode : bytesOf [{ bytes := Alu.sub.imm rsp frame.size.toInt32
                            text := "sub rsp, " ++ toString frame.size : Item }] =
        Alu.sub.imm rsp frame.size.toInt32 := List.append_nil _
    rw [hcode] at h ⊢
    obtain ⟨hnone, hsub⟩ := decode_subImm h
    refine ⟨_, .single (step_of_decodeStack hnone hsub), rfl, ?_, rfl, fun _ _ => rfl, fun _ => rfl⟩
    rw [signExtend_size hsize]
    exact sp_sub

theorem leavesBy_ret (hsize : frame.size.toNat < 2 ^ 31) {around : Surroundings}
    (hframe : around.frame = frame) (regs : OperandRegs) :
    ∃ code, expand around .ret regs = .ok (code.map .fixed) ∧
      stackCpu.LeavesBy (bytesOf code) frame.size.toNat 0 8 := by
  subst hframe
  let free : List Item := if around.frame.size = 0 then [] else
    [{ bytes := Alu.add.imm rsp around.frame.size.toInt32
       text := "add rsp, " ++ toString around.frame.size }]
  refine ⟨free ++ [{ bytes := ret, text := "ret" }], rfl, fun mem s h => ?_⟩
  rw [bytesOf_append] at h
  have hleave (s' : StackState) (hrip : mem.Holds s'.cpu.rip ret) :
      ∃ s'', stackCpu.step mem s' = .next s'' ∧ s''.cpu.rip = stackCpu.returnTo s' ∧
        stackCpu.sp s'' = stackCpu.sp s' + 8 := by
    obtain ⟨hnone, hret⟩ := decode_ret hrip
    exact ⟨_, step_of_decodeStack hnone hret, rfl, sp_ret⟩
  unfold free at h
  split_ifs at h ⊢ with hzero
  · have hret : mem.Holds s.cpu.rip ret := h
    obtain ⟨s'', hstep, hrip, hsp⟩ := hleave s hret
    refine ⟨s, s'', .refl, ⟨?_, rfl, rfl⟩, hstep, hrip, hsp⟩
    rw [hzero]
    exact (BitVec.add_zero _).symm
  · have hadd : mem.Holds s.cpu.rip (Alu.add.imm rsp around.frame.size.toInt32 ++ ret) := by
      simpa [bytesOf] using h
    obtain ⟨hnone, hdecode⟩ := decode_addImm hadd.left
    let s' := execStack s (.add rsp (around.frame.size.toInt32.toBitVec.signExtend 64))
      (Alu.add.imm rsp around.frame.size.toInt32).length
    obtain ⟨s'', hstep, hrip, hsp⟩ := hleave s' hadd.right
    refine ⟨s', s'', .single (step_of_decodeStack hnone hdecode), ⟨?_, rfl, rfl⟩, hstep, hrip, hsp⟩
    rw [← signExtend_size hsize]
    exact sp_add

end SeaNodes.X64
