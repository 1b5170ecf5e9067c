import Mathlib.Tactic.IntervalCases
import SeaNodes.Compile
import SeaNodes.Isa.Arm64
import SeaNodes.Isa.RiscV
import SeaNodes.Isa.X64
import SeaNodes.Proofs.Hardware.Arm64Stack
import SeaNodes.Proofs.Hardware.RiscVStack
import SeaNodes.Proofs.Hardware.X64Stack

namespace SeaNodes

/-- The least multiple of 16 that is not less. -/
def roundUp16 (n : Nat) : Nat := (n + 15) / 16 * 16

theorem le_roundUp16 (n : Nat) : n ≤ roundUp16 n := by
  unfold roundUp16
  omega

theorem and_not_fifteen (x : BitVec 32) : x &&& ~~~15#32 = x >>> 4 <<< 4 := by
  apply BitVec.eq_of_getLsbD_eq
  intro i hi
  interval_cases i <;> simp

theorem Frame.toNat_align16 {n : UInt32} (h : n.toNat + 15 < 2 ^ 32) :
    (align16 n).toNat = roundUp16 n.toNat := by
  have hadd : (n + 15).toNat = n.toNat + 15 := by
    rw [UInt32.toNat_add]
    exact Nat.mod_eq_of_lt h
  have hbits : (align16 n).toBitVec = (n + 15).toBitVec >>> 4 <<< 4 := by
    rw [align16, UInt32.toBitVec_and, UInt32.toBitVec_not]
    exact and_not_fifteen _
  rw [← UInt32.toNat_toBitVec, hbits, BitVec.toNat_shiftLeft, BitVec.toNat_ushiftRight,
    UInt32.toNat_toBitVec, hadd, Nat.shiftRight_eq_div_pow, Nat.shiftLeft_eq, roundUp16]
  omega

theorem Frame.body?_eq (slots rest : UInt32) (h : 8 * slots.toNat + rest.toNat < 2 ^ 32) :
    ∃ body : UInt32, body? slots rest = some body ∧
      body.toNat = 8 * slots.toNat + rest.toNat := by
  refine ⟨(8 * slots.toNat + rest.toNat).toUInt32, if_pos h, ?_⟩
  exact UInt32.toNat_ofNat_of_lt' h

namespace Arch

/-- The bytes at the top of a frame that keep the link of a function with calls. -/
def linkBytes : Arch → Nat
  | .x64 => 0
  | .arm64 => 16
  | .riscv64 => 8

/-- The bytes that a call pushes. -/
def pushedBytes : Arch → Nat
  | .x64 => 8
  | .arm64 | .riscv64 => 0

/-- The exact number of bytes that a frame is limited by. -/
def limitedBytes (arch : Arch) (slots outgoing : Nat) (calls : Bool) : Nat :=
  match arch with
  | .x64 => 8 * slots + outgoing
  | .arm64 => roundUp16 (8 * slots + outgoing)
  | .riscv64 => roundUp16 (8 * slots + outgoing + if calls then 8 else 0)

def frameLimit : Arch → Nat
  | .x64 => 0x3fffffff
  | .arm64 => 0x1000000
  | .riscv64 => 0x40000000

/-- The size of a frame. On x86-64 the return address above it counts for the alignment. -/
def frameBytes (arch : Arch) (slots outgoing : Nat) (calls : Bool) : Nat :=
  match arch with
  | .x64 => if !calls && slots == 0 then 0 else roundUp16 (8 * slots + outgoing + 8) - 8
  | .arm64 => roundUp16 (8 * slots + outgoing) + if calls then 16 else 0
  | .riscv64 => roundUp16 (8 * slots + outgoing + if calls then 8 else 0)

theorem le_frameBytes (arch : Arch) (slots outgoing : Nat) (calls : Bool) :
    8 * slots + (if calls then outgoing + arch.linkBytes else 0) ≤
      arch.frameBytes slots outgoing calls := by
  cases arch <;> cases calls <;>
    simp only [frameBytes, linkBytes, roundUp16, Bool.not_true, Bool.not_false, Bool.false_and,
      Bool.true_and, Bool.false_eq_true, if_true, if_false, beq_iff_eq]
  case x64.false => split_ifs <;> omega
  all_goals omega

end Arch

/-- The frame of a function, without wrapping around. -/
structure Frame.Exact (arch : Arch) (slots outgoing : UInt32) (calls : Bool) (f : Frame) : Prop where
  size : f.size.toNat = arch.frameBytes slots.toNat outgoing.toNat calls
  spillBase : f.spillBase = outgoing
  incoming : f.incoming.toNat = f.size.toNat + arch.pushedBytes
  savesLink : f.savesLink = (calls && arch.linkBytes != 0)

section

variable {slots outgoing : UInt32} {calls : Bool}

theorem UInt32.toNat_add_of_lt {a b : UInt32} (h : a.toNat + b.toNat < 2 ^ 32) :
    (a + b).toNat = a.toNat + b.toNat := by
  rw [UInt32.toNat_add, Nat.mod_eq_of_lt h]

theorem X64.toNat_size {body : UInt32} (h : body < 0x3fffffff) :
    (body + 8).toNat = body.toNat + 8 ∧ 8 ≤ Frame.align16 (body + 8) ∧
      (Frame.align16 (body + 8) - 8).toNat = roundUp16 (body.toNat + 8) - 8 := by
  have hnat : body.toNat < 0x3fffffff := UInt32.lt_iff_toNat_lt.mp h
  have hadd : (body + 8).toNat = body.toNat + 8 :=
    UInt32.toNat_add_of_lt (by change body.toNat + 8 < _; omega)
  have halign := Frame.toNat_align16 (n := body + 8) (by omega)
  have hround := le_roundUp16 (body.toNat + 8)
  rw [hadd] at halign
  have hle : 8 ≤ Frame.align16 (body + 8) := by
    rw [UInt32.le_iff_toNat_le, halign]
    change 8 ≤ _
    omega
  refine ⟨hadd, hle, ?_⟩
  rw [UInt32.toNat_sub_of_le _ _ hle, halign]
  rfl

theorem X64.exists_frame (hleaf : !calls → slots = 0 → outgoing = 0)
    (hlimit : Arch.limitedBytes .x64 slots.toNat outgoing.toNat calls < Arch.frameLimit .x64) :
    ∃ f, frame? slots outgoing calls = some f ∧ f.Exact .x64 slots outgoing calls := by
  change 8 * slots.toNat + outgoing.toNat < 0x3fffffff at hlimit
  unfold frame?
  split_ifs with hnone
  · rw [Bool.and_eq_true, beq_iff_eq] at hnone
    obtain ⟨hcalls, rfl⟩ := hnone
    refine ⟨_, rfl, ?_, (hleaf hcalls rfl).symm, rfl, by simp [Arch.linkBytes]⟩
    simp [Arch.frameBytes, hcalls]
  · obtain ⟨body, hbody, hnat⟩ := Frame.body?_eq slots outgoing (by omega)
    have hlt : body < 0x3fffffff := by
      rw [UInt32.lt_iff_toNat_lt, hnat]
      exact hlimit
    obtain ⟨-, -, hsize⟩ := toNat_size hlt
    refine ⟨⟨Frame.align16 (body + 8) - 8, outgoing, Frame.align16 (body + 8) - 8 + 8, false⟩,
      by simp [hbody, hlt, guard], ?_, rfl, ?_, by simp [Arch.linkBytes]⟩
    · have hframe : (!calls && slots.toNat == 0) = false := by
        rw [Bool.eq_false_iff]
        exact fun h => hnone (by simpa [← UInt32.toNat_inj] using h)
      rw [Arch.frameBytes, hframe, hsize, hnat]
      rfl
    · apply UInt32.toNat_add_of_lt
      rw [hsize]
      change roundUp16 (body.toNat + 8) - 8 + 8 < 2 ^ 32
      unfold roundUp16
      omega

theorem Arm64.exists_frame
    (hlimit : Arch.limitedBytes .arm64 slots.toNat outgoing.toNat calls < Arch.frameLimit .arm64) :
    ∃ f, frame? slots outgoing calls = some f ∧ f.Exact .arm64 slots outgoing calls := by
  change roundUp16 (8 * slots.toNat + outgoing.toNat) < 0x1000000 at hlimit
  have hround := le_roundUp16 (8 * slots.toNat + outgoing.toNat)
  obtain ⟨n, hn, hnat⟩ := Frame.body?_eq slots outgoing (by omega)
  have halign := Frame.toNat_align16 (n := n) (by omega)
  rw [hnat] at halign
  have hlt : Frame.align16 n < 0x1000000 := by
    rw [UInt32.lt_iff_toNat_lt, halign]
    exact hlimit
  let size := if calls then Frame.align16 n + 16 else Frame.align16 n
  have hsize : size.toNat = Arch.frameBytes .arm64 slots.toNat outgoing.toNat calls := by
    change _ = roundUp16 _ + if calls then 16 else 0
    unfold size
    split_ifs
    · rw [UInt32.toNat_add_of_lt, halign]
      · rfl
      · rw [halign]
        change _ + 16 < 2 ^ 32
        omega
    · rw [halign, Nat.add_zero]
  refine ⟨⟨size, outgoing, size, calls⟩, ?_, hsize, rfl, rfl, (Bool.and_true calls).symm⟩
  simp [frame?, hn, hlt, guard, size]

theorem RiscV.toNat_rest (h : outgoing.toNat + (if calls then 8 else 0) < 2 ^ 32) :
    (outgoing + if calls then 8 else 0).toNat = outgoing.toNat + if calls then 8 else 0 := by
  cases calls with
  | false => exact UInt32.toNat_add_of_lt h
  | true => exact UInt32.toNat_add_of_lt h

theorem RiscV.exists_frame (hlimit : Arch.limitedBytes .riscv64 slots.toNat outgoing.toNat calls <
      Arch.frameLimit .riscv64) :
    ∃ f, frame? slots outgoing calls = some f ∧ f.Exact .riscv64 slots outgoing calls := by
  change roundUp16 (8 * slots.toNat + outgoing.toNat + if calls then 8 else 0) < 0x40000000 at hlimit
  have hround := le_roundUp16 (8 * slots.toNat + outgoing.toNat + if calls then 8 else 0)
  have hlink : outgoing.toNat + (if calls then 8 else 0) < 2 ^ 32 := by omega
  have hrest := toNat_rest hlink
  obtain ⟨n, hn, hnat⟩ := Frame.body?_eq slots (outgoing + if calls then 8 else 0)
    (by rw [hrest]; omega)
  rw [hrest, ← Nat.add_assoc] at hnat
  have halign := Frame.toNat_align16 (n := n) (by omega)
  rw [hnat] at halign
  have hlt : Frame.align16 n < 0x40000000 := by
    rw [UInt32.lt_iff_toNat_lt, halign]
    exact hlimit
  refine ⟨⟨Frame.align16 n, outgoing, Frame.align16 n, calls⟩, ?_, halign, rfl, rfl,
    (Bool.and_true calls).symm⟩
  simp [frame?, hn, hlt, guard]

end

theorem Isa.frame_eq_ok {τ : Type} {isa : Isa τ} {f : MachFunction τ} {frame : Frame}
    (h : isa.frame? f.spillSlots f.outgoing f.hasCalls = some frame) : isa.frame f = .ok frame := by
  rw [Isa.frame, h]

theorem Target.exists_frame (t : Target) (f : MachFunction t.isa.1)
    (hleaf : !f.hasCalls → f.outgoing = 0)
    (hlimit : t.arch.limitedBytes f.spillSlots.toNat f.outgoing.toNat f.hasCalls <
      t.arch.frameLimit) :
    ∃ frame, t.isa.2.frame f = .ok frame ∧
      frame.Exact t.arch f.spillSlots f.outgoing f.hasCalls := by
  obtain ⟨arch, abi⟩ := t
  cases arch with
  | x64 =>
    obtain ⟨frame, hframe, hexact⟩ := X64.exists_frame (fun hcalls _ => hleaf hcalls) hlimit
    exact ⟨frame, Isa.frame_eq_ok hframe, hexact⟩
  | arm64 =>
    obtain ⟨frame, hframe, hexact⟩ := Arm64.exists_frame hlimit
    exact ⟨frame, Isa.frame_eq_ok hframe, hexact⟩
  | riscv64 =>
    obtain ⟨frame, hframe, hexact⟩ := RiscV.exists_frame hlimit
    exact ⟨frame, Isa.frame_eq_ok hframe, hexact⟩

/-- Bytes of a frame from an offset on. -/
structure Area where
  start : Nat
  length : Nat

def Area.stop (a : Area) : Nat := a.start + a.length

/-- No byte is in both areas. -/
def Area.Apart (a b : Area) : Prop := a.stop ≤ b.start ∨ b.stop ≤ a.start

def MachFunction.areas {τ : Type} (f : MachFunction τ) (frame : Frame) (arch : Arch) : List Area :=
  ⟨0, f.outgoing.toNat⟩ ::
    ((List.range f.spillSlots.toNat).map fun i => ⟨(frame.slot (.ofNat i)).toNat, 8⟩) ++
    if f.hasCalls then [⟨frame.size.toNat - arch.linkBytes, arch.linkBytes⟩] else []

section

variable {arch : Arch} {slots outgoing : UInt32} {calls : Bool} {f : Frame}

theorem Arch.frameBytes_lt (hlimit : arch.limitedBytes slots.toNat outgoing.toNat calls <
      arch.frameLimit) : arch.frameBytes slots.toNat outgoing.toNat calls < 2 ^ 31 := by
  cases arch <;> simp only [limitedBytes, frameLimit, frameBytes, roundUp16] at hlimit ⊢ <;>
    split_ifs at hlimit ⊢ <;> omega

variable (arch slots) in
theorem Arch.room (hleaf : !calls → outgoing = 0) :
    outgoing.toNat + 8 * slots.toNat + (if calls then arch.linkBytes else 0) ≤
      arch.frameBytes slots.toNat outgoing.toNat calls := by
  have hfit := arch.le_frameBytes slots.toNat outgoing.toNat calls
  cases calls with
  | false =>
    obtain rfl := hleaf rfl
    simpa using hfit
  | true =>
    simp only [if_true] at hfit ⊢
    omega

namespace Frame.Exact

theorem toNat_slot (h : f.Exact arch slots outgoing calls) (hleaf : !calls → outgoing = 0)
    (hlimit : arch.limitedBytes slots.toNat outgoing.toNat calls < arch.frameLimit) {i : Nat}
    (hi : i < slots.toNat) : (f.slot (.ofNat i)).toNat = outgoing.toNat + 8 * i := by
  have hlt := Arch.frameBytes_lt hlimit
  have hroom := Arch.room arch slots hleaf
  have hnat : (UInt32.ofNat i).toNat = i :=
    Nat.mod_eq_of_lt (hi.trans slots.toNat_lt)
  have hmul : (8 * UInt32.ofNat i).toNat = 8 * i := by
    rw [UInt32.toNat_mul, hnat]
    exact Nat.mod_eq_of_lt (show 8 * i < 2 ^ 32 by omega)
  rw [slot, h.spillBase, UInt32.toNat_add_of_lt, hmul]
  rw [hmul]
  omega

end Frame.Exact

end

section

variable {τ : Type} {f : MachFunction τ} {frame : Frame} {arch : Arch}
  (h : frame.Exact arch f.spillSlots f.outgoing f.hasCalls) (hleaf : !f.hasCalls → f.outgoing = 0)

include h hleaf

theorem Frame.Exact.slots_le (hcalls : f.hasCalls) :
    f.outgoing.toNat + 8 * f.spillSlots.toNat ≤ frame.size.toNat - arch.linkBytes ∧
      arch.linkBytes ≤ frame.size.toNat := by
  have hroom := Arch.room arch f.spillSlots hleaf
  rw [hcalls, if_pos rfl] at hroom
  rw [h.size, hcalls]
  omega

variable (hlimit : arch.limitedBytes f.spillSlots.toNat f.outgoing.toNat f.hasCalls <
  arch.frameLimit)

include hlimit

theorem Frame.Exact.areas_eq : f.areas frame arch = ⟨0, f.outgoing.toNat⟩ ::
    ((List.range f.spillSlots.toNat).map fun i => ⟨f.outgoing.toNat + 8 * i, 8⟩) ++
      if f.hasCalls then [⟨frame.size.toNat - arch.linkBytes, arch.linkBytes⟩] else [] := by
  unfold MachFunction.areas
  congr 2
  refine List.map_congr_left fun i hi => ?_
  rw [h.toNat_slot hleaf hlimit (List.mem_range.mp hi)]

theorem Frame.Exact.pairwise_apart : (f.areas frame arch).Pairwise Area.Apart := by
  rw [h.areas_eq hleaf hlimit, List.cons_append, List.pairwise_cons, List.pairwise_append,
    List.pairwise_map]
  refine ⟨fun a ha => .inl ?_, ?_, ?_, fun a ha b hb => .inl ?_⟩
  · change 0 + f.outgoing.toNat ≤ a.start
    rw [List.mem_append, List.mem_map] at ha
    rcases ha with ⟨i, -, rfl⟩ | ha
    · change _ ≤ f.outgoing.toNat + 8 * i
      omega
    · obtain ⟨hcalls, ha⟩ := List.mem_ite_nil_right.mp ha
      obtain rfl := List.mem_singleton.mp ha
      have := (h.slots_le hleaf hcalls).1
      change _ ≤ frame.size.toNat - arch.linkBytes
      omega
  · refine List.pairwise_lt_range.imp fun {i j} hij => .inl ?_
    change f.outgoing.toNat + 8 * i + 8 ≤ f.outgoing.toNat + 8 * j
    omega
  · split_ifs
    · exact List.pairwise_singleton _ _
    · exact .nil
  · obtain ⟨i, hi, rfl⟩ := List.mem_map.mp ha
    obtain ⟨hcalls, hb⟩ := List.mem_ite_nil_right.mp hb
    obtain rfl := List.mem_singleton.mp hb
    have := (h.slots_le hleaf hcalls).1
    rw [List.mem_range] at hi
    change f.outgoing.toNat + 8 * i + 8 ≤ frame.size.toNat - arch.linkBytes
    omega

theorem Frame.Exact.area_inside (hwords : f.outgoing.toNat % 8 = 0) {a : Area}
    (ha : a ∈ f.areas frame arch) : a.stop ≤ frame.size.toNat ∧ 8 ∣ a.start := by
  have hroom := Arch.room arch f.spillSlots hleaf
  rw [h.areas_eq hleaf hlimit, List.mem_append, List.mem_cons, List.mem_map] at ha
  rcases ha with (rfl | ⟨i, hi, rfl⟩) | ha
  · refine ⟨?_, Nat.dvd_zero 8⟩
    change 0 + f.outgoing.toNat ≤ frame.size.toNat
    rw [h.size]
    omega
  · rw [List.mem_range] at hi
    change f.outgoing.toNat + 8 * i + 8 ≤ frame.size.toNat ∧ 8 ∣ f.outgoing.toNat + 8 * i
    rw [h.size]
    omega
  · obtain ⟨hcalls, ha⟩ := List.mem_ite_nil_right.mp ha
    obtain rfl := List.mem_singleton.mp ha
    have hle := (h.slots_le hleaf hcalls).2
    change frame.size.toNat - arch.linkBytes + arch.linkBytes ≤ frame.size.toNat ∧
      8 ∣ frame.size.toNat - arch.linkBytes
    refine ⟨by omega, ?_⟩
    rw [h.size]
    cases arch <;> simp only [Arch.frameBytes, Arch.linkBytes, roundUp16, hcalls] <;>
      split_ifs <;> omega

end

end SeaNodes

namespace SeaNodes

def Target.stackCpu (t : Target) : StackCpu :=
  match t.arch with
  | .x64 => X64.stackCpu
  | .arm64 => Arm64.stackCpu
  | .riscv64 => RiscV.stackCpu

section

variable {slots outgoing : UInt32} {calls : Bool} {frame : Frame}

theorem Arm64.toNat_bodySize (h : frame.Exact .arm64 slots outgoing calls)
    (hlimit : Arch.limitedBytes .arm64 slots.toNat outgoing.toNat calls < Arch.frameLimit .arm64) :
    (bodySize frame).toNat < 2 ^ 24 ∧
      frame.size.toNat = (bodySize frame).toNat + if frame.savesLink then 16 else 0 := by
  have hsize := h.size
  have hlink : frame.savesLink = calls := h.savesLink.trans (Bool.and_true calls)
  simp only [Arch.limitedBytes, Arch.frameLimit] at hlimit
  rw [bodySize, hlink]
  simp only [Arch.frameBytes] at hsize
  split_ifs at hsize ⊢ with hcalls
  · have hsub : (frame.size - 16).toNat = frame.size.toNat - 16 :=
      UInt32.toNat_sub_of_le _ _ (by rw [UInt32.le_iff_toNat_le, hsize]; exact Nat.le_add_left ..)
    rw [hsub]
    omega
  · omega

theorem RiscV.le_size (h : frame.Exact .riscv64 slots outgoing calls) (hlink : frame.savesLink) :
    8 ≤ frame.size.toNat := by
  have hcalls : calls = true := (Bool.and_true calls).symm.trans (h.savesLink.symm.trans hlink)
  have hround := le_roundUp16 (8 * slots.toNat + outgoing.toNat + if calls then 8 else 0)
  rw [h.size]
  simp only [Arch.frameBytes, hcalls, if_true] at hround ⊢
  omega

theorem Frame.Exact.linkBytes {arch : Arch} (h : frame.Exact arch slots outgoing calls) :
    (if calls then arch.linkBytes else 0) = if frame.savesLink then arch.linkBytes else 0 := by
  rw [h.savesLink]
  cases arch <;> cases calls <;> rfl

theorem Target.entersBy_prologue (t : Target) (h : frame.Exact t.arch slots outgoing calls)
    (hlimit : t.arch.limitedBytes slots.toNat outgoing.toNat calls < t.arch.frameLimit) :
    t.stackCpu.EntersBy (bytesOf (t.isa.2.prologue frame)) frame.size.toNat
      (if calls then t.arch.linkBytes else 0) := by
  obtain ⟨arch, abi⟩ := t
  rw [h.linkBytes]
  cases arch with
  | x64 =>
    rw [show (if frame.savesLink then Arch.x64.linkBytes else 0) = 0 from ite_self 0]
    exact X64.entersBy_prologue (h.size ▸ Arch.frameBytes_lt hlimit)
  | arm64 =>
    obtain ⟨hbody, hsize⟩ := Arm64.toNat_bodySize h hlimit
    exact Arm64.entersBy_prologue hbody hsize
  | riscv64 => exact RiscV.entersBy_prologue (RiscV.le_size h)

theorem Target.leavesBy_ret (t : Target) (h : frame.Exact t.arch slots outgoing calls)
    (hlimit : t.arch.limitedBytes slots.toNat outgoing.toNat calls < t.arch.frameLimit)
    {around : Surroundings} (hframe : around.frame = frame) (regs : OperandRegs) :
    ∃ code, t.isa.2.expand around .ret regs = .ok (code.map .fixed) ∧
      t.stackCpu.LeavesBy (bytesOf code) frame.size.toNat (if calls then t.arch.linkBytes else 0)
        t.arch.pushedBytes := by
  obtain ⟨arch, abi⟩ := t
  rw [h.linkBytes]
  cases arch with
  | x64 =>
    rw [show (if frame.savesLink then Arch.x64.linkBytes else 0) = 0 from ite_self 0]
    exact X64.leavesBy_ret (h.size ▸ Arch.frameBytes_lt hlimit) hframe regs
  | arm64 =>
    obtain ⟨hbody, hsize⟩ := Arm64.toNat_bodySize h hlimit
    exact Arm64.leavesBy_ret hbody hsize hframe regs
  | riscv64 => exact RiscV.leavesBy_ret (RiscV.le_size h) hframe regs

end

/-- A frame has room for all that a function keeps in it. The prologue gets it and each return gives it
up, by the same amount. -/
structure Target.LaysOut (t : Target) (f : MachFunction t.isa.1) (frame : Frame) : Prop where
  apart : (f.areas frame t.arch).Pairwise Area.Apart
  inside : ∀ a ∈ f.areas frame t.arch, a.stop ≤ frame.size.toNat
  aligned : ∀ a ∈ f.areas frame t.arch, 8 ∣ a.start
  enters : t.stackCpu.EntersBy (bytesOf (t.isa.2.prologue frame)) frame.size.toNat
    (if f.hasCalls then t.arch.linkBytes else 0)
  leaves : ∀ around : Surroundings, around.frame = frame → ∀ regs,
    ∃ code, t.isa.2.expand around .ret regs = .ok (code.map .fixed) ∧
      t.stackCpu.LeavesBy (bytesOf code) frame.size.toNat
        (if f.hasCalls then t.arch.linkBytes else 0) t.arch.pushedBytes
  /-- The caller's stack pointer, below which a call has pushed what it pushes, is where arguments on
  the stack begin. -/
  incoming : ∀ s s', t.stackCpu.Enters frame.size.toNat (if f.hasCalls then t.arch.linkBytes else 0)
    s s' → t.stackCpu.sp s' + BitVec.ofNat 64 frame.incoming.toNat =
      t.stackCpu.sp s + BitVec.ofNat 64 t.arch.pushedBytes
  calls : f.hasCalls → ∀ s s', t.stackCpu.Enters frame.size.toNat t.arch.linkBytes s s' →
    16 ∣ (t.stackCpu.sp s + BitVec.ofNat 64 t.arch.pushedBytes).toNat →
    16 ∣ (t.stackCpu.sp s').toNat

theorem Arch.dvd_frameBytes (arch : Arch) (slots outgoing : Nat) :
    16 ∣ arch.frameBytes slots outgoing true + arch.pushedBytes := by
  cases arch <;> simp only [frameBytes, pushedBytes, roundUp16, Bool.not_true, Bool.false_and,
    Bool.false_eq_true, if_true, if_false] <;> omega

section

variable {t : Target} {f : MachFunction t.isa.1} {frame : Frame}

theorem Frame.Exact.sp_incoming {link : Nat} {s s' : t.stackCpu.State}
    (h : frame.Exact t.arch f.spillSlots f.outgoing f.hasCalls)
    (henters : t.stackCpu.Enters frame.size.toNat link s s') :
    t.stackCpu.sp s' + BitVec.ofNat 64 frame.incoming.toNat =
      t.stackCpu.sp s + BitVec.ofNat 64 t.arch.pushedBytes := by
  rw [henters.sp, h.incoming, BitVec.ofNat_add, ← BitVec.add_assoc, BitVec.sub_add_cancel]

theorem Frame.Exact.dvd_sp {link : Nat} {s s' : t.stackCpu.State}
    (h : frame.Exact t.arch f.spillSlots f.outgoing f.hasCalls) (hcalls : f.hasCalls)
    (henters : t.stackCpu.Enters frame.size.toNat link s s')
    (hentry : 16 ∣ (t.stackCpu.sp s + BitVec.ofNat 64 t.arch.pushedBytes).toNat) :
    16 ∣ (t.stackCpu.sp s').toNat := by
  have hframe : 16 ∣ frame.incoming.toNat := by
    rw [h.incoming, h.size, hcalls]
    exact Arch.dvd_frameBytes ..
  rw [← h.sp_incoming henters, BitVec.toNat_add, BitVec.toNat_ofNat] at hentry
  omega

/-- Every function whose frame is below the limit gets one, and nothing in it overlaps. -/
theorem Target.exists_frame_laysOut (t : Target) (f : MachFunction t.isa.1)
    (hleaf : !f.hasCalls → f.outgoing = 0) (hwords : f.outgoing.toNat % 8 = 0)
    (hlimit : t.arch.limitedBytes f.spillSlots.toNat f.outgoing.toNat f.hasCalls <
      t.arch.frameLimit) : ∃ frame, t.isa.2.frame f = .ok frame ∧ t.LaysOut f frame := by
  obtain ⟨frame, hframe, hexact⟩ := t.exists_frame f hleaf hlimit
  exact ⟨frame, hframe, {
    apart := hexact.pairwise_apart hleaf hlimit
    inside := fun a ha => (hexact.area_inside hleaf hlimit hwords ha).1
    aligned := fun a ha => (hexact.area_inside hleaf hlimit hwords ha).2
    enters := t.entersBy_prologue hexact hlimit
    leaves := fun around haround regs => t.leavesBy_ret hexact hlimit haround regs
    incoming := fun _ _ henters => hexact.sp_incoming henters
    calls := fun hcalls _ _ henters hentry => hexact.dvd_sp hcalls henters hentry }⟩

/-- An odd number of slots next to the link and to arguments on the stack. -/
def caller : MachFunction RiscV.Test where
  name := "caller"
  outgoing := 24
  hasCalls := true
  spillSlots := 5

theorem Target.exists_frame_laysOut_caller :
    (!caller.hasCalls → caller.outgoing = 0) ∧ caller.outgoing.toNat % 8 = 0 ∧
      Arch.limitedBytes .riscv64 caller.spillSlots.toNat caller.outgoing.toNat caller.hasCalls <
        Arch.frameLimit .riscv64 ∧
      ∃ frame, RiscV.isa.frame caller = .ok frame ∧
        Target.LaysOut ⟨.riscv64, .lp64d⟩ caller frame :=
  ⟨by decide, by decide, by decide,
    exists_frame_laysOut ⟨.riscv64, .lp64d⟩ caller (by decide) (by decide) (by decide)⟩

end

end SeaNodes

namespace SeaNodes

theorem Frame.body?_eq_none {slots rest : UInt32} (h : 2 ^ 32 ≤ 8 * slots.toNat + rest.toNat) :
    body? slots rest = none :=
  if_neg (Nat.not_lt.mpr h)

namespace Arch

/-- The bytes of the link that a frame is limited by, along with its slots and arguments. -/
def limitedLink (arch : Arch) (calls : Bool) : Nat :=
  match arch with
  | .x64 | .arm64 => 0
  | .riscv64 => if calls then 8 else 0

/-- Whether a sum that no frame checks is beyond 32 bits: that of the outgoing arguments and the
link, or one that is rounded up. Neither is computed where the slots alone are beyond. -/
def wraps (arch : Arch) (slots outgoing : Nat) (calls : Bool) : Bool :=
  let rest := outgoing + arch.limitedLink calls
  arch ≠ .x64 && 8 * slots < 2 ^ 32 &&
    (2 ^ 32 ≤ rest || 8 * slots + rest < 2 ^ 32 && 2 ^ 32 ≤ 8 * slots + rest + 15)

/-- Whether the frame of a function reaches the limit. On x86-64, a function without calls and spill
slots has none. -/
def oversized (arch : Arch) (slots outgoing : Nat) (calls : Bool) : Bool :=
  !(arch = .x64 && !calls && slots = 0) &&
    arch.frameLimit ≤ arch.limitedBytes slots outgoing calls

end Arch

namespace Frame

/-- The sum, if it has 32 bits. -/
def sum? (a b : UInt32) : Option UInt32 := if a.toNat + b.toNat < 2 ^ 32 then some (a + b) else none

def difference? (a b : UInt32) : Option UInt32 := if b ≤ a then some (a - b) else none

def checkedAlign16 (n : UInt32) : Option UInt32 := (sum? n 15).map (· &&& ~~~15)

theorem sum?_eq {a b : UInt32} (h : a.toNat + b.toNat < 2 ^ 32) : sum? a b = some (a + b) :=
  if_pos h

theorem checkedAlign16_eq {n : UInt32} (h : n.toNat + 15 < 2 ^ 32) :
    checkedAlign16 n = some (align16 n) :=
  congrArg _ (sum?_eq h)

end Frame

section

variable (slots outgoing : UInt32) (calls : Bool)

def X64.checkedFrame : Option (Option Frame) :=
  if !calls && slots == 0 then some (some { incoming := 8 })
  else match Frame.body? slots outgoing with
    | none => some none
    | some body =>
      if body < 0x3fffffff then do
        let size ← Frame.difference? (← Frame.checkedAlign16 (← Frame.sum? body 8)) 8
        return some { size, spillBase := outgoing, incoming := ← Frame.sum? size 8 }
      else some none

def Arm64.checkedFrame : Option (Option Frame) :=
  match Frame.body? slots outgoing with
  | none => some none
  | some n => do
    let body ← Frame.checkedAlign16 n
    if body < 0x1000000 then
      let size ← if calls then Frame.sum? body 16 else some body
      return some { size, spillBase := outgoing, incoming := size, savesLink := calls }
    else return none

def RiscV.checkedFrame : Option (Option Frame) :=
  if 2 ^ 32 ≤ 8 * slots.toNat then some none
  else do
    match Frame.body? slots (← Frame.sum? outgoing (if calls then 8 else 0)) with
    | none => return none
    | some n =>
      let size ← Frame.checkedAlign16 n
      return if size < 0x40000000 then
        some { size, spillBase := outgoing, incoming := size, savesLink := calls }
      else none

def Arch.checkedFrame : Arch → Option (Option Frame)
  | .x64 => X64.checkedFrame slots outgoing calls
  | .arm64 => Arm64.checkedFrame slots outgoing calls
  | .riscv64 => RiscV.checkedFrame slots outgoing calls

end

section

variable {slots outgoing : UInt32} {calls : Bool}

theorem Arch.of_not_wraps {arch : Arch} (harch : arch ≠ .x64)
    (h : arch.wraps slots.toNat outgoing.toNat calls = false) :
    2 ^ 32 ≤ 8 * slots.toNat ∨ outgoing.toNat + arch.limitedLink calls < 2 ^ 32 ∧
      (8 * slots.toNat + (outgoing.toNat + arch.limitedLink calls) + 15 < 2 ^ 32 ∨
        2 ^ 32 ≤ 8 * slots.toNat + (outgoing.toNat + arch.limitedLink calls)) := by
  simp only [wraps, ne_eq, harch, not_false_eq_true, decide_true, Bool.true_and,
    Bool.or_eq_false_iff, Bool.and_eq_false_iff, decide_eq_false_iff_not] at h
  omega

theorem Arch.oversized_iff {arch : Arch} (harch : arch ≠ .x64) (slots outgoing : Nat) :
    arch.oversized slots outgoing calls ↔
      arch.frameLimit ≤ arch.limitedBytes slots outgoing calls := by
  simp [oversized, harch]

theorem X64.checkedFrame_eq :
    checkedFrame slots outgoing calls = some (frame? slots outgoing calls) := by
  unfold checkedFrame frame?
  split_ifs with hnone
  · rfl
  · cases hbody : Frame.body? slots outgoing with
    | none => rfl
    | some body =>
      by_cases hlt : body < 0x3fffffff
      · obtain ⟨hadd, hle, hsize⟩ := toNat_size hlt
        have hnat : body.toNat < 0x3fffffff := UInt32.lt_iff_toNat_lt.mp hlt
        have hsum : Frame.sum? body 8 = some (body + 8) :=
          Frame.sum?_eq (by change body.toNat + 8 < _; omega)
        have htop : Frame.sum? (Frame.align16 (body + 8) - 8) 8 =
            some (Frame.align16 (body + 8) - 8 + 8) := by
          refine Frame.sum?_eq ?_
          change (Frame.align16 (body + 8) - 8).toNat + 8 < _
          rw [hsize, roundUp16]
          omega
        simp [hlt, guard, hsum, Frame.checkedAlign16_eq (n := body + 8) (by omega),
          Frame.difference?, hle, htop]
      · simp [hlt, guard]

theorem X64.oversized_iff : Arch.oversized .x64 slots.toNat outgoing.toNat calls ↔
    ¬ (!calls && slots == 0) ∧ 0x3fffffff ≤ 8 * slots.toNat + outgoing.toNat := by
  have hslots : (slots == 0) = decide (slots.toNat = 0) := by
    rw [Bool.beq_eq_decide_eq, decide_eq_decide, ← UInt32.toNat_inj]
    rfl
  rw [Arch.oversized, hslots, Bool.and_eq_true, Bool.not_eq_true', decide_eq_true_eq,
    Bool.not_eq_true]
  rfl

theorem X64.frame?_eq_none (hlimit : Arch.oversized .x64 slots.toNat outgoing.toNat calls) :
    frame? slots outgoing calls = none := by
  obtain ⟨hneeds, hlimit⟩ := oversized_iff.mp hlimit
  rw [frame?, if_neg hneeds]
  by_cases hfits : 8 * slots.toNat + outgoing.toNat < 2 ^ 32
  · obtain ⟨body, hbody, hnat⟩ := Frame.body?_eq slots outgoing hfits
    have hge : ¬ body < 0x3fffffff := by
      rw [UInt32.lt_iff_toNat_lt, hnat]
      exact Nat.not_lt.mpr hlimit
    simp [hbody, hge, guard]
  · rw [Frame.body?_eq_none (Nat.not_lt.mp hfits)]
    rfl

theorem X64.exists_frame_size
    (hlimit : Arch.oversized .x64 slots.toNat outgoing.toNat calls = false) :
    ∃ frame, frame? slots outgoing calls = some frame ∧
      frame.size.toNat = Arch.frameBytes .x64 slots.toNat outgoing.toNat calls ∧
      frame.incoming.toNat = frame.size.toNat + 8 := by
  by_cases hnone : !calls && slots == 0
  · -- what is laid out for calls does not count where there are none
    refine ⟨{ incoming := 8 }, if_pos hnone, ?_, rfl⟩
    rw [Bool.and_eq_true, beq_iff_eq] at hnone
    simp [Arch.frameBytes, hnone.1, hnone.2]
  · have hfits : 8 * slots.toNat + outgoing.toNat < 0x3fffffff :=
      Nat.not_le.mp fun h => Bool.eq_false_iff.mp hlimit (oversized_iff.mpr ⟨hnone, h⟩)
    have hleaf (hcalls : !calls) (hslots : slots = 0) : outgoing = 0 :=
      absurd (by rw [hcalls, hslots]; rfl) hnone
    obtain ⟨frame, hframe, hexact⟩ := exists_frame hleaf hfits
    exact ⟨frame, hframe, hexact.size, hexact.incoming⟩

theorem Arm64.of_not_wraps (h : Arch.wraps .arm64 slots.toNat outgoing.toNat calls = false) :
    8 * slots.toNat + outgoing.toNat + 15 < 2 ^ 32 ∨
      2 ^ 32 ≤ 8 * slots.toNat + outgoing.toNat := by
  have hround := Arch.of_not_wraps (by decide) h
  rw [show Arch.limitedLink .arm64 calls = 0 from rfl, Nat.add_zero] at hround
  omega

theorem Arm64.checkedFrame_eq (h : Arch.wraps .arm64 slots.toNat outgoing.toNat calls = false) :
    checkedFrame slots outgoing calls = some (frame? slots outgoing calls) := by
  unfold checkedFrame frame?
  rcases of_not_wraps h with hround | hround
  -- either the rounding is harmless, or the sum is already refused before it
  · obtain ⟨n, hn, hnat⟩ := Frame.body?_eq slots outgoing (by omega)
    have halign : Frame.checkedAlign16 n = some (Frame.align16 n) :=
      Frame.checkedAlign16_eq (by omega)
    by_cases hlt : Frame.align16 n < 0x1000000
    · have hnat : (Frame.align16 n).toNat < 0x1000000 := UInt32.lt_iff_toNat_lt.mp hlt
      have hsum : Frame.sum? (Frame.align16 n) 16 = some (Frame.align16 n + 16) :=
        Frame.sum?_eq (by change _ + 16 < 2 ^ 32; omega)
      cases calls <;> simp [hn, hlt, guard, hsum, halign]
    · simp [hn, hlt, guard, halign]
  · rw [Frame.body?_eq_none hround]
    rfl

theorem Arm64.frame?_eq_none
    (hwraps : Arch.wraps .arm64 slots.toNat outgoing.toNat calls = false)
    (hlimit : Arch.oversized .arm64 slots.toNat outgoing.toNat calls) :
    frame? slots outgoing calls = none := by
  rw [Arch.oversized_iff (by decide)] at hlimit
  unfold frame?
  rcases of_not_wraps hwraps with hround | hround
  · obtain ⟨n, hn, hnat⟩ := Frame.body?_eq slots outgoing (by omega)
    have hge : ¬ Frame.align16 n < 0x1000000 := by
      rw [UInt32.lt_iff_toNat_lt, Frame.toNat_align16 (by omega), hnat]
      exact Nat.not_lt.mpr hlimit
    simp [hn, hge, guard]
  · rw [Frame.body?_eq_none hround]
    rfl

theorem RiscV.of_not_wraps (h : Arch.wraps .riscv64 slots.toNat outgoing.toNat calls = false)
    (hslots : 8 * slots.toNat < 2 ^ 32) :
    let rest : UInt32 := outgoing + if calls then 8 else 0
    (rest.toNat = outgoing.toNat + if calls then 8 else 0) ∧
      (8 * slots.toNat + rest.toNat + 15 < 2 ^ 32 ∨ 2 ^ 32 ≤ 8 * slots.toNat + rest.toNat) := by
  obtain ⟨hlink, hround⟩ :=
    (Arch.of_not_wraps (by decide) h).resolve_left (Nat.not_le.mpr hslots)
  have hrest := toNat_rest hlink
  refine ⟨hrest, ?_⟩
  rw [hrest]
  exact hround

theorem RiscV.checkedFrame_eq (h : Arch.wraps .riscv64 slots.toNat outgoing.toNat calls = false) :
    checkedFrame slots outgoing calls = some (frame? slots outgoing calls) := by
  unfold checkedFrame frame?
  by_cases hslots : 2 ^ 32 ≤ 8 * slots.toNat
  · rw [if_pos hslots, Frame.body?_eq_none (hslots.trans (Nat.le_add_right ..))]
    rfl
  · rw [if_neg hslots]
    have hsum : Frame.sum? outgoing (if calls then 8 else 0) =
        some (outgoing + if calls then 8 else 0) := by
      have hlink := ((Arch.of_not_wraps (by decide) h).resolve_left hslots).1
      cases calls <;> exact Frame.sum?_eq hlink
    rcases (of_not_wraps h (Nat.not_le.mp hslots)).2 with hround | hround
    · obtain ⟨n, hn, hnat⟩ :=
        Frame.body?_eq slots (outgoing + if calls then 8 else 0) (by omega)
      have halign : Frame.checkedAlign16 n = some (Frame.align16 n) :=
        Frame.checkedAlign16_eq (by omega)
      by_cases hlt : Frame.align16 n < 0x40000000 <;> simp [hsum, hn, hlt, guard, halign]
    · simp [hsum, Frame.body?_eq_none hround]

theorem RiscV.frame?_eq_none
    (hwraps : Arch.wraps .riscv64 slots.toNat outgoing.toNat calls = false)
    (hlimit : Arch.oversized .riscv64 slots.toNat outgoing.toNat calls) :
    frame? slots outgoing calls = none := by
  rw [Arch.oversized_iff (by decide)] at hlimit
  by_cases hfits : 8 * slots.toNat + (outgoing + if calls then 8 else 0).toNat < 2 ^ 32
  · obtain ⟨hrest, hround⟩ := of_not_wraps hwraps (by omega)
    obtain ⟨n, hn, hnat⟩ := Frame.body?_eq slots (outgoing + if calls then 8 else 0) hfits
    have hge : ¬ Frame.align16 n < 0x40000000 := by
      rw [UInt32.lt_iff_toNat_lt, Frame.toNat_align16 (by omega), hnat, hrest, ← Nat.add_assoc]
      exact Nat.not_lt.mpr hlimit
    simp [frame?, hn, hge, guard]
  · simp [frame?, Frame.body?_eq_none (Nat.not_lt.mp hfits)]

end

theorem Isa.frame_eq_error {τ : Type} {isa : Isa τ} {f : MachFunction τ}
    (h : isa.frame? f.spillSlots f.outgoing f.hasCalls = none) :
    isa.frame f = .error (.internal .regalloc none (.alloc f.name .frameTooLarge)) := by
  rw [Isa.frame, h]

section

variable (t : Target) (f : MachFunction t.isa.1)

theorem Target.checkedFrame_eq
    (hwraps : t.arch.wraps f.spillSlots.toNat f.outgoing.toNat f.hasCalls = false) :
    t.arch.checkedFrame f.spillSlots f.outgoing f.hasCalls =
      some (t.isa.2.frame? f.spillSlots f.outgoing f.hasCalls) := by
  obtain ⟨arch, abi⟩ := t
  cases arch with
  | x64 => exact X64.checkedFrame_eq
  | arm64 => exact Arm64.checkedFrame_eq hwraps
  | riscv64 => exact RiscV.checkedFrame_eq hwraps

theorem Target.frame_eq_error
    (hwraps : t.arch.wraps f.spillSlots.toNat f.outgoing.toNat f.hasCalls = false)
    (hlimit : t.arch.oversized f.spillSlots.toNat f.outgoing.toNat f.hasCalls) :
    t.isa.2.frame f = .error (.internal .regalloc none (.alloc f.name .frameTooLarge)) := by
  obtain ⟨arch, abi⟩ := t
  cases arch with
  | x64 => exact Isa.frame_eq_error (X64.frame?_eq_none hlimit)
  | arm64 => exact Isa.frame_eq_error (Arm64.frame?_eq_none hwraps hlimit)
  | riscv64 => exact Isa.frame_eq_error (RiscV.frame?_eq_none hwraps hlimit)

theorem Target.exists_frame_size
    (hlimit : t.arch.oversized f.spillSlots.toNat f.outgoing.toNat f.hasCalls = false) :
    ∃ frame, t.isa.2.frame f = .ok frame ∧
      frame.size.toNat = t.arch.frameBytes f.spillSlots.toNat f.outgoing.toNat f.hasCalls ∧
      frame.incoming.toNat = frame.size.toNat + t.arch.pushedBytes := by
  obtain ⟨arch, abi⟩ := t
  have hfits (harch : arch ≠ .x64) : arch.limitedBytes f.spillSlots.toNat f.outgoing.toNat
      f.hasCalls < arch.frameLimit :=
    Nat.not_le.mp fun h =>
      Bool.eq_false_iff.mp hlimit ((Arch.oversized_iff harch _ _).mpr h)
  cases arch with
  | x64 =>
    obtain ⟨frame, hframe, hsize, hincoming⟩ := X64.exists_frame_size hlimit
    exact ⟨frame, Isa.frame_eq_ok hframe, hsize, hincoming⟩
  | arm64 =>
    obtain ⟨frame, hframe, hexact⟩ := Arm64.exists_frame (hfits (by decide))
    exact ⟨frame, Isa.frame_eq_ok hframe, hexact.size, hexact.incoming⟩
  | riscv64 =>
    obtain ⟨frame, hframe, hexact⟩ := RiscV.exists_frame (hfits (by decide))
    exact ⟨frame, Isa.frame_eq_ok hframe, hexact.size, hexact.incoming⟩

/-- Without sums that wrap around, a function gets the frame that is known exactly, or is refused
because its frame would reach the limit. -/
theorem Target.frame_limited
    (hwraps : t.arch.wraps f.spillSlots.toNat f.outgoing.toNat f.hasCalls = false) :
    t.arch.checkedFrame f.spillSlots f.outgoing f.hasCalls =
        some (t.isa.2.frame? f.spillSlots f.outgoing f.hasCalls) ∧
      (t.arch.oversized f.spillSlots.toNat f.outgoing.toNat f.hasCalls →
        t.isa.2.frame f = .error (.internal .regalloc none (.alloc f.name .frameTooLarge))) ∧
      (t.arch.oversized f.spillSlots.toNat f.outgoing.toNat f.hasCalls = false →
        ∃ frame, t.isa.2.frame f = .ok frame ∧
          frame.size.toNat = t.arch.frameBytes f.spillSlots.toNat f.outgoing.toNat f.hasCalls ∧
          frame.incoming.toNat = frame.size.toNat + t.arch.pushedBytes ∧
          8 * f.spillSlots.toNat +
            (if f.hasCalls then f.outgoing.toNat + t.arch.linkBytes else 0) ≤
              frame.size.toNat) := by
  refine ⟨t.checkedFrame_eq f hwraps, t.frame_eq_error f hwraps, fun hlimit => ?_⟩
  obtain ⟨frame, hframe, hsize, hincoming⟩ := t.exists_frame_size f hlimit
  refine ⟨frame, hframe, hsize, hincoming, ?_⟩
  rw [hsize]
  exact Arch.le_frameBytes ..

theorem Target.frame_limited_caller :
    Arch.wraps .riscv64 5 24 true = false ∧
      RiscV.checkedFrame 5 24 true = some (RiscV.frame? 5 24 true) ∧
      (∃ frame, RiscV.isa.frame caller = .ok frame ∧ frame.size.toNat = 80 ∧
        frame.incoming.toNat = frame.size.toNat ∧ 8 * 5 + (24 + 8) ≤ frame.size.toNat) ∧
      Arch.wraps .riscv64 (2 ^ 27) 24 true = false ∧
      RiscV.isa.frame { caller with spillSlots := 0x8000000 } =
        .error (.internal .regalloc none (.alloc "caller" .frameTooLarge)) :=
  have hsmall := frame_limited ⟨.riscv64, .lp64d⟩ caller (by decide)
  have hlarge := frame_limited ⟨.riscv64, .lp64d⟩ { caller with spillSlots := 0x8000000 }
    (by decide)
  ⟨by decide, hsmall.1, hsmall.2.2 (by decide), by decide, hlarge.2.1 (by decide)⟩

end

def Arch.wholeBytes (arch : Arch) (slots outgoing : Nat) (calls : Bool) : Nat :=
  roundUp16 (8 * slots + outgoing + if calls then arch.linkBytes else 0)

/-- A frame is accepted although all that is in it reaches the limit. -/
def Target.Exceeds (t : Target) (f : MachFunction t.isa.1) : Prop :=
  t.arch.frameLimit ≤ t.arch.wholeBytes f.spillSlots.toNat f.outgoing.toNat f.hasCalls ∧
    ∃ frame, t.isa.2.frame f = .ok frame

/-- The limits do not count a link that is pushed, the rounding on x86-64, and the arguments of a
function that needs no frame. -/
theorem Target.exceeds_limits :
    Target.Exceeds ⟨.arm64, .aapcs64⟩ { name := "f", spillSlots := 2097150, hasCalls := true } ∧
      Target.Exceeds ⟨.x64, .systemV⟩ { name := "f", spillSlots := 134217727, hasCalls := true } ∧
      Target.Exceeds ⟨.x64, .systemV⟩ { name := "f", outgoing := 4294967295 } :=
  ⟨⟨by decide, _, rfl⟩, ⟨by decide, _, rfl⟩, ⟨by decide, _, rfl⟩⟩

end SeaNodes
