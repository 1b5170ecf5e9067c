import Mathlib.Tactic.IntervalCases
import SeaNodes.Proofs.Hardware.X64

namespace SeaNodes.X64

/-- The memory that an operand refers to. -/
inductive Place where
  | based (base : Gpr) (disp : Int32)
  | indexed (base index : Gpr) (scale : Fin 4) (disp : Int32)
  | scaled (index : Gpr) (scale : Fin 4) (disp : Int32)
  | absolute (disp : Int32)
  /-- Relative to the next instruction. -/
  | relative (disp : Int32)
deriving DecidableEq

def topBits (byte : UInt8) : BitVec 2 := byte.toBitVec.extractLsb' 6 2

def lastBits (byte : UInt8) : BitVec 3 := byte.toBitVec.extractLsb' 0 3

/-- The displacement in the bytes from `k` on, and how many these are. -/
def displacement (mode : BitVec 2) (b : Nat → UInt8) (k : Nat) : Int32 × Nat :=
  if mode = 0 then (0, 0)
  else if mode = 1 then ((b k).toInt8.toInt32, 1)
  else ((word32At b k).toInt32, 4)

namespace Prefixes

/-- The register that a SIB byte has for an index. -/
def index (p : Prefixes) (sib : UInt8) : Gpr :=
  (p.rex.toBitVec.extractLsb' 1 1 ++ sib.toBitVec.extractLsb' 3 3 : BitVec 4).toFin

/-- The memory operand whose ModR/M byte stands at `k`, and how many bytes it takes. -/
def place? (p : Prefixes) (b : Nat → UInt8) (k : Nat) : Option (Place × Nat) :=
  let mode := topBits (b k)
  let sib := b (k + 1)
  let index := p.index sib
  if mode = 3 then none
  else if lastBits (b k) = 4 then
    if mode = 0 ∧ lastBits sib = 5 then
      let (disp, n) := displacement 2 b (k + 2)
      some (if index = rsp then .absolute disp else .scaled index (topBits sib).toFin disp, n + 2)
    else
      let (disp, n) := displacement mode b (k + 2)
      some (if index = rsp then .based (p.rm sib) disp
        else .indexed (p.rm sib) index (topBits sib).toFin disp, n + 2)
  else if mode = 0 ∧ lastBits (b k) = 5 then
    let (disp, n) := displacement 2 b (k + 1)
    some (.relative disp, n + 1)
  else
    let (disp, n) := displacement mode b (k + 1)
    some (.based (p.rm (b k)) disp, n + 1)

end Prefixes

/-- An instruction with a memory operand. -/
structure Access where
  wide : Bool
  reg : Fin 16
  place : Place
  length : Nat
deriving DecidableEq

/-- The instruction that bytes start with, of which the prefix takes `n` bytes and the opcode `o`;
the REX byte, if there is one, stands between them. -/
def access? (n o : Nat) (b : Nat → UInt8) : Option Access :=
  let p := Prefixes.ofRest b (0 < n) n
  let k := p.length + o
  (p.place? b k).map fun (place, size) => ⟨p.wide, p.reg (b k), place, k + size⟩

theorem extract_rexByte (w r x y : Bool) :
    (rexByte w r x y).toBitVec.getLsbD 3 = w ∧
      (rexByte w r x y).toBitVec.extractLsb' 2 1 = BitVec.ofBool r ∧
      (rexByte w r x y).toBitVec.extractLsb' 1 1 = BitVec.ofBool x ∧
      (rexByte w r x y).toBitVec.extractLsb' 0 1 = BitVec.ofBool y := by
  revert w r x y
  decide

theorem extract_modrm (mode a c : UInt8) :
    topBits (modrm mode a c) = mode.toBitVec.setWidth 2 ∧
      (modrm mode a c).toBitVec.extractLsb' 3 3 = a.toBitVec.setWidth 3 ∧
      lastBits (modrm mode a c) = c.toBitVec.setWidth 3 := by
  refine ⟨?_, ?_, ?_⟩ <;> apply BitVec.eq_of_getLsbD_eq <;> intro i hi <;>
    interval_cases i <;> simp [modrm, topBits, lastBits]

theorem ofBool_high_append (r : Fin 16) :
    (BitVec.ofBool (high r) ++ (low r).toBitVec.setWidth 3 : BitVec 4).toFin = r := by
  revert r
  decide

theorem setWidth_low_eq_four (r : Fin 16) : (low r).toBitVec.setWidth 3 = 4 ↔ needsSib r := by
  revert r
  decide

theorem setWidth_low_eq_five (r : Fin 16) : (low r).toBitVec.setWidth 3 = 5 ↔ needsDisp r := by
  revert r
  decide

theorem toFin_scale (s : Fin 4) : (s.val.toUInt8.toBitVec.setWidth 2).toFin = s := by
  revert s
  decide

section

variable {b : Nat → UInt8} {k : Nat} {p : Prefixes} {w r x y : Bool} {reg base index : Fin 16}
  {m : Mem} {disp : Int32}

theorem reg_modrm (h : p.rex = rexByte w (high reg) x y) (mode rm : UInt8) :
    p.reg (modrm mode (low reg) rm) = reg := by
  rw [Prefixes.reg, h, (extract_rexByte ..).2.1, (extract_modrm ..).2.1]
  exact ofBool_high_append reg

theorem rm_modrm (h : p.rex = rexByte w r x (high base)) (mode field : UInt8) :
    p.rm (modrm mode field (low base)) = base := by
  have hlast := (extract_modrm mode field (low base)).2.2
  rw [lastBits] at hlast
  rw [Prefixes.rm, h, (extract_rexByte ..).2.2.2, hlast]
  exact ofBool_high_append base

theorem index_sib (h : p.rex = rexByte w r (high index) y) (scale base : UInt8) :
    p.index (sib scale (low index) base) = index := by
  have hsib : sib scale (low index) base = modrm scale (low index) base := rfl
  rw [Prefixes.index, h, hsib, (extract_rexByte ..).2.2.1, (extract_modrm ..).2.1]
  exact ofBool_high_append index

theorem displacement_imm32 (h : Starts (fun i => b (k + i)) (imm32 disp)) :
    displacement 2 b k = (disp, (imm32 disp).length) := by
  have hword : word32At b k = disp.toUInt32 := word32At_of_bytes32 h
  rw [displacement, if_neg (by decide), if_neg (by decide), hword]
  rfl

theorem displacement_dispBytes
    (h : Starts (fun i => b (k + i)) (Mem.dispBytes (Mem.mode base disp) disp)) :
    displacement ((Mem.mode base disp).toBitVec.setWidth 2) b k =
      (disp, (Mem.dispBytes (Mem.mode base disp) disp).length) := by
  unfold Mem.mode at h ⊢
  split_ifs at h ⊢ with hzero hfits
  · rw [Bool.and_eq_true, beq_iff_eq] at hzero
    rw [hzero.1]
    rfl
  · have hbyte : b k = disp.toUInt32.toUInt8 := h 0 Nat.one_pos
    have hdisp : (b k).toInt8.toInt32 = disp := by
      apply Int32.toBitVec_inj.mp
      rw [hbyte]
      exact (congrArg _ (toInt_setWidth_of_fits hfits)).trans (BitVec.ofInt_toInt ..)
    exact congrArg (·, 1) hdisp
  · exact displacement_imm32 h

theorem mode_ne_zero (h : needsDisp base) (disp : Int32) :
    (Mem.mode base disp).toBitVec.setWidth 2 ≠ 0 := by
  unfold Mem.mode
  rw [h, Bool.not_true, Bool.and_false, if_neg Bool.false_ne_true]
  split_ifs <;> decide

theorem mode_ne_three (base : Gpr) (disp : Int32) :
    (Mem.mode base disp).toBitVec.setWidth 2 ≠ 3 := by
  unfold Mem.mode
  split_ifs <;> decide

end

/-- The operands that instructions can have: `rsp` is no index, and an index needs a base. -/
structure Mem.Encodable (m : Mem) : Prop where
  index_ne_rsp : m.index ≠ some rsp
  index_of_base : m.base = none → m.index = none

/-- The memory that an operand is meant to refer to. -/
def Mem.place (m : Mem) : Place :=
  match m.base, m.index with
  | none, _ => .relative m.disp
  | some base, none => .based base m.disp
  | some base, some index => .indexed base index m.scale m.disp

section

variable {b : Nat → UInt8} {k : Nat} {p : Prefixes} {w r : Bool} {reg base : Fin 16} {disp : Int32}

theorem place?_relative (h : Starts (fun i => b (k + i)) (modrm 0 (low reg) 5 :: imm32 disp)) :
    p.place? b k = some (.relative disp, (imm32 disp).length + 1) := by
  have hfirst : b k = modrm 0 (low reg) 5 := h 0 (Nat.succ_pos _)
  have hrest : Starts (fun i => b (k + 1 + i)) (imm32 disp) := h.tail
  obtain ⟨htop, -, hlast⟩ := extract_modrm 0 (low reg) 5
  rw [Prefixes.place?, hfirst]
  dsimp only
  rw [htop, hlast, if_neg (by decide), if_neg (by decide), if_pos (by decide),
    displacement_imm32 hrest]

theorem place?_base (hp : p.rex = rexByte w r false (high base)) (hsib : ¬ needsSib base)
    (h : Starts (fun i => b (k + i)) (modrm (Mem.mode base disp) (low reg) (low base) ::
      Mem.dispBytes (Mem.mode base disp) disp)) :
    p.place? b k =
      some (.based base disp, (Mem.dispBytes (Mem.mode base disp) disp).length + 1) := by
  have hfirst : b k = modrm (Mem.mode base disp) (low reg) (low base) := h 0 (Nat.succ_pos _)
  have hrest : Starts (fun i => b (k + 1 + i)) (Mem.dispBytes (Mem.mode base disp) disp) := h.tail
  obtain ⟨htop, -, hlast⟩ := extract_modrm (Mem.mode base disp) (low reg) (low base)
  have hrelative : ¬ ((Mem.mode base disp).toBitVec.setWidth 2 = 0 ∧
      (low base).toBitVec.setWidth 3 = 5) := fun hescape =>
    mode_ne_zero ((setWidth_low_eq_five base).mp hescape.2) disp hescape.1
  rw [Prefixes.place?, hfirst]
  dsimp only
  rw [htop, hlast, if_neg (mode_ne_three base disp),
    if_neg (mt (setWidth_low_eq_four base).mp hsib), if_neg hrelative,
    displacement_dispBytes hrest, rm_modrm hp]

theorem place?_sib (index : Gpr) (scale : Fin 4)
    (hp : p.rex = rexByte w r (high index) (high base))
    (h : Starts (fun i => b (k + i)) (modrm (Mem.mode base disp) (low reg) 4 ::
      sib scale.val.toUInt8 (low index) (low base) :: Mem.dispBytes (Mem.mode base disp) disp)) :
    p.place? b k = some (if index = rsp then .based base disp else .indexed base index scale disp,
      (Mem.dispBytes (Mem.mode base disp) disp).length + 2) := by
  have hfirst : b k = modrm (Mem.mode base disp) (low reg) 4 := h 0 (Nat.succ_pos _)
  have hsecond : b (k + 1) = sib scale.val.toUInt8 (low index) (low base) :=
    h.tail 0 (Nat.succ_pos _)
  have hrest : Starts (fun i => b (k + 2 + i)) (Mem.dispBytes (Mem.mode base disp) disp) :=
    h.tail.tail
  obtain ⟨htop, -, hlast⟩ := extract_modrm (Mem.mode base disp) (low reg) 4
  obtain ⟨hscale, -, hbase⟩ := extract_modrm scale.val.toUInt8 (low index) (low base)
  have hnone : ¬ ((Mem.mode base disp).toBitVec.setWidth 2 = 0 ∧
      (low base).toBitVec.setWidth 3 = 5) := fun hescape =>
    mode_ne_zero ((setWidth_low_eq_five base).mp hescape.2) disp hescape.1
  have hsib : sib scale.val.toUInt8 (low index) (low base) =
    modrm scale.val.toUInt8 (low index) (low base) := rfl
  rw [Prefixes.place?, hfirst, hsecond, index_sib hp, hsib]
  dsimp only
  rw [htop, hlast, hscale, hbase, if_neg (mode_ne_three base disp), if_pos (by decide),
    if_neg hnone, displacement_dispBytes hrest, rm_modrm hp, toFin_scale]

theorem operandBytes_shape (m : Mem) (reg : Fin 16) : ∃ mode rm code,
    m.operandBytes reg = modrm mode (low reg) rm :: code ∧ code.length ≤ 5 := by
  have hdisp (base : Gpr) : (Mem.dispBytes (Mem.mode base m.disp) m.disp).length ≤ 4 := by
    unfold Mem.dispBytes
    split_ifs <;> simp [imm8, imm32, bytes32]
  unfold Mem.operandBytes
  split
  · exact ⟨0, 5, _, rfl, by simp [imm32, bytes32]⟩
  · next base _ _ =>
    dsimp only
    split_ifs
    · exact ⟨_, _, _, rfl, Nat.succ_le_succ (hdisp base)⟩
    · exact ⟨_, _, _, rfl, (hdisp base).trans (by decide)⟩
  · next base _ _ _ => exact ⟨_, _, _, rfl, Nat.succ_le_succ (hdisp base)⟩

variable {m : Mem} {before opcode : List UInt8}

theorem place?_operandBytes (hm : m.Encodable)
    (hp : p.rex = rexByte w r (m.index.any high) (m.base.any high))
    (h : Starts (fun i => b (k + i)) (m.operandBytes reg)) :
    p.place? b k = some (m.place, (m.operandBytes reg).length) := by
  obtain ⟨base, index, scale, disp⟩ := m
  cases base with
  | none => exact place?_relative h
  | some base =>
    cases index with
    | none =>
      unfold Mem.operandBytes at h ⊢
      dsimp only at h ⊢
      split_ifs at h ⊢ with hsib
      · exact place?_sib rsp 0 hp h
      · exact place?_base hp hsib h
    | some index =>
      have hindex : index ≠ rsp := fun hrsp => hm.index_ne_rsp (congrArg some hrsp)
      have hplace := place?_sib index scale hp h
      rwa [if_neg hindex] at hplace

/-- What can be an opcode: one to three bytes, of which the first is no REX byte. -/
structure IsOpcode (bytes : List UInt8) : Prop where
  nonempty : bytes ≠ []
  length_le : bytes.length ≤ 3
  head_ne_rex : ∀ byte ∈ bytes.head?, byte >>> 4 ≠ 4

theorem ofRest_memory {i x : Bool} {code : List UInt8} (half : Bool) (hop : IsOpcode opcode)
    (h : Starts b (before ++ rex w r i x ++ opcode ++ code)) :
    ∃ p, Prefixes.ofRest b half before.length = p ∧ p.rex = rexByte w r i x ∧
      p.length + opcode.length = (before ++ rex w r i x ++ opcode).length := by
  obtain _ | ⟨op, rest⟩ := opcode
  · exact absurd rfl hop.nonempty
  · have hbytes : Starts b (before ++ (rex w r i x ++ [op] ++ (rest ++ code))) := by
      simpa only [List.append_assoc, List.cons_append, List.nil_append] using h
    have hrest : Starts (fun j => b (before.length + j)) (rex w r i x ++ [op] ++ (rest ++ code)) :=
      hbytes.right
    refine ⟨_, ofRest_of_bytes half (hop.head_ne_rex op rfl) hrest.left, rfl, ?_⟩
    rw [List.length_append, List.length_append]

/-- Instructions are read back as they were written. -/
theorem access?_memory (hop : IsOpcode opcode) (hm : m.Encodable)
    (h : Starts b (memory before w opcode reg m)) :
    access? before.length opcode.length b =
      some ⟨w, reg, m.place, (memory before w opcode reg m).length⟩ := by
  unfold memory at h ⊢
  obtain ⟨p, hp, hrex, hlength⟩ := ofRest_memory (0 < before.length) hop h
  have hoperand : Starts (fun i => b (p.length + opcode.length + i)) (m.operandBytes reg) := by
    rw [hlength]
    exact h.right
  obtain ⟨mode, rm, code, hcode, -⟩ := operandBytes_shape m reg
  have hmodrm : b (p.length + opcode.length) = modrm mode (low reg) rm := by
    rw [hcode] at hoperand
    exact hoperand 0 (Nat.succ_pos _)
  have hwide : p.wide = w := by
    rw [Prefixes.wide, hrex, (extract_rexByte ..).1]
  unfold access?
  dsimp only
  rw [hp, place?_operandBytes hm hrex hoperand, Option.map_some, hwide, hmodrm, reg_modrm hrex,
    hlength, ← List.length_append]

/-- Operands of memory are read back as they were written, and bytes that start with such an
instruction start with no other. The displacement of a relative operand comes last. -/
theorem memory_read_back (before : Option UInt8) (opcode : List UInt8) (w : Bool) (reg : Fin 16)
    (m : Mem) (hop : IsOpcode opcode) (hm : m.Encodable) :
    (∀ b, Starts b (memory before.toList w opcode reg m) →
      access? before.toList.length opcode.length b =
        some ⟨w, reg, m.place, (memory before.toList w opcode reg m).length⟩ ∧
      ∀ w' reg' m', Mem.Encodable m' → Starts b (memory before.toList w' opcode reg' m') →
        w' = w ∧ reg' = reg ∧ m'.place = m.place) ∧
    (memory before.toList w opcode reg m).length ≤ 15 ∧
    (m.base = none → imm32 m.disp <:+ memory before.toList w opcode reg m) := by
  refine ⟨fun b hb => ⟨access?_memory hop hm hb, fun w' reg' m' hm' hb' => ?_⟩, ?_, fun hbase => ?_⟩
  · have hread := (access?_memory hop hm' hb').symm.trans (access?_memory hop hm hb)
    rw [Option.some.injEq, Access.mk.injEq] at hread
    exact ⟨hread.1, hread.2.1, hread.2.2.1⟩
  · obtain ⟨mode, rm, code, hcode, hlength⟩ := operandBytes_shape m reg
    have hprefix : before.toList.length ≤ 1 := by cases before <;> simp
    have hrex : (rex w (high reg) (m.index.any high) (m.base.any high)).length ≤ 1 := by
      unfold rex
      split_ifs <;> simp
    have hopcode := hop.length_le
    simp only [memory, List.length_append, hcode, List.length_cons]
    omega
  · have hbytes : m.operandBytes reg = modrm 0 (low reg) 5 :: imm32 m.disp := by
      rw [Mem.operandBytes, hbase]
    rw [memory, hbytes]
    exact (List.suffix_cons ..).trans (List.suffix_append ..)

end

/-- With `r13` for a base and `r12` for an index the SIB byte has the low bits of no index and of no
base, and a displacement of zero takes a byte. -/
theorem memory_read_back_r13_r12 :
    IsOpcode [0x0f, 0x10] ∧ (Mem.indexed 13 12).Encodable ∧
      memory [0xf2] false [0x0f, 0x10] 12 (.indexed 13 12) =
        [0xf2, 0x47, 0x0f, 0x10, 0x64, 0x25, 0] ∧
      ∀ b, Starts b [0xf2, 0x47, 0x0f, 0x10, 0x64, 0x25, 0] →
        access? 1 2 b = some ⟨false, 12, .indexed 13 12 0 0, 7⟩ := by
  have hop : IsOpcode [0x0f, 0x10] := ⟨by decide, by decide, by rintro _ ⟨⟩; decide⟩
  have hm : (Mem.indexed 13 12).Encodable := ⟨by decide, by decide⟩
  refine ⟨hop, hm, by decide, fun b hb => ?_⟩
  exact ((memory_read_back (some 0xf2) _ false 12 _ hop hm).1 b hb).1

end SeaNodes.X64
