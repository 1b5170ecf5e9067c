import SeaNodes.Proofs.Hardware.Arm64
import SeaNodes.Proofs.Hardware.RiscV
import SeaNodes.Proofs.Hardware.X64
import SeaNodes.Proofs.Select.Accepted

namespace SeaNodes

def Target.cpu (t : Target) : Cpu :=
  match t.arch with
  | .x64 => X64.cpu
  | .arm64 => Arm64.cpu
  | .riscv64 => RiscV.cpu

/-- The operands of an instruction are in registers that it allows, and a tied use is where the first
def is. -/
structure Inst.Placed {τ : Type} (i : Inst τ) (regs : OperandRegs) : Prop where
  defs : ∀ k (o : Operand), i.defs[k]? = some o → o.mask.contains (regs.d k)
  uses : ∀ k (o : Operand), i.uses[k]? = some o → o.mask.contains (regs.u k)
  tied : ∀ k ∈ i.tied, regs.d 0 = regs.u k

variable {r : Reg}

theorem RegMask.contains_diff_single {m : RegMask} {r q : Reg}
    (h : (m.diff (.single r)).contains q) : m.contains q ∧ q ≠ r := by
  rw [contains_diff, Bool.and_eq_true, contains_single] at h
  refine ⟨h.1, fun hq => ?_⟩
  simp [hq, hq ▸ lt_of_contains h.1] at h

theorem RegMask.eq_of_contains_single {r q : Reg} (h : (single r).contains q) : q = r := by
  rw [contains_single, Bool.and_eq_true, decide_eq_true_iff] at h
  exact h.1.symm

namespace X64

variable {g : Fin 16} {s : State}

theorem val_of_gpr (h : gpr r = .ok g) : g.val = r := by
  rw [gpr, gpr?] at h
  split_ifs at h with hr
  · cases h
    rfl
  · cases h

theorem int_of_gpr (h : gpr r = .ok g) : cpu.int s r = s.regs g := by
  rw [gpr] at h
  cases hg : gpr? r with
  | none =>
    rw [hg] at h
    cases h
  | some g' =>
    rw [hg] at h
    cases h
    change (gpr? r).elim 0 s.regs = _
    rw [hg]
    rfl

theorem float_of_xmm (h : xmm r = .ok g) : cpu.float s r = s.xmms g := by
  rw [xmm] at h
  cases hg : xmm? r with
  | none =>
    rw [hg] at h
    cases h
  | some g' =>
    rw [hg] at h
    cases h
    change (xmm? r).elim Double.zero s.xmms = _
    rw [hg]
    rfl

end X64

namespace Arm64

variable {r' : Reg} {n n' : Num} {s : State}

theorem toNat_of_int (h : int r = .ok n) : n.toNat = r ∧ n.toNat < 31 := by
  rw [int, int?] at h
  split_ifs at h with hr
  cases h
  have hnat : (UInt32.ofNat r).toNat = r := Nat.mod_eq_of_lt (hr.trans (by decide))
  exact ⟨hnat, hnat.trans_lt hr⟩

theorem toNat_of_float (h : float r = .ok n) : n.toNat = r - floatBase ∧ n.toNat < 32 := by
  rw [float, float?] at h
  split_ifs at h with hr
  cases h
  have hlt : r - floatBase < 32 := Nat.sub_lt_left_of_lt_add hr.1 hr.2
  have hnat : (UInt32.ofNat (r - floatBase)).toNat = r - floatBase :=
    Nat.mod_eq_of_lt (hlt.trans (by decide))
  exact ⟨hnat, hnat.trans_lt hlt⟩

theorem lt_of_int (h : int r = .ok n) : n.toNat < 2 ^ 5 := (toNat_of_int h).2.trans (by decide)

theorem regOf_eq {k : Nat} (h : n.toNat = k) (hk : n.toNat < 2 ^ 5) : regOf n = BitVec.ofNat 5 k := by
  apply BitVec.eq_of_toNat_eq
  rw [toNat_regOf hk, BitVec.toNat_ofNat, ← h, Nat.mod_eq_of_lt hk]

theorem int_of_int (h : int r = .ok n) : cpu.int s r = s.get (regOf n) := by
  rw [regOf_eq (toNat_of_int h).1 (lt_of_int h)]

theorem float_of_float (h : float r = .ok n) : cpu.float s r = s.d (regOf n) := by
  obtain ⟨hnat, hlt⟩ := toNat_of_float h
  rw [regOf_eq hnat hlt]

theorem regOf_ne_of_int (h : int r = .ok n) : regOf n ≠ 31 := by
  intro heq
  have hnat := toNat_regOf (lt_of_int h)
  rw [heq] at hnat
  exact (toNat_of_int h).2.ne hnat.symm

theorem eq_of_regOf_eq (h : int r = .ok n) (h' : int r' = .ok n') (heq : regOf n = regOf n') :
    r = r' := by
  rw [← (toNat_of_int h).1, ← (toNat_of_int h').1, ← toNat_regOf (lt_of_int h), heq,
    toNat_regOf (lt_of_int h')]

end Arm64

namespace RiscV

variable {r' : Reg} {n n' : Num} {s : State}

theorem toNat_of_int (h : int r = .ok n) : n.toNat = r ∧ n.toNat < 32 := by
  rw [int, int?] at h
  split_ifs at h with hr
  cases h
  have hnat : (UInt32.ofNat r).toNat = r := Nat.mod_eq_of_lt (hr.trans (by decide))
  exact ⟨hnat, hnat.trans_lt hr⟩

theorem toNat_of_float (h : float r = .ok n) : n.toNat = r - floatBase ∧ n.toNat < 32 := by
  rw [float, float?] at h
  split_ifs at h with hr
  cases h
  have hlt : r - floatBase < 32 := Nat.sub_lt_left_of_lt_add hr.1 hr.2
  have hnat : (UInt32.ofNat (r - floatBase)).toNat = r - floatBase :=
    Nat.mod_eq_of_lt (hlt.trans (by decide))
  exact ⟨hnat, hnat.trans_lt hlt⟩

theorem lt_of_int (h : int r = .ok n) : n.toNat < 2 ^ 5 := (toNat_of_int h).2

theorem regOf_eq {k : Nat} (h : n.toNat = k) (hk : n.toNat < 2 ^ 5) : regOf n = BitVec.ofNat 5 k := by
  apply BitVec.eq_of_toNat_eq
  rw [toNat_regOf hk, BitVec.toNat_ofNat, ← h, Nat.mod_eq_of_lt hk]

theorem int_of_int (h : int r = .ok n) : cpu.int s r = s.get (regOf n) := by
  rw [regOf_eq (toNat_of_int h).1 (lt_of_int h)]

theorem float_of_float (h : float r = .ok n) : cpu.float s r = s.f (regOf n) := by
  obtain ⟨hnat, hlt⟩ := toNat_of_float h
  rw [regOf_eq hnat hlt]

theorem eq_of_regOf_eq (h : int r = .ok n) (h' : int r' = .ok n') (heq : regOf n = regOf n') :
    r = r' := by
  rw [← (toNat_of_int h).1, ← (toNat_of_int h').1, ← toNat_regOf (lt_of_int h), heq,
    toNat_regOf (lt_of_int h')]

end RiscV

end SeaNodes
