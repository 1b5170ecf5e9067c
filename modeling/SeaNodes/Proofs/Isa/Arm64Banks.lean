import SeaNodes.Isa.Arm64
import SeaNodes.Proofs.Isa.Banks

namespace SeaNodes

namespace Arm64

def bank : RegClass → RegMask
  | .int => .range 0 31
  | .float => .range 32 64

theorem contains_bank_int {r : Nat} : (bank .int).contains r ↔ r < 31 := by
  rw [bank, RegMask.contains_range (by decide), and_iff_right r.zero_le]

theorem contains_bank_float {r : Nat} :
    (bank .float).contains r ↔ floatBase ≤ r ∧ r < floatBase + 32 := by
  rw [bank, RegMask.contains_range (by decide)]
  rfl

theorem exists_int {r : Reg} (h : (bank .int).contains r) : ∃ n, int r = .ok n := by
  rw [int, int?, if_pos (contains_bank_int.mp h)]
  exact ⟨_, rfl⟩

theorem exists_float {r : Reg} (h : (bank .float).contains r) : ∃ n, float r = .ok n := by
  rw [float, float?, if_pos (contains_bank_float.mp h)]
  exact ⟨_, rfl⟩

theorem contains_of_int {r : Reg} {n : Num} (h : int r = .ok n) : (bank .int).contains r := by
  rw [int, int?] at h
  split_ifs at h with hr
  exact contains_bank_int.mpr hr

theorem exists_number {c : RegClass} {r : Reg} (h : (bank c).contains r) :
    ∃ n, number c r = .ok n := by
  cases c with
  | int => exact exists_int h
  | float => exact exists_float h

def Test.classes (t : Test) : List RegClass :=
  match t.compare with
  | .regs => [.int, .int]
  | .imm _ => [.int]
  | .float => [.float, .float]

def hasImm (op : AluOp) : Prop := op = .add ∨ op.isShift

theorem exists_compareItem (t : Test) (regs : OperandRegs) (h : InBanks bank t.classes regs.uses) :
    ∃ i, compareItem t.compare regs = .ok i := by
  obtain ⟨c, _⟩ := t
  cases c with
  | regs => exact Except.exists_bind (exists_int (h 0 _ rfl)) fun _ =>
      Except.exists_bind (exists_int (h 1 _ rfl)) fun _ => ⟨_, rfl⟩
  | imm v =>
    refine Except.exists_bind (exists_int (h 0 _ rfl)) fun _ => ?_
    split <;> exact ⟨_, rfl⟩
  | float => exact Except.exists_bind (exists_float (h 0 _ rfl)) fun _ =>
      Except.exists_bind (exists_float (h 1 _ rfl)) fun _ => ⟨_, rfl⟩

theorem exists_indexed (k : Access) {c : RegClass} {t : Reg} (base index : Num)
    (h : (bank c).contains t) : ∃ i, k.indexed c t base index = .ok i :=
  Except.exists_bind (exists_number h) fun _ => ⟨_, rfl⟩

theorem exists_atOffset (k : Access) {c : RegClass} {t : Reg} (base : Num) (offset : Int64)
    (h : (bank c).contains t) : ∃ is, k.atOffset c t base offset = .ok is := by
  unfold Access.atOffset
  split
  · exact Except.exists_bind (exists_number h) fun _ => ⟨_, rfl⟩
  · exact Except.exists_bind (exists_indexed k base scratch h) fun _ => ⟨_, rfl⟩

theorem exists_aluImmItem {op : AluOp} (h : hasImm op) (v : Int64) (regs : OperandRegs)
    (hd : (bank .int).contains (regs.d 0)) (hu : (bank .int).contains (regs.u 0)) :
    ∃ i, aluImmItem op v regs = .ok i := by
  refine Except.exists_bind (exists_int hd) fun _ => Except.exists_bind (exists_int hu) fun _ => ?_
  cases op with
  | add =>
    dsimp only
    split <;> exact ⟨_, rfl⟩
  | shl | shr | sar => exact ⟨_, rfl⟩
  | _ => exact absurd h (by simp [hasImm, AluOp.isShift])

theorem exists_expand (s : Surroundings) (op : MachOp Test) (regs : OperandRegs)
    (himm : ∀ o, op.immOp? = some o → hasImm o)
    (hd : InBanks bank (op.demand Test.classes).defs regs.defs)
    (hu : InBanks bank (op.demand Test.classes).uses regs.uses) :
    ∃ pieces, expand s op regs = .ok pieces := by
  cases op with
  | params | jump | ret | call | callSymbol => exact ⟨_, rfl⟩
  | copy c =>
    cases c with
    | int => exact Except.exists_bind (exists_int (hd 0 _ rfl)) fun _ =>
        Except.exists_bind (exists_int (hu 0 _ rfl)) fun _ => ⟨_, rfl⟩
    | float => exact Except.exists_bind (exists_float (hd 0 _ rfl)) fun _ =>
        Except.exists_bind (exists_float (hu 0 _ rfl)) fun _ => ⟨_, rfl⟩
  | spill | storeArg =>
    exact Except.exists_bind (exists_atOffset _ _ _ (hu 0 _ rfl)) fun _ => ⟨_, rfl⟩
  | reload | loadParam =>
    exact Except.exists_bind (exists_atOffset _ _ _ (hd 0 _ rfl)) fun _ => ⟨_, rfl⟩
  | const => exact Except.exists_bind (exists_int (hd 0 _ rfl)) fun _ => ⟨_, rfl⟩
  | loadPool | zeroFloat => exact Except.exists_bind (exists_float (hd 0 _ rfl)) fun _ => ⟨_, rfl⟩
  | alu => exact Except.exists_bind (exists_int (hd 0 _ rfl)) fun _ =>
      Except.exists_bind (exists_int (hu 0 _ rfl)) fun _ =>
        Except.exists_bind (exists_int (hu 1 _ rfl)) fun _ => ⟨_, rfl⟩
  | aluImm o v =>
    exact Except.exists_bind (exists_aluImmItem (himm o rfl) v regs (hd 0 _ rfl) (hu 0 _ rfl))
      fun _ => ⟨_, rfl⟩
  | neg => exact Except.exists_bind (exists_int (hd 0 _ rfl)) fun _ =>
      Except.exists_bind (exists_int (hu 0 _ rfl)) fun _ => ⟨_, rfl⟩
  | setIf t => exact Except.exists_bind (exists_compareItem t regs hu) fun _ =>
      Except.exists_bind (exists_int (hd 0 _ rfl)) fun _ => ⟨_, rfl⟩
  | floatArith => exact Except.exists_bind (exists_float (hd 0 _ rfl)) fun _ =>
      Except.exists_bind (exists_float (hu 0 _ rfl)) fun _ =>
        Except.exists_bind (exists_float (hu 1 _ rfl)) fun _ => ⟨_, rfl⟩
  | toFloat => exact Except.exists_bind (exists_float (hd 0 _ rfl)) fun _ =>
      Except.exists_bind (exists_int (hu 0 _ rfl)) fun _ => ⟨_, rfl⟩
  | load c disp =>
    cases disp with
    | some o => exact Except.exists_bind (exists_int (hu 0 _ rfl)) fun _ =>
        Except.exists_bind (exists_atOffset _ _ _ (hd 0 _ rfl)) fun _ => ⟨_, rfl⟩
    | none => exact Except.exists_bind (exists_int (hu 0 _ rfl)) fun _ =>
        Except.exists_bind (exists_int (hu 1 _ rfl)) fun _ =>
          Except.exists_bind (exists_indexed _ _ _ (hd 0 _ rfl)) fun _ => ⟨_, rfl⟩
  | store c disp =>
    cases disp with
    | some o => exact Except.exists_bind (exists_int (hu 0 _ rfl)) fun _ =>
        Except.exists_bind (exists_atOffset _ _ _ (hu 1 _ rfl)) fun _ => ⟨_, rfl⟩
    | none => exact Except.exists_bind (exists_int (hu 0 _ rfl)) fun _ =>
        Except.exists_bind (exists_int (hu 1 _ rfl)) fun _ =>
          Except.exists_bind (exists_indexed _ _ _ (hu 2 _ rfl)) fun _ => ⟨_, rfl⟩
  | branch t => exact Except.exists_bind (exists_compareItem t regs hu) fun _ => ⟨_, rfl⟩

theorem classes_intTest (op : CmpOp) (a b : Option Int64) :
    (intTest op a b).1.classes = List.replicate (intTest op a b).2.length .int := by
  unfold intTest
  split <;> rfl

theorem classes_floatTest (op : CmpOp) :
    (floatTest op).1.classes = List.replicate (floatTest op).2.length .float := rfl

theorem hasImm_of_immediate? {op op' : AluOp} {v v' : Int64}
    (h : immediate? op v = some (op', v')) : hasImm op' := by
  unfold immediate? at h
  split at h
  · split_ifs at h
    exact (Prod.mk.inj (Option.some.inj h)).1 ▸ .inl rfl
  · split_ifs at h
    exact (Prod.mk.inj (Option.some.inj h)).1 ▸ .inl rfl
  · exact (Prod.mk.inj (Option.some.inj h)).1 ▸ .inr rfl
  · exact (Prod.mk.inj (Option.some.inj h)).1 ▸ .inr rfl
  · exact (Prod.mk.inj (Option.some.inj h)).1 ▸ .inr rfl
  · exact nomatch h

theorem inBanks_of_compareItem {t : Test} (ht : t.compare ≠ .float) {regs : OperandRegs} {i : Item}
    (h : compareItem t.compare regs = .ok i) : InBanks bank t.classes regs.uses := by
  obtain ⟨c, cond⟩ := t
  cases c with
  | float => exact absurd rfl ht
  | regs =>
    obtain ⟨a, ha, h⟩ := Except.bind_eq_ok h
    obtain ⟨b, hb, -⟩ := Except.bind_eq_ok h
    exact inBanks_pair (contains_of_int ha) (contains_of_int hb)
  | imm =>
    obtain ⟨a, ha, -⟩ := Except.bind_eq_ok h
    exact inBanks_singleton (contains_of_int ha)

theorem compare_intTest (op : CmpOp) (a b : Option Int64) : (intTest op a b).1.compare ≠ .float := by
  unfold intTest
  split <;> exact nofun

theorem file_within (c : RegClass) : (file.ofClass c).Within (bank c) := by
  apply RegMask.within_of_diff
  cases c <;> decide

/-- The banks of AArch64. -/
def banks : isa.Banks where
  bank := bank
  test := Test.classes
  hasImm := hasImm
  file := file_within
  apart r hr := by
    rw [← Bool.not_eq_true, contains_bank_float, not_and_or, not_le]
    exact .inl ((contains_bank_int.mp hr).trans (by decide))
  imm _ _ _ _ := hasImm_of_immediate?
  intTest := classes_intTest
  floatTest := classes_floatTest
  constrain_op i := by
    change (constrain i).op = i.op
    unfold constrain
    split <;> rfl
  constrain_vreg i := by
    change ∀ o ∈ (constrain i).operands, _
    unfold constrain
    split <;> exact fun o ho => ⟨o, ho, rfl⟩
  constrain i h := by
    change (constrain i).Encodable bank Test.classes hasImm
    unfold constrain
    split <;> exact ⟨h.imm, h.defs, h.uses⟩
  expand := exists_expand
  tested op x y s a b regs pieces h := by
    obtain ⟨i, hi, -⟩ := Except.bind_eq_ok h
    exact inBanks_of_compareItem (compare_intTest op x y) hi

end Arm64

end SeaNodes
