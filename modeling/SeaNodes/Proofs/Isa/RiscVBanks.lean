import SeaNodes.Isa.RiscV
import SeaNodes.Proofs.Isa.Banks

namespace SeaNodes

namespace RiscV

def bank : RegClass → RegMask
  | .int => .range 0 32
  | .float => .range 32 64

theorem contains_bank_int {r : Nat} : (bank .int).contains r ↔ r < floatBase := by
  rw [bank, RegMask.contains_range (by decide), and_iff_right r.zero_le]
  rfl

theorem contains_bank_float {r : Nat} :
    (bank .float).contains r ↔ floatBase ≤ r ∧ r < floatBase + 32 := by
  rw [bank, RegMask.contains_range (by decide)]
  rfl

theorem exists_int {r : Reg} (h : (bank .int).contains r) : ∃ n, int r = .ok n := by
  rw [int, int?, if_pos (contains_bank_int.mp h)]
  exact ⟨_, rfl⟩

theorem exists_float {r : Reg} (h : (bank .float).contains r) : ∃ n, float r = .ok n := by
  rw [float, float?, if_pos (contains_bank_float.mp h)]
  exact ⟨_, rfl⟩

theorem contains_of_int {r : Reg} {n : Num} (h : int r = .ok n) : (bank .int).contains r := by
  rw [int, int?] at h
  split_ifs at h with hr
  exact contains_bank_int.mpr hr

theorem exists_number {c : RegClass} {r : Reg} (h : (bank c).contains r) :
    ∃ n, number c r = .ok n := by
  cases c with
  | int => exact exists_int h
  | float => exact exists_float h

/-- How many operands there are at least, if this is one. -/
def Src.count : Src → Nat
  | .use i => i + 1
  | .zero => 0

def Test.classes : Test → List RegClass
  | .int _ a b => List.replicate (max a.count b.count) .int
  | .float _ => [.float, .float]

def hasImm (op : AluOp) : Prop := (opImmOf? op).isSome

theorem exists_src {n : Nat} {regs : OperandRegs}
    (h : InBanks bank (List.replicate n .int) regs.uses) {x : Src} (hx : x.count ≤ n) :
    ∃ m, src regs x = .ok m := by
  cases x with
  | zero => exact ⟨_, rfl⟩
  | use i =>
    refine exists_int (h i _ ?_)
    rw [List.getElem?_replicate, if_pos (Nat.lt_of_succ_le hx)]

theorem exists_loadItems {c : RegClass} {d : Reg} (base : Num) (offset : Int)
    (h : (bank c).contains d) : ∃ is, loadItems c d base offset = .ok is :=
  Except.exists_bind (exists_number h) fun _ => ⟨_, rfl⟩

theorem exists_storeItems {c : RegClass} {u : Reg} (base : Num) (offset : Int)
    (h : (bank c).contains u) : ∃ is, storeItems c u base offset = .ok is :=
  Except.exists_bind (exists_number h) fun _ => ⟨_, rfl⟩

theorem exists_expand (s : Surroundings) (op : MachOp Test) (regs : OperandRegs)
    (himm : ∀ o, op.immOp? = some o → hasImm o)
    (hd : InBanks bank (op.demand Test.classes).defs regs.defs)
    (hu : InBanks bank (op.demand Test.classes).uses regs.uses) :
    ∃ pieces, expand s op regs = .ok pieces := by
  cases op with
  | params | jump | ret | call | callSymbol => exact ⟨_, rfl⟩
  | copy c =>
    cases c with
    | int => exact Except.exists_bind (exists_int (hd 0 _ rfl)) fun _ =>
        Except.exists_bind (exists_int (hu 0 _ rfl)) fun _ => ⟨_, rfl⟩
    | float => exact Except.exists_bind (exists_float (hd 0 _ rfl)) fun _ =>
        Except.exists_bind (exists_float (hu 0 _ rfl)) fun _ => ⟨_, rfl⟩
  | spill | storeArg =>
    exact Except.exists_bind (exists_storeItems _ _ (hu 0 _ rfl)) fun _ => ⟨_, rfl⟩
  | reload | loadParam =>
    exact Except.exists_bind (exists_loadItems _ _ (hd 0 _ rfl)) fun _ => ⟨_, rfl⟩
  | const => exact Except.exists_bind (exists_int (hd 0 _ rfl)) fun _ => ⟨_, rfl⟩
  | loadPool | zeroFloat => exact Except.exists_bind (exists_float (hd 0 _ rfl)) fun _ => ⟨_, rfl⟩
  | alu => exact Except.exists_bind (exists_int (hd 0 _ rfl)) fun _ =>
      Except.exists_bind (exists_int (hu 0 _ rfl)) fun _ =>
        Except.exists_bind (exists_int (hu 1 _ rfl)) fun _ => ⟨_, rfl⟩
  | aluImm o v =>
    refine Except.exists_bind (exists_int (hd 0 _ rfl)) fun _ =>
      Except.exists_bind (exists_int (hu 0 _ rfl)) fun _ => ?_
    obtain ⟨k, hk⟩ := Option.isSome_iff_exists.mp (himm o rfl)
    rw [hk]
    exact ⟨_, rfl⟩
  | neg => exact Except.exists_bind (exists_int (hd 0 _ rfl)) fun _ =>
      Except.exists_bind (exists_int (hu 0 _ rfl)) fun _ => ⟨_, rfl⟩
  | setIf t =>
    cases t with
    | int c a b => exact Except.exists_bind (exists_int (hd 0 _ rfl)) fun _ =>
        Except.exists_bind (exists_src hu (Nat.le_max_left _ _)) fun _ =>
          Except.exists_bind (exists_src hu (Nat.le_max_right _ _)) fun _ => ⟨_, rfl⟩
    | float => exact Except.exists_bind (exists_int (hd 0 _ rfl)) fun _ =>
        Except.exists_bind (exists_float (hu 0 _ rfl)) fun _ =>
          Except.exists_bind (exists_float (hu 1 _ rfl)) fun _ => ⟨_, rfl⟩
  | floatArith => exact Except.exists_bind (exists_float (hd 0 _ rfl)) fun _ =>
      Except.exists_bind (exists_float (hu 0 _ rfl)) fun _ =>
        Except.exists_bind (exists_float (hu 1 _ rfl)) fun _ => ⟨_, rfl⟩
  | toFloat => exact Except.exists_bind (exists_float (hd 0 _ rfl)) fun _ =>
      Except.exists_bind (exists_int (hu 0 _ rfl)) fun _ => ⟨_, rfl⟩
  | load c disp =>
    cases disp with
    | some o => exact Except.exists_bind (exists_int (hu 0 _ rfl)) fun _ =>
        Except.exists_bind (exists_loadItems _ _ (hd 0 _ rfl)) fun _ => ⟨_, rfl⟩
    | none => exact Except.exists_bind (exists_int (hu 0 _ rfl)) fun _ =>
        Except.exists_bind (exists_int (hu 1 _ rfl)) fun _ =>
          Except.exists_bind (exists_loadItems _ _ (hd 0 _ rfl)) fun _ => ⟨_, rfl⟩
  | store c disp =>
    cases disp with
    | some o => exact Except.exists_bind (exists_int (hu 0 _ rfl)) fun _ =>
        Except.exists_bind (exists_storeItems _ _ (hu 1 _ rfl)) fun _ => ⟨_, rfl⟩
    | none => exact Except.exists_bind (exists_int (hu 0 _ rfl)) fun _ =>
        Except.exists_bind (exists_int (hu 1 _ rfl)) fun _ =>
          Except.exists_bind (exists_storeItems _ _ (hu 2 _ rfl)) fun _ => ⟨_, rfl⟩
  | branch t =>
    cases t with
    | int c a b => exact Except.exists_bind (exists_src hu (Nat.le_max_left _ _)) fun _ =>
        Except.exists_bind (exists_src hu (Nat.le_max_right _ _)) fun _ => ⟨_, rfl⟩
    | float => exact Except.exists_bind (exists_float (hu 0 _ rfl)) fun _ =>
        Except.exists_bind (exists_float (hu 1 _ rfl)) fun _ => ⟨_, rfl⟩

theorem classes_intTest (op : CmpOp) (a b : Option Int64) :
    (intTest op a b).1.classes = List.replicate (intTest op a b).2.length .int := by
  unfold intTest
  cases a == some 0 <;> cases b == some 0 <;> cases op <;> rfl

theorem hasImm_of_immediate? {op op' : AluOp} {v v' : Int64}
    (h : immediate? op v = some (op', v')) : hasImm op' := by
  unfold immediate? at h
  cases op with
  | add | sub | and | or | xor =>
    obtain ⟨-, h⟩ := Option.ite_none_right_eq_some.mp h
    exact (Prod.mk.inj (Option.some.inj h)).1 ▸ rfl
  | shl | shr | sar => exact (Prod.mk.inj (Option.some.inj h)).1 ▸ rfl
  | mul | div => exact nomatch h

theorem file_within (c : RegClass) : (file.ofClass c).Within (bank c) := by
  apply RegMask.within_of_diff
  cases c <;> decide

theorem contains_of_branch {c : Cond} {l r : Src} {s : Surroundings} {a b : Nat}
    {regs : OperandRegs} {pieces : List Piece}
    (h : expand s (.branch (.int c l r) a b) regs = .ok pieces) {i : Nat} (hi : Src.use i ∈ [l, r]) :
    (bank .int).contains (regs.uses.getD i 0) := by
  obtain ⟨m, hm, h⟩ := Except.bind_eq_ok h
  obtain ⟨m', hm', -⟩ := Except.bind_eq_ok h
  rcases List.mem_pair.mp hi with rfl | rfl
  · exact contains_of_int hm
  · exact contains_of_int hm'

theorem inBanks_of_branch (op : CmpOp) (x y : Option Int64) {s : Surroundings} {a b : Nat}
    {regs : OperandRegs} {pieces : List Piece}
    (h : expand s (.branch (intTest op x y).1 a b) regs = .ok pieces) :
    InBanks bank (intTest op x y).1.classes regs.uses := by
  unfold intTest at h ⊢
  rcases hx : x == some 0 <;> rcases hy : y == some 0 <;> simp only [hx, hy] at h ⊢
  · cases op <;> exact inBanks_pair (contains_of_branch h (by simp)) (contains_of_branch h (by simp))
  · cases op <;> exact inBanks_singleton (contains_of_branch h (by simp))
  · cases op <;> exact inBanks_singleton (contains_of_branch h (by simp))
  · cases op <;> exact inBanks_nil

/-- The banks of RISC-V. -/
def banks : isa.Banks where
  bank := bank
  test := Test.classes
  hasImm := hasImm
  file := file_within
  apart r hr := by
    rw [← Bool.not_eq_true, contains_bank_float, not_and_or, not_le]
    exact .inl (contains_bank_int.mp hr)
  imm _ _ _ _ := hasImm_of_immediate?
  intTest := classes_intTest
  floatTest _ := rfl
  constrain_op _ := rfl
  constrain_vreg _ o ho := ⟨o, ho, rfl⟩
  constrain _ h := h
  expand := exists_expand
  tested _ _ _ _ _ _ _ _ := inBanks_of_branch _ _ _

end RiscV

end SeaNodes
