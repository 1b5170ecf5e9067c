import SeaNodes.Isa.X64
import SeaNodes.Proofs.Isa.Banks

namespace SeaNodes

namespace X64

def bank : RegClass → RegMask
  | .int => .range 0 16
  | .float => .range 16 32

def Compare.classes : Compare → List RegClass
  | .regs => [.int, .int]
  | .imm _ | .zero => [.int]
  | .float => [.float, .float]

theorem contains_bank_int {r : Nat} : (bank .int).contains r ↔ r < 16 := by
  rw [bank, RegMask.contains_range (by decide), and_iff_right r.zero_le]

theorem contains_bank_float {r : Nat} : (bank .float).contains r ↔ 16 ≤ r ∧ r < 32 := by
  rw [bank, RegMask.contains_range (by decide)]

theorem exists_gpr {r : Reg} (h : (bank .int).contains r) : ∃ g, gpr r = .ok g := by
  rw [gpr, gpr?, dif_pos (contains_bank_int.mp h)]
  exact ⟨_, rfl⟩

theorem exists_xmm {r : Reg} (h : (bank .float).contains r) : ∃ x, xmm r = .ok x := by
  obtain ⟨hlo, hhi⟩ := contains_bank_float.mp h
  have hlow : r - xmmBase < 16 := Nat.sub_lt_left_of_lt_add hlo hhi
  have hbase : ¬ r < xmmBase := Nat.not_lt.mpr hlo
  rw [xmm, xmm?, if_neg hbase, gpr?, dif_pos hlow]
  exact ⟨_, rfl⟩

theorem contains_of_gpr {r : Reg} {g : Gpr} (h : gpr r = .ok g) : (bank .int).contains r := by
  rw [gpr, gpr?] at h
  split_ifs at h with hr
  · exact contains_bank_int.mpr hr
  · exact nomatch h

def Test.classes (t : Test) : List RegClass := t.compare.classes

def hasImm (op : AluOp) : Prop := op ≠ .div

theorem exists_compareItem (c : Compare) (regs : OperandRegs)
    (h : InBanks bank c.classes regs.uses) : ∃ i, compareItem c regs = .ok i := by
  cases c with
  | regs => exact Except.exists_bind (exists_gpr (h 0 _ rfl)) fun _ =>
      Except.exists_bind (exists_gpr (h 1 _ rfl)) fun _ => ⟨_, rfl⟩
  | imm v => exact Except.exists_bind (exists_gpr (h 0 _ rfl)) fun _ => ⟨_, rfl⟩
  | zero => exact Except.exists_bind (exists_gpr (h 0 _ rfl)) fun _ => ⟨_, rfl⟩
  | float => exact Except.exists_bind (exists_xmm (h 0 _ rfl)) fun _ =>
      Except.exists_bind (exists_xmm (h 1 _ rfl)) fun _ => ⟨_, rfl⟩

theorem exists_load {c : RegClass} {d : Reg} (m : Mem) (h : (bank c).contains d) :
    ∃ i, load c d m = .ok i := by
  cases c with
  | int => exact Except.exists_bind (exists_gpr h) fun _ => ⟨_, rfl⟩
  | float => exact Except.exists_bind (exists_xmm h) fun _ => ⟨_, rfl⟩

theorem exists_store {c : RegClass} {u : Reg} (m : Mem) (h : (bank c).contains u) :
    ∃ i, store c m u = .ok i := by
  cases c with
  | int => exact Except.exists_bind (exists_gpr h) fun _ => ⟨_, rfl⟩
  | float => exact Except.exists_bind (exists_xmm h) fun _ => ⟨_, rfl⟩

theorem exists_aluItems (op : AluOp) (regs : OperandRegs) (hd : (bank .int).contains (regs.d 0))
    (hu : (bank .int).contains (regs.u 1)) : ∃ is, aluItems op regs = .ok is := by
  cases op with
  | div => exact Except.exists_bind (exists_gpr hu) fun _ => ⟨_, rfl⟩
  | shl | shr | sar => exact Except.exists_bind (exists_gpr hd) fun _ => ⟨_, rfl⟩
  | _ => exact Except.exists_bind (exists_gpr hd) fun _ =>
      Except.exists_bind (exists_gpr hu) fun _ => ⟨_, rfl⟩

theorem exists_aluImmItem {op : AluOp} (h : hasImm op) (v : Int64) (regs : OperandRegs)
    (hd : (bank .int).contains (regs.d 0)) (hu : (bank .int).contains (regs.u 0)) :
    ∃ i, aluImmItem op v regs = .ok i := by
  refine Except.exists_bind (exists_gpr hd) fun _ => ?_
  cases op with
  | div => exact absurd rfl h
  | mul => exact Except.exists_bind (exists_gpr hu) fun _ => ⟨_, rfl⟩
  | _ => exact ⟨_, rfl⟩

theorem exists_expand (s : Surroundings) (op : MachOp Test) (regs : OperandRegs)
    (himm : ∀ o, op.immOp? = some o → hasImm o)
    (hd : InBanks bank (op.demand Test.classes).defs regs.defs)
    (hu : InBanks bank (op.demand Test.classes).uses regs.uses) :
    ∃ pieces, expand s op regs = .ok pieces := by
  cases op with
  | params | jump | ret | call | callSymbol => exact ⟨_, rfl⟩
  | copy c =>
    cases c with
    | int => exact Except.exists_bind (exists_gpr (hd 0 _ rfl)) fun _ =>
        Except.exists_bind (exists_gpr (hu 0 _ rfl)) fun _ => ⟨_, rfl⟩
    | float => exact Except.exists_bind (exists_xmm (hd 0 _ rfl)) fun _ =>
        Except.exists_bind (exists_xmm (hu 0 _ rfl)) fun _ => ⟨_, rfl⟩
  | spill | storeArg => exact Except.exists_bind (exists_store _ (hu 0 _ rfl)) fun _ => ⟨_, rfl⟩
  | reload | loadParam => exact Except.exists_bind (exists_load _ (hd 0 _ rfl)) fun _ => ⟨_, rfl⟩
  | const | neg => exact Except.exists_bind (exists_gpr (hd 0 _ rfl)) fun _ => ⟨_, rfl⟩
  | loadPool | zeroFloat => exact Except.exists_bind (exists_xmm (hd 0 _ rfl)) fun _ => ⟨_, rfl⟩
  | alu o => exact Except.exists_bind (exists_aluItems o regs (hd 0 _ rfl) (hu 1 _ rfl)) fun _ => ⟨_, rfl⟩
  | aluImm o v =>
    exact Except.exists_bind (exists_aluImmItem (himm o rfl) v regs (hd 0 _ rfl) (hu 0 _ rfl)) fun _ => ⟨_, rfl⟩
  | setIf t => exact Except.exists_bind (exists_compareItem t.compare regs hu) fun _ =>
      Except.exists_bind (exists_gpr (hd 0 _ rfl)) fun _ => ⟨_, rfl⟩
  | floatArith => exact Except.exists_bind (exists_xmm (hd 0 _ rfl)) fun _ =>
      Except.exists_bind (exists_xmm (hu 1 _ rfl)) fun _ => ⟨_, rfl⟩
  | toFloat => exact Except.exists_bind (exists_xmm (hd 0 _ rfl)) fun _ =>
      Except.exists_bind (exists_gpr (hu 0 _ rfl)) fun _ => ⟨_, rfl⟩
  | load c disp =>
    refine Except.exists_bind ?_ fun m => Except.exists_bind (exists_load m (hd 0 _ rfl)) fun _ => ⟨_, rfl⟩
    cases disp with
    | some o => exact Except.exists_bind (exists_gpr (hu 0 _ rfl)) fun _ => ⟨_, rfl⟩
    | none => exact Except.exists_bind (exists_gpr (hu 0 _ rfl)) fun _ =>
        Except.exists_bind (exists_gpr (hu 1 _ rfl)) fun _ => ⟨_, rfl⟩
  | store c disp =>
    refine Except.exists_bind ?_ fun m => Except.exists_bind (exists_store m ?_) fun _ => ⟨_, rfl⟩
    · cases disp with
      | some o => exact Except.exists_bind (exists_gpr (hu 0 _ rfl)) fun _ => ⟨_, rfl⟩
      | none => exact Except.exists_bind (exists_gpr (hu 0 _ rfl)) fun _ =>
          Except.exists_bind (exists_gpr (hu 1 _ rfl)) fun _ => ⟨_, rfl⟩
    · cases disp with
      | some o => exact hu 1 _ rfl
      | none => exact hu 2 c rfl
  | branch t => exact Except.exists_bind (exists_compareItem t.compare regs hu) fun _ => ⟨_, rfl⟩

theorem classes_intTest (op : CmpOp) (a b : Option Int64) :
    (intTest op a b).1.classes = List.replicate (intTest op a b).2.length .int := by
  unfold intTest
  split
  · split <;> rfl
  · rfl
  · rfl

theorem classes_floatTest (op : CmpOp) :
    (floatTest op).1.classes = List.replicate (floatTest op).2.length .float := by
  cases op <;> rfl

theorem hasImm_of_immediate? {op op' : AluOp} {v v' : Int64}
    (h : immediate? op v = some (op', v')) : hasImm op' := by
  unfold immediate? at h
  split_ifs at h with hdiv hshift hfits
  · exact (Prod.mk.inj (Option.some.inj h)).1 ▸ hdiv
  · exact (Prod.mk.inj (Option.some.inj h)).1 ▸ hdiv

theorem inBanks_of_compareItem {t : Compare} (ht : t ≠ .float) {regs : OperandRegs} {i : Item}
    (h : compareItem t regs = .ok i) : InBanks bank t.classes regs.uses := by
  cases t with
  | float => exact absurd rfl ht
  | regs =>
    obtain ⟨a, ha, h⟩ := Except.bind_eq_ok h
    obtain ⟨b, hb, -⟩ := Except.bind_eq_ok h
    exact inBanks_pair (contains_of_gpr ha) (contains_of_gpr hb)
  | imm | zero =>
    obtain ⟨a, ha, -⟩ := Except.bind_eq_ok h
    exact inBanks_singleton (contains_of_gpr ha)

theorem compare_intTest (op : CmpOp) (a b : Option Int64) : (intTest op a b).1.compare ≠ .float := by
  unfold intTest
  split
  · split <;> exact nofun
  · exact nofun
  · exact nofun

theorem exists_vreg_of_zipWith {os : List Operand} {ms : List RegMask} {o : Operand}
    (h : o ∈ os.zipWith (fun o m => { o with mask := m }) ms) : ∃ o' ∈ os, o'.vreg = o.vreg := by
  rw [← List.map_uncurry_zip_eq_zipWith, List.mem_map] at h
  obtain ⟨⟨o', m⟩, hmem, rfl⟩ := h
  exact ⟨o', (List.of_mem_zip hmem).1, rfl⟩

theorem file_within (abi : Abi) (c : RegClass) : ((file abi).ofClass c).Within (bank c) := by
  apply RegMask.within_of_diff
  cases abi <;> cases c <;> decide

/-- Masks for the operands of an operator that stay in the banks of their classes. -/
def Fits (op : MachOp Test) (ds us : List RegMask) : Prop :=
  List.Forall₂ (fun m c => m.Within (bank c)) ds (op.demand Test.classes).defs ∧
    List.Forall₂ (fun m c => m.Within (bank c)) us (op.demand Test.classes).uses

theorem constrain_spec (abi : Abi) (i : Inst Test) : (constrain abi i).op = i.op ∧
    ((constrain abi i).defs = i.defs ∧ (constrain abi i).uses = i.uses ∨
      ∃ ds us, Fits i.op ds us ∧ (constrain abi i).defs = (withMasks i ds us).defs ∧
        (constrain abi i).uses = (withMasks i ds us).uses) := by
  have hint := file_within abi .int
  have hfloat := file_within abi .float
  have hsingle (r : Gpr) : (RegMask.single r).Within (bank .int) := by
    intro q hq
    rw [RegMask.contains_single, Bool.and_eq_true, decide_eq_true_iff] at hq
    exact contains_bank_int.mpr (hq.1 ▸ r.isLt)
  unfold constrain
  cases hop : i.op with
  | alu op =>
    refine ⟨by cases op <;> exact hop, .inr ?_⟩
    cases op with
    | div =>
      exact ⟨_, _, ⟨.cons (hsingle _) .nil, .cons (hsingle _) (.cons ((hint.diff _).diff _) .nil)⟩,
        rfl, rfl⟩
    | shl | shr | sar =>
      exact ⟨_, _, ⟨.cons (hint.diff _) .nil, .cons (hint.diff _) (.cons (hsingle _) .nil)⟩, rfl, rfl⟩
    | _ => exact ⟨_, _, ⟨.cons hint .nil, .cons hint (.cons hint .nil)⟩, rfl, rfl⟩
  | aluImm op k =>
    refine ⟨by cases op <;> exact hop, .inr ?_⟩
    cases op <;> exact ⟨_, _, ⟨.cons hint .nil, .cons hint .nil⟩, rfl, rfl⟩
  | neg => exact ⟨hop, .inr ⟨_, _, ⟨.cons hint .nil, .cons hint .nil⟩, rfl, rfl⟩⟩
  | floatArith op =>
    exact ⟨hop, .inr ⟨_, _, ⟨.cons hfloat .nil, .cons hfloat (.cons hfloat .nil)⟩, rfl, rfl⟩⟩
  | toFloat => exact ⟨hop, .inr ⟨_, _, ⟨.cons hfloat .nil, .cons hint .nil⟩, rfl, rfl⟩⟩
  | setIf _ | branch _ _ _ => exact ⟨rfl, .inl ⟨rfl, rfl⟩⟩
  | _ => exact ⟨hop, .inl ⟨rfl, rfl⟩⟩

theorem encodable_constrain (abi : Abi) {i : Inst Test}
    (h : i.Encodable bank Test.classes hasImm) :
    (constrain abi i).Encodable bank Test.classes hasImm := by
  obtain ⟨hop, ⟨hdefs, huses⟩ | ⟨ds, us, ⟨hd, hu⟩, hdefs, huses⟩⟩ := constrain_spec abi i
  · refine ⟨hop ▸ h.imm, ?_, ?_⟩
    · rw [hop, hdefs]
      exact h.defs
    · rw [hop, huses]
      exact h.uses
  · refine ⟨hop ▸ h.imm, ?_, ?_⟩
    · rw [hop, hdefs]
      exact h.defs.zipWith hd
    · rw [hop, huses]
      exact h.uses.zipWith hu

theorem constrain_vreg (abi : Abi) (i : Inst Test) :
    ∀ o ∈ (constrain abi i).operands, ∃ o' ∈ i.operands, o'.vreg = o.vreg := by
  intro o ho
  obtain ⟨-, ⟨hdefs, huses⟩ | ⟨ds, us, -, hdefs, huses⟩⟩ := constrain_spec abi i
  · rw [Inst.operands, hdefs, huses] at ho
    exact ⟨o, ho, rfl⟩
  · rw [Inst.operands, hdefs, huses] at ho
    rcases List.mem_append.mp ho with ho | ho
    · obtain ⟨o', ho', heq⟩ := exists_vreg_of_zipWith ho
      exact ⟨o', List.mem_append_left _ ho', heq⟩
    · obtain ⟨o', ho', heq⟩ := exists_vreg_of_zipWith ho
      exact ⟨o', List.mem_append_right _ ho', heq⟩

/-- The banks of x86-64. -/
def banks (abi : Abi) : (isa abi).Banks where
  bank := bank
  test := Test.classes
  hasImm := hasImm
  file := file_within abi
  apart r hr := by
    rw [← Bool.not_eq_true, contains_bank_float, not_and_or, not_le]
    exact .inl (contains_bank_int.mp hr)
  imm _ _ _ _ := hasImm_of_immediate?
  intTest := classes_intTest
  floatTest := classes_floatTest
  constrain_op i := (constrain_spec abi i).1
  constrain_vreg := constrain_vreg abi
  constrain _ := encodable_constrain abi
  expand := exists_expand
  tested op x y s a b regs pieces h := by
    obtain ⟨i, hi, -⟩ := Except.bind_eq_ok h
    exact inBanks_of_compareItem (compare_intTest op x y) hi

end X64

end SeaNodes
