import SeaNodes.Proofs.Hardware.Processors
import SeaNodes.Proofs.Select.Integers

namespace SeaNodes

variable {a b : Int64}

theorem toBitVec_ne_zero (hb : b ≠ 0) : b.toBitVec ≠ 0 := fun h => hb (Int64.toBitVec_inj.mp h)

theorem toBitVec_quotient (a b : Int64) :
    (a / b).toBitVec = BitVec.ofInt 64 (a.toBitVec.toInt.tdiv b.toBitVec.toInt) := by
  apply BitVec.eq_of_toInt_eq
  rw [BitVec.toInt_ofInt]
  exact Int64.toInt_div a b

theorem tdiv_overflows_iff {a b : Int} (hlow : -2 ^ 63 ≤ a) (hhigh : a < 2 ^ 63) (hb : b ≠ 0) :
    (a.tdiv b < -2 ^ 63 ∨ 2 ^ 63 ≤ a.tdiv b) ↔ a = -2 ^ 63 ∧ b = -1 := by
  constructor
  · intro h
    by_cases hone : b.natAbs = 1
    · obtain rfl | rfl : b = 1 ∨ b = -1 := by omega
      · rw [Int.tdiv_one] at h
        omega
      · rw [Int.tdiv_neg, Int.tdiv_one] at h
        omega
    · -- other divisors at least halve the dividend
      have habs : (a.tdiv b).natAbs ≤ a.natAbs / 2 := by
        rw [Int.natAbs_tdiv]
        exact Nat.div_le_div_left (by omega) Nat.two_pos
      omega
  · rintro ⟨rfl, rfl⟩
    decide

namespace X64

variable {mem : ByteMemory} {s : State} {g : Gpr}

theorem toInt_signs_append (v : BitVec 64) :
    ((if v.msb then BitVec.allOnes 64 else 0) ++ v).toInt = v.toInt := by
  rw [BitVec.toInt_append, if_neg (by decide), BitVec.toInt_eq_msb_cond v]
  cases v.msb with
  | true =>
    rw [if_pos rfl, if_pos rfl, BitVec.toInt_allOnes]
    omega
  | false => simp

theorem divide?_eq (hb : b ≠ 0) :
    divide? (if a.toBitVec.msb then BitVec.allOnes 64 else 0) a.toBitVec b.toBitVec =
      if a = Int64.minValue ∧ b = -1 then none
      else some ((a / b).toBitVec, .ofInt 64 (a.toInt.tmod b.toInt)) := by
  have hb' : b.toInt ≠ 0 := fun h => hb (Int64.toInt_inj.mp h)
  have hmin : a.toInt = -2 ^ 63 ↔ a = Int64.minValue :=
    Int64.toInt_inj (x := a) (y := Int64.minValue)
  have hone : b.toInt = -1 ↔ b = -1 := Int64.toInt_inj (x := b) (y := -1)
  have hoverflow := tdiv_overflows_iff a.le_toInt a.toInt_lt hb'
  rw [hmin, hone] at hoverflow
  simp only [divide?, toInt_signs_append, toBitVec_ne_zero hb, false_or]
  rw [toBitVec_quotient]
  exact if_congr hoverflow rfl rfl

theorem runs_cqo (h : mem.Holds s.rip (cqo ++ idivReg g)) (hrdx : g ≠ rdx) (hb : b ≠ 0)
    (ha' : s.regs rax = a.toBitVec) (hb' : s.regs g = b.toBitVec) :
    ∃ s', cpu.Runs mem s s' ∧ s'.rip = s.rip + 2 ∧ s'.xmms = s.xmms ∧
      (∀ r, r ≠ rdx → s'.regs r = s.regs r) ∧ cpu.step mem s' =
        if a = Int64.minValue ∧ b = -1 then .fault
        else .next { ((s'.past 3).set rax (a / b).toBitVec).set rdx
          (.ofInt 64 (a.toInt.tmod b.toInt)) with flags := s'.undefined } := by
  have hcqo : cpu.step mem s = .next ((s.past 2).set rdx
      (if a.toBitVec.msb then BitVec.allOnes 64 else 0)) := by
    rw [step_of_decode (decode_cqo h.left), ← ha']
    rfl
  refine ⟨_, .single hcqo, rfl, rfl, fun r hr => State.regs_set_of_ne hr, ?_⟩
  have hidiv : decode (mem.bytesAt ((s.past 2).set rdx
      (if a.toBitVec.msb then BitVec.allOnes 64 else 0)).rip) = some (.idiv g, 3) :=
    decode_idiv h.right
  rw [step_of_decode hidiv]
  simp only [exec, State.regs_set_self, State.regs_set_of_ne hrdx, State.regs_past, hb',
    State.regs_set_of_ne (show rax ≠ rdx by decide), ha', divide?_eq hb]
  split_ifs <;> rfl

theorem runs_div (h : mem.Holds s.rip (cqo ++ idivReg g)) (hrdx : g ≠ rdx) (hb : b ≠ 0)
    (ha' : s.regs rax = a.toBitVec) (hb' : s.regs g = b.toBitVec) :
    if a = Int64.minValue ∧ b = -1 then cpu.Faults mem s
    else ∃ s', cpu.Runs mem s s' ∧ s'.rip = s.rip + 5 ∧ s'.regs rax = (a / b).toBitVec ∧
      (∀ r, r ≠ rax → r ≠ rdx → s'.regs r = s.regs r) ∧ s'.xmms = s.xmms := by
  obtain ⟨s₁, hruns, hrip, hxmms, hregs, hstep⟩ := runs_cqo h hrdx hb ha' hb'
  split_ifs at hstep ⊢
  · exact ⟨s₁, hruns, hstep⟩
  · refine ⟨_, hruns.trans (.single hstep), ?_, ?_, fun r hr hr' => ?_, hxmms⟩
    · change s₁.rip + 3 = _
      rw [hrip, BitVec.add_assoc]
      rfl
    · change (((State.past s₁ 3).set rax (a / b).toBitVec).set rdx
        (.ofInt 64 (a.toInt.tmod b.toInt))).regs rax = _
      rw [State.regs_set_of_ne (by decide), State.regs_set_self]
    · change (((State.past s₁ 3).set rax (a / b).toBitVec).set rdx
        (.ofInt 64 (a.toInt.tmod b.toInt))).regs r = _
      rw [State.regs_set_of_ne hr', State.regs_set_of_ne hr]
      exact hregs r hr'

end X64

namespace Arm64

variable {mem : ByteMemory} {s : State} {d n m : Num}

theorem divide_eq (hb : b ≠ 0) : divide a.toBitVec b.toBitVec = (a / b).toBitVec := by
  rw [divide, if_neg (toBitVec_ne_zero hb), toBitVec_quotient]

theorem runs_div (h : mem.Holds s.pc (bytes32 (Op3.sdiv.encode d n m))) (hd : d.toNat < 2 ^ 5)
    (hn : n.toNat < 2 ^ 5) (hm : m.toNat < 2 ^ 5) (hb : b ≠ 0)
    (ha' : s.get (regOf n) = a.toBitVec) (hb' : s.get (regOf m) = b.toBitVec) :
    cpu.Runs mem s ((s.goto (s.pc + 4)).set (regOf d) (a / b).toBitVec) := by
  have hdecode : decode (mem.word s.pc) = some (.sdiv (regOf d) (regOf n) (regOf m)) :=
    h.word.symm ▸ decode_sdiv hd hn hm
  refine .single ((step_of_decode hdecode).trans ?_)
  rw [exec, ha', hb', divide_eq hb]

end Arm64

namespace RiscV

variable {mem : ByteMemory} {s : State} {d n m : Num}

theorem divide_eq (hb : b ≠ 0) : divide a.toBitVec b.toBitVec = (a / b).toBitVec := by
  rw [divide, if_neg (toBitVec_ne_zero hb), toBitVec_quotient]

theorem runs_div (h : mem.Holds s.pc (bytes32 (Op3.div.encode d n m))) (hd : d.toNat < 2 ^ 5)
    (hn : n.toNat < 2 ^ 5) (hm : m.toNat < 2 ^ 5) (hb : b ≠ 0)
    (ha' : s.get (regOf n) = a.toBitVec) (hb' : s.get (regOf m) = b.toBitVec) :
    cpu.Runs mem s ((s.goto (s.pc + 4)).set (regOf d) (a / b).toBitVec) := by
  have hdecode : decode (mem.word s.pc) = some (.div (regOf d) (regOf n) (regOf m)) :=
    h.word.symm ▸ decode_div hd hn hm
  refine .single ((step_of_decode hdecode).trans ?_)
  rw [exec, ha', hb', divide_eq hb]

end RiscV

theorem selectNode_div (t : Target) {g : Graph} {n : NodeId} (h : g.op n = .arith .div)
    (succs : List Nat) : Select.selectNode t.isa.2 g succs n =
      Select.emitValue t.isa.2 g n (.alu .div) [g.input n 1, g.input n 2] := by
  have himm : t.isa.2.immediate? .div = fun _ => none := by
    obtain ⟨arch, abi⟩ := t
    cases arch <;> rfl
  simp only [Select.selectNode, h, Select.selectAlu, AluOp.ofArith, AluOp.isCommutative, himm,
    Option.bind_fun_none]
  rfl

/-- The instruction that is selected for a division of integers. -/
def Isa.division {τ : Type} (isa : Isa τ) (f : MachFunction τ) (d x y : VReg) (e : Edge) : Inst τ :=
  Select.instOf isa f (.alu .div) e [d] [x, y]

theorem exists_division (t : Target) {g : Graph} {n : NodeId} (h : g.op n = .arith .div)
    {succs : List Nat} {st st' : Select.State t.isa.1}
    (hrun : (Select.selectNode t.isa.2 g succs n).run st = .ok ((), st')) : ∃ x y d st₁ st₂,
      (Select.value t.isa.2 g (g.input n 1)).run st = .ok (x, st₁) ∧
      (Select.value t.isa.2 g (g.input n 2)).run st₁ = .ok (y, st₂) ∧
      st'.out = st₂.out.push (t.isa.2.division st'.func d x y n) ∧
      st'.values = st₂.values.set n (some d) := by
  rw [selectNode_div t h, Select.emitValue, List.mapM_cons, List.mapM_cons, List.mapM_nil] at hrun
  simp only [bind_assoc, pure_bind] at hrun
  rw [StateT.run_bind] at hrun
  obtain ⟨⟨x, st₁⟩, hx, hrun⟩ := Except.bind_eq_ok hrun
  rw [StateT.run_bind] at hrun
  obtain ⟨⟨y, st₂⟩, hy, hrun⟩ := Except.bind_eq_ok hrun
  rw [StateT.run_bind] at hrun
  obtain ⟨⟨d, st₃⟩, hd, hrun⟩ := Except.bind_eq_ok hrun
  rw [Select.run_emitOp] at hrun
  cases hd
  cases hrun
  exact ⟨x, y, _, st₁, st₂, hx, hy, rfl, rfl⟩

/-- Code divides: it leaves the quotient in the register of the def and changes no register but those
that the instruction may. -/
def Divides (t : Target) (i : Inst t.isa.1) (regs : OperandRegs) (mem : ByteMemory) (s : t.cpu.State)
    (code : List UInt8) (q : Int64) : Prop :=
  ∃ s', t.cpu.Runs mem s s' ∧ t.cpu.pc s' = t.cpu.pc s + BitVec.ofNat 64 code.length ∧
    t.cpu.int s' (regs.d 0) = q.toBitVec ∧
    (∀ r, (t.banks.bank .int).contains r → r ≠ regs.d 0 → i.kill.contains r = false →
      t.cpu.int s' r = t.cpu.int s r) ∧ t.cpu.float s' = t.cpu.float s

/-- The code of a division divides, or faults for the quotient that x86-64 has no room for. -/
def DividesOrFaults (t : Target) (i : Inst t.isa.1) (regs : OperandRegs) (code : List UInt8)
    (a b : Int64) : Prop :=
  ∀ mem s, mem.Holds (t.cpu.pc s) code → t.cpu.int s (regs.u 0) = a.toBitVec →
    t.cpu.int s (regs.u 1) = b.toBitVec →
    if t.arch = .x64 ∧ a = Int64.minValue ∧ b = -1 then t.cpu.Faults mem s
    else Divides t i regs mem s code (a / b)

variable {around : Surroundings} {d x y : VReg} {e : Edge} {regs : OperandRegs} {abi : Abi}

theorem X64.division_divides {f : MachFunction Test} (hb : b ≠ 0)
    (h : ((isa abi).division f d x y e).Placed regs) :
    ∃ items : List Item, (isa abi).expand around (.alu .div) regs = .ok (items.map .fixed) ∧
      DividesOrFaults ⟨.x64, abi⟩ ((isa abi).division f d x y e) regs (items.flatMap (·.bytes))
        a b := by
  have hd : regs.d 0 = 0 := RegMask.eq_of_contains_single (h.defs 0 _ rfl)
  have hx : regs.u 0 = 0 := (h.tied 0 rfl).symm.trans hd
  obtain ⟨hy, hrdx⟩ := RegMask.contains_diff_single (h.uses 1 _ rfl)
  obtain ⟨hy, -⟩ := RegMask.contains_diff_single hy
  obtain ⟨g, hg⟩ := exists_gpr (file_within abi .int _ hy)
  have hexpand : (isa abi).expand around (.alu .div) regs =
      .ok ([{ bytes := cqo, text := "cqo" }, { bytes := idivReg g, text := "idiv " ++ g.name }].map
        Piece.fixed) := by
    change expand around (.alu .div) regs = _
    simp only [expand, aluItems, hg]
    rfl
  refine ⟨_, hexpand, fun mem s hmem ha' hb' => ?_⟩
  have hrax : s.regs rax = a.toBitVec := by
    rw [← ha', hx]
    rfl
  have hdivisor : s.regs g = b.toBitVec := (int_of_gpr hg).symm.trans hb'
  have hg' : g ≠ rdx := fun heq => hrdx ((val_of_gpr hg).symm.trans (congrArg Fin.val heq))
  have hdiv := runs_div hmem hg' hb hrax hdivisor
  simp only [true_and]
  split_ifs at hdiv ⊢
  · exact hdiv
  · obtain ⟨s', hruns, hrip, hq, hregs, hxmms⟩ := hdiv
    refine ⟨s', hruns, hrip, ?_, fun r hr hr' hkill => ?_, ?_⟩
    · rw [← hq, hd]
      rfl
    · obtain ⟨k, hk⟩ := exists_gpr hr
      have hne : r ≠ rdx := by
        rintro rfl
        change ((RegMask.single rdx).union (file abi).flagMask).contains rdx = false at hkill
        rw [RegMask.contains_union, RegMask.contains_single] at hkill
        cases hkill
      refine (int_of_gpr hk).trans ((hregs k ?_ ?_).trans (int_of_gpr hk).symm)
      · exact fun heq => hr' ((val_of_gpr hk).symm.trans ((congrArg Fin.val heq).trans hd.symm))
      · exact fun heq => hne ((val_of_gpr hk).symm.trans (congrArg Fin.val heq))
    · funext r
      change (xmm? r).elim Double.zero _ = _
      rw [hxmms]
      rfl

theorem Arm64.division_divides {f : MachFunction Test} (hb : b ≠ 0)
    (hclass : ∀ v ∈ [d, x, y], f.classOf v = .int) (h : (isa.division f d x y e).Placed regs) :
    ∃ items : List Item, isa.expand around (.alu .div) regs = .ok (items.map .fixed) ∧
      DividesOrFaults ⟨.arm64, abi⟩ (isa.division f d x y e) regs (items.flatMap (·.bytes)) a b := by
  have hd : file.int.contains (regs.d 0) := by
    have hd := h.defs 0 _ rfl
    rwa [Select.operandOf, hclass d (by simp)] at hd
  have hx : file.int.contains (regs.u 0) := by
    have hx := h.uses 0 _ rfl
    rwa [Select.operandOf, hclass x (by simp)] at hx
  have hy : file.int.contains (regs.u 1) := by
    have hy := h.uses 1 _ rfl
    rwa [Select.operandOf, hclass y (by simp)] at hy
  obtain ⟨rd, hrd⟩ := exists_int (file_within .int _ hd)
  obtain ⟨rn, hrn⟩ := exists_int (file_within .int _ hx)
  obtain ⟨rm, hrm⟩ := exists_int (file_within .int _ hy)
  have hexpand : isa.expand around (.alu .div) regs =
      .ok ([Item.word (Op3.sdiv.encode rd rn rm) (listText "sdiv"
        [rname (regs.d 0), rname (regs.u 0), rname (regs.u 1)])].map Piece.fixed) := by
    change expand around (.alu .div) regs = _
    simp only [expand, hrd, hrn, hrm]
    rfl
  refine ⟨_, hexpand, fun mem s hmem ha' hb' => ?_⟩
  rw [if_neg fun h => by cases h.1]
  have hruns := runs_div (s := s) hmem (lt_of_int hrd) (lt_of_int hrn) (lt_of_int hrm) hb
    ((int_of_int hrn).symm.trans ha') ((int_of_int hrm).symm.trans hb')
  refine ⟨_, hruns, State.pc_set, ?_, fun r hr hr' _ => ?_, ?_⟩
  · exact (int_of_int hrd).trans (State.get_set_self (regOf_ne_of_int hrd))
  · obtain ⟨k, hk⟩ := exists_int hr
    refine (int_of_int hk).trans ((State.get_set_of_ne fun heq => ?_).trans (int_of_int hk).symm)
    exact hr' (eq_of_regOf_eq hk hrd heq)
  · funext r
    exact congrFun State.d_set _

theorem RiscV.division_divides {f : MachFunction Test} (hb : b ≠ 0)
    (hclass : ∀ v ∈ [d, x, y], f.classOf v = .int) (h : (isa.division f d x y e).Placed regs) :
    ∃ items : List Item, isa.expand around (.alu .div) regs = .ok (items.map .fixed) ∧
      DividesOrFaults ⟨.riscv64, abi⟩ (isa.division f d x y e) regs (items.flatMap (·.bytes))
        a b := by
  have hd : file.int.contains (regs.d 0) := by
    have hd := h.defs 0 _ rfl
    rwa [Select.operandOf, hclass d (by simp)] at hd
  have hx : file.int.contains (regs.u 0) := by
    have hx := h.uses 0 _ rfl
    rwa [Select.operandOf, hclass x (by simp)] at hx
  have hy : file.int.contains (regs.u 1) := by
    have hy := h.uses 1 _ rfl
    rwa [Select.operandOf, hclass y (by simp)] at hy
  obtain ⟨rd, hrd⟩ := exists_int (file_within .int _ hd)
  obtain ⟨rn, hrn⟩ := exists_int (file_within .int _ hx)
  obtain ⟨rm, hrm⟩ := exists_int (file_within .int _ hy)
  have hexpand : isa.expand around (.alu .div) regs =
      .ok ([Item.word (Op3.div.encode rd rn rm) (listText "div"
        [rname (regs.d 0), rname (regs.u 0), rname (regs.u 1)])].map Piece.fixed) := by
    change expand around (.alu .div) regs = _
    simp only [expand, hrd, hrn, hrm]
    rfl
  have hzero : regOf rd ≠ 0 := by
    intro heq
    have hnat := toNat_regOf (lt_of_int hrd)
    rw [← (toNat_of_int hrd).1, ← hnat, heq] at hd
    exact absurd hd (by decide)
  refine ⟨_, hexpand, fun mem s hmem ha' hb' => ?_⟩
  rw [if_neg fun h => by cases h.1]
  have hruns := runs_div (s := s) hmem (lt_of_int hrd) (lt_of_int hrn) (lt_of_int hrm) hb
    ((int_of_int hrn).symm.trans ha') ((int_of_int hrm).symm.trans hb')
  refine ⟨_, hruns, State.pc_set, ?_, fun r hr hr' _ => ?_, ?_⟩
  · exact (int_of_int hrd).trans (State.get_set_self hzero)
  · obtain ⟨k, hk⟩ := exists_int hr
    refine (int_of_int hk).trans ((State.get_set_of_ne fun heq => ?_).trans (int_of_int hk).symm)
    exact hr' (eq_of_regOf_eq hk hrd heq)
  · funext r
    exact congrFun State.f_set _

/-- Integer division, of which there is one meaning: the folding of constants, the evaluator and the
code of every target agree on the quotient, but for the one that x86-64 has no room for and faults. -/
theorem division_agrees (a : Int64) (hb : b ≠ 0) :
    Ty.arith .div (.int a a) (.int b b) = .int (a / b) (a / b) ∧
    (∀ (act : Activation) n, act.graph.op n = .arith .div →
      act.get (act.graph.input n 1) = .ok (.int a) → act.get (act.graph.input n 2) = .ok (.int b) →
      ∀ call m, Machine.stepNode call m act n = (.ok (some (.int (a / b))), m)) ∧
    ∀ t : Target,
      (∀ g n succs st st', g.op n = .arith .div →
        (Select.selectNode t.isa.2 g succs n).run st = .ok ((), st') → ∃ x y d st₁ st₂,
          (Select.value t.isa.2 g (g.input n 1)).run st = .ok (x, st₁) ∧
          (Select.value t.isa.2 g (g.input n 2)).run st₁ = .ok (y, st₂) ∧
          st'.out = st₂.out.push (t.isa.2.division st'.func d x y n) ∧
          st'.values = st₂.values.set n (some d)) ∧
      ∀ around f d x y e regs, (∀ v ∈ [d, x, y], f.classOf v = .int) →
        (t.isa.2.division f d x y e).Placed regs → ∃ items : List Item,
          t.isa.2.expand around (.alu .div) regs = .ok (items.map .fixed) ∧
          DividesOrFaults t (t.isa.2.division f d x y e) regs (items.flatMap (·.bytes)) a b := by
  refine ⟨?_, fun act n hop hx hy call m => ?_, fun t => ⟨fun g n succs st st' h hrun => ?_, ?_⟩⟩
  · have hconst : (a == a && b == b && b != 0) = true := by simp [hb]
    exact if_pos hconst
  · have hint : (act.graph.op n).isOnIntegers := by
      rw [hop]
      rfl
    rw [Activation.stepNode_eq_pureValue hint,
      Activation.pureValue_arith hop hx hy fun _ => hb]
    rfl
  · exact exists_division t h hrun
  · intro around f d x y e regs hclass h
    obtain ⟨arch, abi⟩ := t
    cases arch with
    | x64 => exact X64.division_divides hb h
    | arm64 => exact Arm64.division_divides hb hclass h
    | riscv64 => exact RiscV.division_divides hb hclass h

/-- 7 by -2 on RISC-V. -/
theorem division_agrees_sevenHalves :
    let code := bytes32 (RiscV.Op3.div.encode 10 11 12)
    let s : RiscV.State := ⟨0, fun r => if r = 11 then 7 else -2, fun _ => .zero⟩
    (-2 : Int64) ≠ 0 ∧ Ty.arith .div (.int 7 7) (.int (-2) (-2)) = .int (-3) (-3) ∧
      ∃ s', RiscV.cpu.Runs (.ofList code) s s' ∧ RiscV.cpu.int s' 10 = (-3 : Int64).toBitVec := by
  intro code s
  have hb : (-2 : Int64) ≠ 0 := by decide
  let f : MachFunction RiscV.Test := { name := "halves", vregs := Array.replicate 3 ⟨.int, false⟩ }
  have hplaced : (RiscV.isa.division f 0 1 2 none).Placed { defs := [10], uses := [11, 12] } := by
    refine ⟨fun k o h => ?_, fun k o h => ?_, fun k hk => by cases hk⟩
    · obtain _ | k := k
      · cases h
        decide
      · cases h
    · obtain _ | _ | k := k
      · cases h
        decide
      · cases h
        decide
      · cases h
  obtain ⟨hfold, -, htarget⟩ := division_agrees 7 hb
  obtain ⟨items, hexpand, hdivides⟩ := (htarget ⟨.riscv64, .lp64d⟩).2 ⟨{}, #[], 0, 1⟩ f 0 1 2 none
    { defs := [10], uses := [11, 12] } (by decide) hplaced
  have hitems : items.map Piece.fixed =
      [Item.word (RiscV.Op3.div.encode 10 11 12) "div a0, a1, a2"].map Piece.fixed :=
    (Except.ok.inj hexpand).symm
  obtain rfl := List.map_injective_iff.mpr (fun _ _ => Piece.fixed.inj) hitems
  obtain ⟨s', hruns, -, hq, -⟩ := hdivides (.ofList code) s (ByteMemory.holds_ofList (by decide)) rfl rfl
  exact ⟨hb, hfold, s', hruns, hq⟩

/-- The smallest integer by -1 is folded to itself, and faults on x86-64. -/
theorem minimum_by_minusOne_faults :
    let code := X64.cqo ++ X64.idivReg 1
    let s : X64.State := ⟨0, fun r => if r = 0 then Int64.minValue.toBitVec else -1,
      fun _ => .zero, ⟨false, false, false, false, false⟩, ⟨false, false, false, false, false⟩⟩
    (-1 : Int64) ≠ 0 ∧ X64.cpu.int s 0 = Int64.minValue.toBitVec ∧ X64.cpu.int s 1 = -1 ∧
      Ty.arith .div (.int Int64.minValue Int64.minValue) (.int (-1) (-1)) =
        .int Int64.minValue Int64.minValue ∧ X64.cpu.Faults (.ofList code) s := by
  intro code s
  have hmem : (ByteMemory.ofList code).Holds 0 code := ByteMemory.holds_ofList (by decide)
  have hfaults := X64.runs_div (a := Int64.minValue) (b := -1) (s := s) (g := 1) hmem (by decide)
    (by decide) rfl rfl
  rw [if_pos ⟨rfl, rfl⟩] at hfaults
  exact ⟨by decide, rfl, rfl, by decide, hfaults⟩

end SeaNodes
