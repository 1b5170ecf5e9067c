import SeaNodes.Proofs.Code.Exact
import SeaNodes.Proofs.Hardware.Arm64Branches
import SeaNodes.Proofs.Hardware.RiscVBranches
import SeaNodes.Proofs.Hardware.X64Branches
import SeaNodes.Proofs.Isa.Meaning
import SeaNodes.Proofs.Isa.RiscVWords

namespace SeaNodes

variable {t : Target}

def Target.control (t : Target) : Control t.cpu :=
  match t with
  | ⟨.x64, abi⟩ => X64.control abi
  | ⟨.arm64, _⟩ => Arm64.control
  | ⟨.riscv64, _⟩ => RiscV.control

/-- An instruction leads to a block, by the comparison that a branch was selected for. -/
inductive Target.LeadsTo (t : Target) (s : t.cpu.State) (regs : OperandRegs) :
    MachOp t.isa.1 → Nat → Prop
  | jump (b : Nat) : t.LeadsTo s regs (.jump b) b
  /-- Constants may be part of the instruction; the other operands are in registers. -/
  | int {op : CmpOp} {a b : Option Int64} {x y : Int64} {yes no : Nat} (ha : ∀ c ∈ a, c = x)
      (hb : ∀ c ∈ b, c = y) (hu : ∀ k side, (t.isa.2.intTest op a b).2[k]? = some side →
        t.cpu.int s (regs.u k) = (side.pick x y).toBitVec) :
      t.LeadsTo s regs (.branch (t.isa.2.intTest op a b).1 yes no)
        (if op.evalInt x y then yes else no)
  | float {op : CmpOp} {x y : Double} {yes no : Nat}
      (hu : ∀ k side, (t.isa.2.floatTest op).2[k]? = some side →
        t.cpu.float s (regs.u k) = side.pick x y) :
      t.LeadsTo s regs (.branch (t.isa.2.floatTest op).1 yes no)
        (if op.evalFloat x y then yes else no)

variable {s : t.cpu.State} {regs : OperandRegs} {op : MachOp t.isa.1} {next : Nat}
  {around : Surroundings} {ps : List Piece} {m : Loaded} {stop : Nat}

theorem Target.LeadsTo.holdFields (h : t.LeadsTo s regs op next)
    (hps : t.isa.2.expand around op regs = .ok ps) : HoldFields ps := by
  obtain ⟨arch, abi⟩ := t
  cases arch with
  | x64 =>
    change X64.expand around op regs = .ok ps at hps
    cases h with
    | jump => exact X64.holdFields_jump hps
    | int | float => exact X64.holdFields_branch hps
  | arm64 =>
    change Arm64.expand around op regs = .ok ps at hps
    cases h with
    | jump => exact Arm64.holdFields_jump hps
    | int | float => exact Arm64.holdFields_branch hps
  | riscv64 =>
    change RiscV.expand around op regs = .ok ps at hps
    cases h with
    | jump => exact RiscV.holdFields_jump hps
    | int | float => exact RiscV.holdFields_branch hps

theorem Arm64.bounds_intTest {op : CmpOp} {a b : Option Int64} {v : Int64}
    (h : (intTest op a b).1.compare = .imm v) : -2 ^ 12 < v.toInt ∧ v.toInt < 2 ^ 12 := by
  unfold intTest at h
  split at h
  case h_1 v' hv | h_2 v' hv _ =>
    cases h
    exact bounds_of_fitsImmediate (Option.filter_eq_some_iff.mp hv).2
  case h_3 => cases h

theorem Target.LeadsTo.arrives (h : t.LeadsTo s regs op next)
    (hps : t.isa.2.expand around op regs = .ok ps)
    (hnext : ∀ b, around.fallsTo b → m.place b = stop)
    (heven : t.arch = .riscv64 → ∀ b, 2 ∣ m.base + m.place b) :
    t.control.Arrives m stop ps s (m.place next) := by
  obtain ⟨arch, abi⟩ := t
  cases arch with
  | x64 =>
    change X64.expand around op regs = .ok ps at hps
    cases h with
    | jump => exact X64.arrives_jump hnext hps
    | @int op a b x y yes no ha hb hu =>
      rw [← X64.holds_intTest (u := X64.cpu.readings s regs) a b ha hb hu]
      exact X64.arrives_branch hnext hps
    | @float op x y yes no hu =>
      rw [← X64.holds_floatTest (u := X64.cpu.readings s regs) hu]
      exact X64.arrives_branch hnext hps
  | arm64 =>
    change Arm64.expand around op regs = .ok ps at hps
    cases h with
    | jump => exact Arm64.arrives_jump hnext hps
    | @int op a b x y yes no ha hb hu =>
      rw [← Arm64.holds_intTest (u := Arm64.cpu.readings s regs) a b ha hb hu]
      exact Arm64.arrives_branch hnext (fun _ => Arm64.bounds_intTest) hps
    | @float op x y yes no hu =>
      rw [← Arm64.holds_floatTest (u := Arm64.cpu.readings s regs) hu]
      exact Arm64.arrives_branch hnext (fun v hv => by cases hv) hps
  | riscv64 =>
    change RiscV.expand around op regs = .ok ps at hps
    cases h with
    | jump => exact RiscV.arrives_jump hnext (heven rfl next) hps
    | @int op a b x y yes no ha hb hu =>
      rw [← RiscV.holds_intTest (u := RiscV.cpu.readings s regs) a b ha hb hu]
      exact RiscV.arrives_branch hnext (heven rfl) hps
    | @float op x y yes no hu =>
      rw [← RiscV.holds_floatTest (u := RiscV.cpu.readings s regs) hu]
      exact RiscV.arrives_branch hnext (heven rfl) hps

theorem Target.LeadsTo.expand_eq {a : Allocated t.isa.1} {i : Inst t.isa.1}
    (h : t.LeadsTo s regs i.op next) (hregs : a.operandRegs i = .ok regs)
    (hps : a.instPieces t.isa.2 around i = .ok ps) : t.isa.2.expand around i.op regs = .ok ps := by
  have hcopy : i.isCopy = false := by
    unfold Inst.isCopy
    generalize i.op = op at h
    cases h <;> rfl
  unfold Allocated.instPieces at hps
  rw [hregs] at hps
  change (if (i.isCopy && regs.d 0 == regs.u 0) = true then Except.ok [] else _) = _ at hps
  rwa [hcopy] at hps

theorem Target.kept_control (t : Target) :
    t.control.kept = (t.banks.bank .int).diff t.isa.2.file.scratch := by
  obtain ⟨arch, abi⟩ := t
  cases arch <;> rfl

theorem Target.dvd_place {a : Allocated t.isa.1} {names : Array String} {d : Draft}
    (hd : a.draft t.isa.2 names = .ok d) (long : BitSet) {base start : Nat}
    (hriscv : t.arch = .riscv64) (heven : 2 ∣ base + start) (b : Nat) :
    2 ∣ base + (d.encode long).place start b := by
  obtain ⟨arch, abi⟩ := t
  obtain rfl : arch = .riscv64 := hriscv
  rw [Encoded.place, ← Nat.add_assoc, Array.getD_eq_getD_getElem?]
  refine Nat.dvd_add heven ?_
  cases hoffset : (d.encode long).blocks[b]? with
  | none => exact Nat.dvd_zero 2
  | some offset =>
    have hwords := RiscV.dvd_blocks hd long offset (Array.mem_of_getElem? hoffset)
    exact (show 2 ∣ 4 by decide).trans hwords

/-- The code of an instruction that ends a block takes control to the block that the instruction leads
to, whichever resizable pieces are long and wherever the function is. No register changes but those that
hold no values. -/
theorem branches_arrive (t : Target) {a : Allocated t.isa.1} {names : Array String} {d : Draft}
    (hd : a.draft t.isa.2 names = .ok d) (long : BitSet) {mem : ByteMemory} {image : Array UInt8}
    {base start : Nat} (hmem : mem.Maps base image)
    (hcode : (d.encode long).Resolved image base ((d.encode long).place start) start)
    (heven : t.arch = .riscv64 → 2 ∣ base + start) {i : Nat} {b : MachBlock t.isa.1}
    (hb : a.func.blocks[i]? = some b) {before : List (Inst t.isa.1)} {last : Inst t.isa.1}
    (hlast : b.insts = before ++ [last]) :
    ∃ front ps, d.blocks[i]? = some (front ++ ps) ∧
      a.instPieces t.isa.2 ⟨a.frame, names, i, a.func.blocks.size⟩ last = .ok ps ∧
      ∀ regs s next, a.operandRegs last = .ok regs → t.LeadsTo s regs last.op next →
        t.cpu.pc s = BitVec.ofNat 64 (base + d.behind long start i front) → ∃ s',
          t.cpu.Executes mem (base + d.behind long start i front)
            (base + d.behind long start i (front ++ ps)) s s' ∧
          t.cpu.pc s' = BitVec.ofNat 64 (base + (d.encode long).place start next) ∧
          t.cpu.Keeps ((t.banks.bank .int).diff t.isa.2.file.scratch) s s' := by
  obtain ⟨front, ps, hblock, hfront, hps⟩ := t.isSound_isa.exists_ending hd hb hlast
  refine ⟨front, ps, hblock, hps, fun regs s next hregs hleads hpc => ?_⟩
  have hexpand := hleads.expand_eq hregs hps
  have htidy {qs : List Piece} (hqs : SoundPieces qs) : (d.upTo long i qs).Tidy :=
    Draft.tidy_upTo (t.isSound_isa.draft hd) hqs
  have hresolved := hcode.of_extends (Draft.extends_encode hblock)
    (htidy (hfront.append (t.isSound_isa.instPieces a _ last ps hps)))
  rw [Draft.upTo_append] at hresolved
  have hstand := Encoded.Resolved.standUpTo (hleads.holdFields hexpand) (htidy hfront) hresolved
  rw [← Draft.upTo_append] at hstand
  let m : Loaded := ⟨mem, base, image, (d.encode long).place start, hmem⟩
  have harrives : t.control.Arrives m (d.behind long start i (front ++ ps)) ps s (m.place next) := by
    refine hleads.arrives hexpand (fun b hfalls => ?_) fun hriscv => ?_
    · rw [Surroundings.fallsTo, Bool.and_eq_true, beq_iff_eq, decide_eq_true_iff,
        ← Allocated.length_blocks hd] at hfalls
      obtain ⟨rfl, hlt⟩ := hfalls
      exact Draft.place_succ hblock hlt start
    · exact t.dvd_place hd long hriscv (heven hriscv)
  obtain ⟨s', hexec, hpc', hkeeps⟩ := harrives _ hstand
  have hgoto : t.control.goto s (m.at (d.behind long start i front)) = s := by
    rw [Loaded.at, ← hpc]
    exact t.control.goto_pc s
  rw [t.kept_control] at hkeeps
  exact ⟨s', hgoto ▸ hexec, hpc', hkeeps⟩

def RiscV.comparison : Allocated RiscV.Test where
  index := 0
  func := {
    name := "f"
    blocks := #[
      { insts := [{
          op := .branch (intTest .lt none none).1 2 1, uses := [⟨0, .empty⟩, ⟨1, .empty⟩] }] },
      { insts := [{ op := .ret }] }, { insts := [{ op := .ret }] }] }
  regs := #[10, 11]
  frame := {}

def RiscV.comparisonDraft : Draft where
  index := 0
  name := "f"
  blocks := [[branchPiece .lt 10 11 2], [.fixed (.word ret "ret")], [.fixed (.word ret "ret")]]

/-- From 1 and 2 control gets to the last block, beyond the next one. -/
theorem branches_arrive_oneLessTwo :
    let code := [RiscV.branch .lt 10 11 8, RiscV.ret, RiscV.ret].flatMap bytes32
    let s : RiscV.State := ⟨0, fun r => if r = 10 then 1 else 2, fun _ => .zero⟩
    RiscV.comparison.draft RiscV.isa #["f"] = .ok RiscV.comparisonDraft ∧
      (ByteMemory.ofList code).Maps 0 code.toArray ∧
      (RiscV.comparisonDraft.encode .empty).Resolved code.toArray 0
        ((RiscV.comparisonDraft.encode .empty).place 0) 0 ∧
      ∃ s', RiscV.cpu.Executes (.ofList code) 0 4 s s' ∧ RiscV.cpu.pc s' = 8 := by
  intro code s
  have hd : RiscV.comparison.draft RiscV.isa #["f"] = .ok RiscV.comparisonDraft := rfl
  have hmem : (ByteMemory.ofList code).Maps 0 code.toArray := by
    unfold ByteMemory.Maps
    decide +kernel
  have hcode : (RiscV.comparisonDraft.encode .empty).Resolved code.toArray 0
      ((RiscV.comparisonDraft.encode .empty).place 0) 0 := by
    refine ⟨by decide +kernel, by decide +kernel, by decide +kernel, fun r hr b hb => ?_⟩
    have hrelocs : (RiscV.comparisonDraft.encode .empty).relocs =
        #[⟨0, .rvBranch, .block 2, some 0⟩] := by decide +kernel
    rw [hrelocs, Array.mem_singleton] at hr
    subst hr
    cases hb
    decide +kernel
  refine ⟨hd, hmem, hcode, ?_⟩
  have hb : RiscV.comparison.func.blocks[0]? = some { insts := [] ++ [{
      op := .branch (RiscV.intTest .lt none none).1 2 1, uses := [⟨0, .empty⟩, ⟨1, .empty⟩] }] } := rfl
  obtain ⟨front, ps, hblock, hps, harrives⟩ :=
    branches_arrive ⟨.riscv64, .lp64d⟩ hd .empty hmem hcode (fun _ => by decide) hb rfl
  obtain rfl : ps = [RiscV.branchPiece .lt 10 11 2] := (Except.ok.inj hps).symm
  obtain rfl : front = [] := by
    have hlength := congrArg List.length (Option.some.inj hblock)
    rw [List.length_append] at hlength
    exact List.eq_nil_of_length_eq_zero (Nat.succ.inj hlength).symm
  have hleads : Target.LeadsTo ⟨.riscv64, .lp64d⟩ s ⟨[], [10, 11]⟩
      (.branch (RiscV.intTest .lt none none).1 2 1) 2 := by
    refine @Target.LeadsTo.int ⟨.riscv64, .lp64d⟩ s ⟨[], [10, 11]⟩ .lt none none 1 2 2 1
      (fun c hc => by cases hc) (fun c hc => by cases hc) fun k side hside => ?_
    obtain _ | _ | k := k <;> cases hside <;> rfl
  obtain ⟨s', hexec, hpc, -⟩ := harrives ⟨[], [10, 11]⟩ s 2 rfl hleads rfl
  exact ⟨s', hexec, hpc⟩

end SeaNodes
