import SeaNodes.Isa.Basic
import SeaNodes.Proofs.Tables

namespace SeaNodes

variable {τ : Type}

/-- The classes of the registers that the operands of an operation have to be in. -/
structure Demand where
  defs : List RegClass := []
  uses : List RegClass := []

/-- The address of a load or store: a base, and an offset if it is no constant. -/
def addressClasses : Option Int64 → List RegClass
  | some _ => [.int]
  | none => [.int, .int]

/-- What an operation demands; `test` says what its test reads. -/
def MachOp.demand (test : τ → List RegClass) : MachOp τ → Demand
  | .params | .jump _ | .ret | .call _ | .callSymbol _ => {}
  | .copy c => { defs := [c], uses := [c] }
  | .spill c _ | .storeArg c _ => { uses := [c] }
  | .reload c _ | .loadParam c _ => { defs := [c] }
  | .const _ => { defs := [.int] }
  | .loadPool _ | .zeroFloat => { defs := [.float] }
  | .alu _ => { defs := [.int], uses := [.int, .int] }
  | .aluImm .. | .neg => { defs := [.int], uses := [.int] }
  | .setIf t => { defs := [.int], uses := test t }
  | .floatArith _ => { defs := [.float], uses := [.float, .float] }
  | .toFloat => { defs := [.float], uses := [.int] }
  | .load c disp => { defs := [c], uses := addressClasses disp }
  | .store c disp => { uses := addressClasses disp ++ [c] }
  | .branch t _ _ => { uses := test t }

/-- The integer operation on a constant that the target has to have an instruction for. -/
def MachOp.immOp? : MachOp τ → Option AluOp
  | .aluImm op _ => some op
  | _ => none

def InBanks (bank : RegClass → RegMask) (classes : List RegClass) (regs : List Reg) : Prop :=
  ∀ (k : Nat) c, classes[k]? = some c → (bank c).contains (regs.getD k 0)

section

variable {bank : RegClass → RegMask} {c c' : RegClass} {regs : List Reg}

theorem inBanks_nil : InBanks bank [] regs := fun _ _ h => nomatch h

theorem inBanks_singleton (h : (bank c).contains (regs.getD 0 0)) : InBanks bank [c] regs := by
  rintro (_ | k) d hk
  · exact Option.some.inj hk ▸ h
  · exact nomatch hk

theorem inBanks_pair (h : (bank c).contains (regs.getD 0 0))
    (h' : (bank c').contains (regs.getD 1 0)) : InBanks bank [c, c'] regs := by
  rintro (_ | _ | k) d hk
  · exact Option.some.inj hk ▸ h
  · exact Option.some.inj hk ▸ h'
  · exact nomatch hk

end

/-- The same for operands that are not in registers yet. -/
def MasksWithin (bank : RegClass → RegMask) (classes : List RegClass) (os : List Operand) : Prop :=
  ∀ (k : Nat) c, classes[k]? = some c → ∃ o, os[k]? = some o ∧ o.mask.Within (bank c)

theorem MasksWithin.zipWith {bank : RegClass → RegMask} {classes : List RegClass}
    {os : List Operand} {ms : List RegMask} (h : MasksWithin bank classes os)
    (hms : List.Forall₂ (fun m c => m.Within (bank c)) ms classes) :
    MasksWithin bank classes (os.zipWith (fun o m => { o with mask := m }) ms) := by
  intro k c hk
  obtain ⟨o, ho, -⟩ := h k c hk
  obtain ⟨hlt, rfl⟩ := List.getElem?_eq_some_iff.mp hk
  have hlt' : k < ms.length := hms.length_eq ▸ hlt
  have hget := hms.get hlt' hlt
  refine ⟨{ o with mask := ms[k] }, ?_, hget⟩
  rw [List.getElem?_zipWith, ho, List.getElem?_eq_getElem hlt']

/-- An instruction that is encoded wherever in their masks its operands are put. -/
structure Inst.Encodable (bank : RegClass → RegMask) (test : τ → List RegClass)
    (hasImm : AluOp → Prop) (i : Inst τ) : Prop where
  imm : ∀ op, i.op.immOp? = some op → hasImm op
  defs : MasksWithin bank (i.op.demand test).defs i.defs
  uses : MasksWithin bank (i.op.demand test).uses i.uses

/-- The banks of a target, with what makes its encoder and its selection agree on them. -/
structure Isa.Banks (isa : Isa τ) where
  bank : RegClass → RegMask
  /-- The classes of the operands that a test reads. -/
  test : τ → List RegClass
  /-- The operations that have an instruction with a constant operand. -/
  hasImm : AluOp → Prop
  file : ∀ c, (isa.file.ofClass c).Within (bank c)
  apart : ∀ r, (bank .int).contains r → (bank .float).contains r = false
  imm : ∀ op v op' v', isa.immediate? op v = some (op', v') → hasImm op'
  intTest : ∀ op a b, test (isa.intTest op a b).1 =
    List.replicate (isa.intTest op a b).2.length .int
  floatTest : ∀ op, test (isa.floatTest op).1 = List.replicate (isa.floatTest op).2.length .float
  constrain_op : ∀ i, (isa.constrain i).op = i.op
  constrain_vreg : ∀ i, ∀ o ∈ (isa.constrain i).operands, ∃ o' ∈ i.operands, o'.vreg = o.vreg
  constrain : ∀ i : Inst τ, i.Encodable bank test hasImm →
    (isa.constrain i).Encodable bank test hasImm
  /-- Operands in the banks that are asked for are encoded. -/
  expand : ∀ s op regs, (∀ o, op.immOp? = some o → hasImm o) →
    InBanks bank (op.demand test).defs regs.defs → InBanks bank (op.demand test).uses regs.uses →
    ∃ pieces, isa.expand s op regs = .ok pieces
  /-- A branch on integers is encoded only if they are in the bank of integers. -/
  tested : ∀ op x y s a b regs pieces,
    isa.expand s (.branch (isa.intTest op x y).1 a b) regs = .ok pieces →
    InBanks bank (test (isa.intTest op x y).1) regs.uses

end SeaNodes
