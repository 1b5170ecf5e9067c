import SeaNodes.Target
import SeaNodes.Code.Piece

namespace SeaNodes

/-- An operand of a comparison. -/
inductive Side where
  | left | right
deriving DecidableEq, Inhabited

structure Isa (τ : Type) where
  target : Target
  file : RegFile
  conv : CallConv
  /-- The operation on an immediate that does the job of one on a constant right operand. -/
  immediate? : AluOp → Int64 → Option (AluOp × Int64)
  /-- The constant offsets that loads and stores take. -/
  fitsOffset : Int64 → Bool
  /-- The test of a comparison of which one or both operands may be constants, and the operands
  that it reads. -/
  intTest : CmpOp → Option Int64 → Option Int64 → τ × List Side
  floatTest : CmpOp → τ × List Side
  /-- Adds what the target demands of the operands of an instruction. -/
  constrain : Inst τ → Inst τ
  opText : MachOp τ → String
  /-- The frame for a number of spill slots, the bytes of outgoing arguments, and whether there
  are calls. -/
  frame? : UInt32 → UInt32 → Bool → Option Frame
  /-- What is done on entry to a function. -/
  prologue : Frame → List Item
  expand : Surroundings → MachOp τ → OperandRegs → Except Fault (List Piece)

namespace Isa

variable {τ : Type}

def frame (isa : Isa τ) (f : MachFunction τ) : Except Fault Frame :=
  match isa.frame? f.spillSlots f.outgoing f.hasCalls with
  | some frame => .ok frame
  | none => .error (.internal .regalloc none (.alloc f.name .frameTooLarge))

def dump (isa : Isa τ) (f : MachFunction τ) : List String := f.dump isa.opText VReg.text

def dumpAssigned (isa : Isa τ) (f : MachFunction τ) (regs : Array Reg) : List String :=
  f.dump isa.opText (MachFunction.assignedName isa.file regs)

end Isa

/-- Texts of operations that all targets write alike. -/
def MachOp.sharedText? {τ : Type} : MachOp τ → Option String
  | .params => some "params"
  | .copy _ => some "copy"
  | .spill _ s => some ("spill [slot " ++ toString s ++ "]")
  | .reload _ s => some ("reload [slot " ++ toString s ++ "]")
  | .loadParam _ o => some ("load_param +" ++ toString o)
  | .storeArg _ o => some ("store_arg +" ++ toString o)
  | .neg => some "neg"
  | .ret => some "ret"
  | _ => none

def dispText : Option Int64 → String
  | some d => "Some(" ++ toString d ++ ")"
  | none => "None"

def targetsText (onTrue onFalse : Nat) : String := blockLabel onTrue ++ " " ++ blockLabel onFalse

end SeaNodes
