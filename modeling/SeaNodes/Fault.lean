import SeaNodes.Graph.Op
import SeaNodes.Table
import SeaNodes.Hex
import SeaNodes.Code.Reloc

namespace SeaNodes

/-- The step of compilation in which a defect showed. -/
inductive Phase where
  | build | optimize | typeCheck | schedule | select | regalloc | encode | link
deriving DecidableEq, Inhabited

def Phase.name : Phase → String
  | .build => "build"
  | .optimize => "optimize"
  | .typeCheck => "type-check"
  | .schedule => "schedule"
  | .select => "select"
  | .regalloc => "regalloc"
  | .encode => "encode"
  | .link => "link"

/-- Why an operation is not supported. Types are given by their spelling. -/
inductive Unsupported where
  | castTarget
  | notInteger (ty : String)
  | operand (ty : String)
  | operands (left right : String)
  | fieldAccess (ty : String)
  | notArray
  | neverReturns
  | memoryAccess (ty : String)
  | floatOperator
  | intOperator
  | indirectCall
  | functionValue
deriving DecidableEq, Inhabited

def Unsupported.message : Unsupported → String
  | .castTarget => "casts target reference types"
  | .notInteger t => "expected an integer, found " ++ t
  | .operand t => "operand " ++ t
  | .operands a b => "operands " ++ a ++ " and " ++ b
  | .fieldAccess t => "field access on " ++ t
  | .notArray => "indexing a non-array"
  | .neverReturns => "function never returns"
  | .memoryAccess t => "memory access through " ++ t
  | .floatOperator => "float operator on non-float operands"
  | .intOperator => "integer operator on non-integer operand"
  | .indirectCall => "indirect calls are not supported"
  | .functionValue => "function values can only be called directly"

/-- Why a construct is malformed. -/
inductive Illegal where
  | structTwice
  | fieldTwice
  | functionTwice
  | unknownStruct
  | signatureMismatch
  | notRegistered
  | unknownVariable
  | outsideBlock
  | variableTwice
  | outsideLoop
  | noField (layout field : String)
  | unresolvedArray
  | forwardDeclared (layout : String)
  | notLocation
  | allocateForward
  | unknownFunction
  | argumentCount (expected found : Nat)
  | unknownArchitecture
  | unknownAbi
  | abiUnavailable
  | noAddress
deriving DecidableEq, Inhabited

def Illegal.message : Illegal → String
  | .structTwice => "struct declared twice"
  | .fieldTwice => "field declared twice"
  | .functionTwice => "function declared twice"
  | .unknownStruct => "unknown struct"
  | .signatureMismatch => "parameter list does not match signature"
  | .notRegistered => "function not registered"
  | .unknownVariable => "unknown variable"
  | .outsideBlock => "declaration outside of any block"
  | .variableTwice => "variable declared twice in one block"
  | .outsideLoop => "outside of a loop"
  | .noField l f => l ++ " has no field `" ++ f ++ "`"
  | .unresolvedArray => "array type did not resolve"
  | .forwardDeclared l => l ++ " is only forward-declared"
  | .notLocation => "not a memory location"
  | .allocateForward => "cannot allocate a forward-declared struct"
  | .unknownFunction => "unknown function"
  | .argumentCount e f =>
    "expected " ++ toString e ++ " arguments, found " ++ toString f
  | .unknownArchitecture => "unknown architecture"
  | .unknownAbi => "unknown ABI"
  | .abiUnavailable => "ABI not available on this architecture"
  | .noAddress => "runtime symbol has no address"

/-- How the registers of a function cannot be assigned, or are assigned wrongly. -/
inductive AllocFlaw where
  | phiArity (block args preds : Nat)
  | registerCount (registers vregs : Nat)
  | outsideMask (v : VReg) (reg : String)
  | tiedApart (d u : VReg)
  | writtenTwice (reg : String)
  | overwritesLive (d v : VReg) (reg : String)
  | liveAcross (v : VReg) (reg : String)
  | noVictim (v : VReg)
  | noAssignment (rounds : Nat)
  | frameTooLarge
deriving DecidableEq, Inhabited

def AllocFlaw.message : AllocFlaw → String
  | .phiArity b a p =>
    "phi in " ++ blockLabel b ++ " has " ++ toString a ++ " args for " ++ toString p ++ " preds"
  | .registerCount r v => toString r ++ " registers for " ++ toString v ++ " vregs"
  | .outsideMask v r => VReg.text v ++ " in " ++ r ++ " outside its mask"
  | .tiedApart d u => VReg.text d ++ " and " ++ VReg.text u ++ " must share a register"
  | .writtenTwice r => "two defs written to " ++ r
  | .overwritesLive d v r =>
    VReg.text d ++ " overwrites live " ++ VReg.text v ++ " in " ++ r
  | .liveAcross v r => VReg.text v ++ " live across a clobber of " ++ r
  | .noVictim v => "unspillable " ++ VReg.text v ++ " has no register to take"
  | .noAssignment n => "no register assignment after " ++ toString n ++ " spill rounds"
  | .frameTooLarge => "frame too large"

/-- An inconsistency inside the compiler. -/
inductive Defect where
  | notInTable (function : String)
  | noFixedPoint (rounds : Nat)
  | missingProjection
  | controlForks
  | controlEnds
  | predUnreachable (pred : Option Nat)
  | branchUnreachable
  | dominatorsUnsettled
  | outsideBlocks
  | noControl (op : Op)
  | pinnedUnreachable
  | inputUnplaced (input : Nat)
  | phiUnmatched
  | earlyBelowLate (early late : Nat)
  | cyclicBlock
  | usedTooEarly
  | noConstant (ty : Ty)
  | unknownCallee
  | phiShort
  | branchArity
  | alloc (function : String) (flaw : AllocFlaw)
  | unassigned (function : String) (v : VReg)
  | phisLeft (function : String) (block : Nat)
  | wrongBank (r : Reg) (bank : String)
  | noInstruction (op : String)
  | sizesUnsettled (passes : Nat)
  | unresolvedTarget (function : String) (target : RelocTarget)
  | overrun (function : String) (end_ : Nat)
  | unresolvedSymbol (name : String)
  | patch (function : String) (error : PatchError) (target : RelocTarget) (site : Nat)
deriving DecidableEq, Inhabited

def Defect.message : Defect → String
  | .notInTable f => "`" ++ f ++ "` missing from the function table"
  | .noFixedPoint n => "no fixed point after " ++ toString n ++ " rounds"
  | .missingProjection => "branch without projection"
  | .controlForks => "control forks without a branch"
  | .controlEnds => "control ends without a return"
  | .predUnreachable p => "predecessor " ++ idText p ++ " unreachable"
  | .branchUnreachable => "projection of unreachable branch"
  | .dominatorsUnsettled => "dominators do not settle"
  | .outsideBlocks => "control node outside every block"
  | .noControl op => op.name ++ " has no control input"
  | .pinnedUnreachable => "pinned to unreachable control"
  | .inputUnplaced i => "input " ++ idText i ++ " has no block"
  | .phiUnmatched => "phi input without predecessor"
  | .earlyBelowLate e l =>
    "early block " ++ idText e ++ " does not dominate late block " ++ idText l
  | .cyclicBlock => "cyclic dependences inside a block"
  | .usedTooEarly => "value used before it was lowered"
  | .noConstant t => "cannot materialize a constant of type " ++ t.text
  | .unknownCallee => "call through an unknown function pointer"
  | .phiShort => "phi without an input for a predecessor"
  | .branchArity => "branch without two successors"
  | .alloc f flaw => f ++ ": " ++ flaw.message
  | .unassigned f v => VReg.text v ++ " has no register in " ++ f
  | .phisLeft f b => f ++ ": " ++ blockLabel b ++ " still has phis"
  | .wrongBank r bank => "register " ++ toString r ++ " is not " ++ bank
  | .noInstruction op => "no instruction for " ++ op
  | .sizesUnsettled n => "relocation sizing did not settle after " ++ toString n ++ " passes"
  | .unresolvedTarget f t => f ++ ": unresolved relocation target " ++ t.text
  | .overrun f e => f ++ " overruns the image at " ++ Hex.marked e
  | .unresolvedSymbol s => "unresolved symbol `" ++ s ++ "`"
  | .patch f e t s => f ++ ": " ++ e.message ++ " (" ++ t.text ++ " at " ++ Hex.marked s ++ ")"

/-- Why compilation stopped. -/
inductive Fault where
  /-- A value is not known to have the type that is demanded of it. -/
  | typeAssertion (construct expected actual : String)
  /-- An access through a reference that may be null. -/
  | nullAccess (construct ty : String)
  | unsupported (construct : String) (reason : Unsupported)
  | illegal (construct : String) (reason : Illegal)
  /-- A compiler defect, with the place in the graph where it showed, if that is known. -/
  | internal (phase : Phase) (node : Option (Option Nat)) (defect : Defect)
deriving DecidableEq, Inhabited

namespace Fault

/-- The word for the kind of a fault in reports. -/
def kind : Fault → String
  | .typeAssertion .. => "TypeAssertion"
  | .nullAccess .. => "NullAccess"
  | .unsupported .. => "Unsupported"
  | .illegal .. => "Illegal"
  | .internal .. => "Internal"

/-- Compiler defects, as opposed to diagnoses of the program. -/
def isInternal : Fault → Bool
  | .internal .. => true
  | _ => false

def message : Fault → String
  | .typeAssertion c e a =>
    "type assertion failed in `" ++ c ++ "`: expected " ++ e ++ ", found " ++ a
  | .nullAccess c t => "access through possibly-null reference in `" ++ c ++ "` (" ++ t ++ ")"
  | .unsupported c r => "unsupported operation `" ++ c ++ "`: " ++ r.message
  | .illegal c r => "illegal construct `" ++ c ++ "`: " ++ r.message
  | .internal p n d =>
    "internal error during " ++ p.name ++ (match n with | some e => " at " ++ idText e | none => "")
      ++ ": " ++ d.message

end Fault

end SeaNodes
