import SeaNodes.Graph.Basic

namespace SeaNodes

inductive Value where
  | int (v : Int64)
  | float (x : Double)
  /-- An object of the heap by its number, or null. -/
  | ref (obj : Option Nat)
  | fn (index : Nat)
  /-- The memory state, which carries nothing. -/
  | mem
deriving DecidableEq, Inhabited

namespace Value

/-- Zero and null are false, all else is true. -/
def isTruthy : Value → Bool
  | .int v => v != 0
  | .ref none => false
  | _ => true

/-- The word that comparisons look at. Objects have 32-bit numbers. -/
def word : Value → Int64
  | .int v => v
  | .float x => x.bits.toInt64
  | .ref none => 0
  | .ref (some o) => .ofNat (o % Nat.pow 2 32 + 1)
  | .fn i => .ofNat i
  | .mem => 0

/-- A slot read at a declared type: zero is also null and 0.0. -/
def readAs (v : Value) (decl : Ty) : Value :=
  match v, decl with
  | .int 0, .ptr .. => .ref none
  | .int 0, .float _ => .float .zero
  | v, _ => v

def ofConst? : Ty → Option Value
  | .int lo hi => if lo = hi then some (.int lo) else none
  | .float (some x) => some (.float x)
  | .ptr _ .null => some (.ref none)
  | .fn (some i) => some (.fn i)
  | .mem | .ctrl => some .mem
  | _ => none

end Value

/-- Why a node cannot be evaluated. -/
inductive Stuck where
  | nonPredecessor
  | terminator
  | noSuccessor
  | scopeLeft
  | notConstant
  | missingArgument
  | unknownTuple
  | nonFunction
  | notReference
  | notEvaluated
  | notInteger
  | notFloat
deriving DecidableEq, Inhabited

def Stuck.message : Stuck → String
  | .nonPredecessor => "entered from a non-predecessor"
  | .terminator => "unexpected block terminator"
  | .noSuccessor => "block without a successor"
  | .scopeLeft => "construction scope left in the graph"
  | .notConstant => "not a runtime constant"
  | .missingArgument => "missing argument"
  | .unknownTuple => "projection of an unknown tuple"
  | .nonFunction => "call through a non-function"
  | .notReference => "address is not a reference"
  | .notEvaluated => "used before it was evaluated"
  | .notInteger => "expected an integer"
  | .notFloat => "expected a float"

/-- Why evaluation stopped. -/
inductive EvalError where
  | divisionByZero (node : NodeId)
  | nullAccess (node : NodeId)
  | outOfBounds (node : NodeId) (offset : Int64)
  | unknownFunction (index : Nat)
  | arity (index expected actual : Nat)
  | outOfFuel (fuel : Nat)
  | stackOverflow (depth : Nat)
  | malformed (node : Edge) (op : String) (reason : Stuck)
deriving DecidableEq, Inhabited

/-- The word for the kind of an error in reports. -/
def EvalError.kind : EvalError → String
  | .divisionByZero _ => "DivisionByZero"
  | .nullAccess _ => "NullAccess"
  | .outOfBounds .. => "OutOfBounds"
  | .unknownFunction _ => "UnknownFunction"
  | .arity .. => "Arity"
  | .outOfFuel _ => "OutOfFuel"
  | .stackOverflow _ => "StackOverflow"
  | .malformed .. => "Malformed"

def EvalError.message : EvalError → String
  | .divisionByZero n => "integer division by zero at " ++ idText n
  | .nullAccess n => "null dereference at " ++ idText n
  | .outOfBounds n o => "offset " ++ toString o ++ " outside the object at " ++ idText n
  | .unknownFunction i => "no function with index " ++ toString i
  | .arity i e a =>
    "function " ++ toString i ++ " takes " ++ toString e ++ " arguments, got " ++ toString a
  | .outOfFuel f => "out of fuel after " ++ toString f ++ " steps"
  | .stackOverflow d => "call depth exceeds " ++ toString d
  | .malformed n op r => "cannot evaluate `" ++ op ++ "` at " ++ idText n ++ ": " ++ r.message

end SeaNodes
