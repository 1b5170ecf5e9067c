import SeaNodes.Eval.Value
import SeaNodes.Schedule.Basic

namespace SeaNodes

/-- A scheduled function. -/
structure Routine where
  graph : Graph
  schedule : Schedule
deriving Inhabited

def Graph.arity (g : Graph) : Nat :=
  g.live.foldl (fun k n => match g.op n with | .param i => max k (i + 1) | _ => k) 0

/-- The functions of a program, each with its arity. -/
structure Routines where
  table : Array (Routine × Nat) := #[]

namespace Routines

def ofList (rs : List Routine) : Routines := ⟨(rs.map fun r => (r, r.graph.arity)).toArray⟩

end Routines

/-- What calls share. -/
structure Machine where
  heap : Array (Array Value) := #[]
  /-- Nodes evaluated so far. -/
  steps : Nat := 0
  /-- The number of nodes that may be evaluated. -/
  fuel : Nat := 10000000
deriving Inhabited

namespace Machine

/-- How deep calls may nest. -/
def maxDepth : Nat := 512

/-- The slot at a byte offset of an object. -/
def read (m : Machine) (v : Value) (offset : Int64) : Option Value :=
  match v with
  | .ref (some o) => do
    let obj ← m.heap[o]?
    let i := (offset / 8).toInt
    if i < 0 then none else obj[i.toNat]?
  | _ => none

end Machine

/-- The values of one activation, by node. -/
structure Activation where
  routine : Routine
  args : Array Value
  /-- How many calls are around this one. -/
  depth : Nat
  values : Array (Option Value)
  block : BlockId := Cfg.entry
  /-- The block control came from. -/
  prev : Option BlockId := none
deriving Inhabited

namespace Activation

def ofCall (r : Routine) (args : Array Value) (depth : Nat) : Activation :=
  { routine := r, args, depth, values := Array.replicate r.graph.size none }

def set (a : Activation) (n : NodeId) (v : Value) : Activation :=
  { a with values := a.values.setIfInBounds n (some v) }

end Activation

/-- A node that cannot be evaluated. -/
def Graph.stuck {α : Type} (g : Graph) (e : Edge) (why : Stuck) : Except EvalError α :=
  .error (.malformed e ((g.op? e).getD default).name why)

namespace Activation

def graph (a : Activation) : Graph := a.routine.graph

/-- The value of what an edge leads to. Constants need not have been evaluated. -/
def get (a : Activation) (e : Edge) : Except EvalError Value :=
  match e.bind fun n => a.values.getD n none with
  | some v => .ok v
  | none =>
    match a.graph.op? e with
    | some (.const t) =>
      match Value.ofConst? t with
      | some v => .ok v
      | none => a.graph.stuck e .notConstant
    | _ => a.graph.stuck e .notEvaluated

def getInt (a : Activation) (e : Edge) : Except EvalError Int64 := do
  match ← a.get e with
  | .int v => return v
  | _ => a.graph.stuck e .notInteger

def getFloat (a : Activation) (e : Edge) : Except EvalError Double := do
  match ← a.get e with
  | .float x => return x
  | _ => a.graph.stuck e .notFloat

def boolValue (b : Bool) : Value := .int (if b then 1 else 0)

def arith (n : NodeId) (op : ArithOp) (a b : Int64) : Except EvalError Value :=
  match op with
  | .add => .ok (.int (a + b))
  | .sub => .ok (.int (a - b))
  | .mul => .ok (.int (a * b))
  | .div => if b = 0 then .error (.divisionByZero n) else .ok (.int (a / b))

/-- The value of a node without effects; none for control. -/
def pureValue (a : Activation) (n : NodeId) : Except EvalError (Option Value) := do
  let g := a.graph
  let x := g.input n 1
  let y := g.input n 2
  match g.op n with
  | .scope => g.stuck n .scopeLeft
  | .const t =>
    match Value.ofConst? t with
    | some v => return some v
    | none => g.stuck n .notConstant
  | .param i =>
    match a.args[i]? with
    | some v => return some v
    | none => g.stuck n .missingArgument
  | .startMem => return some .mem
  | .cast => return some (← a.get x)
  | .arith op => return some (← arith n op (← a.getInt x) (← a.getInt y))
  | .floatArith op => return some (.float (op.evalFloat (← a.getFloat x) (← a.getFloat y)))
  | .bit op => return some (.int (op.eval (← a.getInt x) (← a.getInt y)))
  | .neg =>
    match ← a.get x with
    | .float v => return some (.float v.neg)
    | .int v => return some (.int (-v))
    | _ => g.stuck n .notInteger
  | .not => return some (boolValue !(← a.get x).isTruthy)
  | .cmp op => return some (boolValue (op.evalInt (← a.get x).word (← a.get y).word))
  | .floatCmp op => return some (boolValue (op.evalFloat (← a.getFloat x) (← a.getFloat y)))
  | .toFloat => return some (.float (.ofInt64 (← a.getInt x)))
  | .proj i =>
    let src := g.input n 0
    match g.op? src, i with
    | some .callEnd, 1 => return some (← a.get (g.inputOf src 0))
    | _, 0 => return some .mem
    | _, _ => g.stuck n .unknownTuple
  | _ => return none

end Activation

namespace Machine

/-- The object and slot that a reference and a byte offset lead to. -/
def slot (m : Machine) (n : NodeId) (v : Value) (offset : Int64) : Except EvalError (Nat × Nat) :=
  match v with
  | .ref (some o) =>
    let size := (m.heap.getD o #[]).size
    if offset < 0 ∨ offset % 8 ≠ 0 ∨ size ≤ (offset / 8).toInt.toNat then
      .error (.outOfBounds n offset)
    else .ok (o, (offset / 8).toInt.toNat)
  | .ref none => .error (.nullAccess n)
  | _ => .error (.malformed n "memory" .notReference)

def load (m : Machine) (a : Activation) (n : NodeId) : Except EvalError Value := do
  let obj ← a.get (a.graph.input n 2)
  let offset ← a.getInt (a.graph.input n 3)
  let (o, i) ← m.slot n obj offset
  return ((m.heap.getD o #[]).getD i .mem).readAs (a.graph.decl n)

def storeTarget (m : Machine) (a : Activation) (n : NodeId) :
    Except EvalError (Nat × Nat × Value) := do
  let obj ← a.get (a.graph.input n 2)
  let offset ← a.getInt (a.graph.input n 3)
  let value ← a.get (a.graph.input n 4)
  let (o, i) ← m.slot n obj offset
  return (o, i, value)

/-- The number of slots of a new object. -/
def allocSlots (a : Activation) (n : NodeId) : Except EvalError Nat := do
  let size ← a.getInt (a.graph.input n 2)
  if size < 0 then throw (.outOfBounds n size)
  return max ((size.toInt.toNat + 7) / 8) 1

def callTarget (a : Activation) (n : NodeId) : Except EvalError (Nat × Array Value) := do
  match ← a.get (a.graph.input n 2) with
  | .fn i => return (i, ← (a.graph.inputs n).extract 3 |>.mapM a.get)
  | _ => a.graph.stuck n .nonFunction

/-- A call of function `index` from depth `depth`. -/
abbrev Caller := Nat → Array Value → Nat → Machine → Except EvalError Value × Machine

/-- The value of a node; none for control. -/
def stepNode (call : Caller) (m : Machine) (a : Activation) (n : NodeId) :
    Except EvalError (Option Value) × Machine :=
  match a.graph.op n with
  | .load => (some <$> m.load a n, m)
  | .store =>
    match m.storeTarget a n with
    | .ok (o, i, v) =>
      (.ok (some .mem), { m with heap := m.heap.modify o (·.setIfInBounds i v) })
    | .error e => (.error e, m)
  | .alloc =>
    match allocSlots a n with
    | .ok k =>
      (.ok (some (.ref (some m.heap.size))),
        { m with heap := m.heap.push (Array.replicate k (.int 0)) })
    | .error e => (.error e, m)
  | .call =>
    match callTarget a n with
    | .ok (f, args) =>
      let (r, m) := call f args (a.depth + 1) m
      (some <$> r, m)
    | .error e => (.error e, m)
  | _ => (a.pureValue n, m)

def runNodes (call : Caller) : List NodeId → Machine → Activation →
    Except EvalError Activation × Machine
  | [], m, a => (.ok a, m)
  | n :: rest, m, a =>
    let m := { m with steps := m.steps + 1 }
    if m.fuel < m.steps then (.error (.outOfFuel m.fuel), m)
    else
      match stepNode call m a n with
      | (.ok (some v), m) => runNodes call rest m (a.set n v)
      | (.ok none, m) => runNodes call rest m a
      | (.error e, m) => (.error e, m)

end Machine

namespace Activation

def incoming (a : Activation) : Except EvalError (List (NodeId × Value)) :=
  let g := a.graph
  let block := a.routine.schedule.cfg.block a.block
  match a.prev with
  | none => .ok []
  | some p =>
    match block.preds.idxOf? p with
    | none => g.stuck block.head .nonPredecessor
    | some j =>
      ((a.routine.schedule.nodes a.block).filter (g.op · == .phi)).mapM fun phi => do
        return (phi, ← a.get (g.input phi (j + 1)))

/-- Where control goes at the end of a block: on to a block, or out with a value. -/
def leave (a : Activation) : Except EvalError (BlockId ⊕ Value) := do
  let g := a.graph
  let block := a.routine.schedule.cfg.block a.block
  let goTo (b : Option BlockId) : Except EvalError (BlockId ⊕ Value) :=
    match b with
    | some b => .ok (.inl b)
    | none => g.stuck block.head .noSuccessor
  match block.terminator with
  | none => goTo block.succs.head?
  | some t =>
    match g.op t with
    | .ret =>
      let v := g.input t 2
      if v.isSome then return .inr (← a.get v) else return .inr (.int 0)
    | .fork => goTo (block.succs[if (← a.get (g.input t 1)).isTruthy then 0 else 1]?)
    | _ => g.stuck t .terminator

end Activation

namespace Machine

/-- Prepares a call. -/
def enter (rs : Routines) (index : Nat) (args : Array Value) (depth : Nat) :
    Except EvalError Activation :=
  if maxDepth ≤ depth then .error (.stackOverflow maxDepth)
  else
    match rs.table[index]? with
    | none => .error (.unknownFunction index)
    | some (r, arity) =>
      if args.size < arity then .error (.arity index arity args.size)
      else .ok (.ofCall r args depth)

/-- Runs an activation to its return. The number bounds the blocks and calls along a run; as each
of them evaluates a node, the fuel of the machine gives out first. -/
def exec (rs : Routines) : Nat → Activation → Machine → Except EvalError Value × Machine
  | 0, _, m => (.error (.outOfFuel m.fuel), m)
  | k + 1, a, m =>
    let call : Caller := fun index args depth m =>
      match enter rs index args depth with
      | .ok a => exec rs k a m
      | .error e => (.error e, m)
    match a.incoming with
    | .error e => (.error e, m)
    | .ok phis =>
      let a := phis.foldl (fun a (n, v) => a.set n v) a
      match runNodes call (a.routine.schedule.nodes a.block) m a with
      | (.error e, m) => (.error e, m)
      | (.ok a, m) =>
        match a.leave with
        | .error e => (.error e, m)
        | .ok (.inr v) => (.ok v, m)
        | .ok (.inl b) => exec rs k { a with block := b, prev := some a.block } m

def call (m : Machine) (rs : Routines) (index : Nat) (args : Array Value) :
    Except EvalError Value × Machine :=
  match enter rs index args 0 with
  | .ok a => exec rs (m.fuel + 2) a m
  | .error e => (.error e, m)

end Machine

end SeaNodes
