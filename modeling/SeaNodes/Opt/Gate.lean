import SeaNodes.Source.Context
import SeaNodes.Graph.Basic

namespace SeaNodes

def Ty.isRef : Ty → Bool
  | .ptr .. | .fn _ => true
  | _ => false

/-- Integer operators take integers; equality also compares references. -/
def Op.admits (op : Op) (a b : Ty) : Bool :=
  (a.isInt && b.isInt) ||
    match op with
    | .cmp c => c.isCommutative && a.isRef && b.isRef
    | _ => false

namespace Graph

/-- What is wrong with a node, if anything. -/
def nodeFault? (g : Graph) (ctx : Context) (n : NodeId) : Option Fault :=
  let operand (i : Nat) : Ty := g.ty (g.input n i)
  match g.op n with
  | .cast =>
    if (g.input n 0).isSome then none
    else some (.typeAssertion (g.label n) (ctx.typeName (g.decl n)) (ctx.typeName (operand 1)))
  | .load | .store =>
    match (operand 2).nullness? with
    | some .notNull => none
    | some _ => some (.nullAccess (g.label n) (ctx.typeName (operand 2)))
    | none => some (.unsupported (g.label n) (.memoryAccess (ctx.typeName (operand 2))))
  | .arith _ | .bit _ | .cmp _ =>
    if (g.op n).admits (operand 1) (operand 2) then none
    else
      some (.unsupported (g.label n)
        (.operands (ctx.typeName (operand 1)) (ctx.typeName (operand 2))))
  | .floatArith _ | .floatCmp _ =>
    if (operand 1).isFloat && (operand 2).isFloat then none
    else some (.unsupported (g.label n) .floatOperator)
  | .neg | .toFloat =>
    if (operand 1).isInt then none else some (.unsupported (g.label n) .intOperator)
  | .call =>
    match operand 2 with
    | .fn (some _) => none
    | _ => some (.unsupported (g.label n) .indirectCall)
  | _ => none

/-- Lets the optimized graph of a function pass, or says what is wrong with it. -/
def typeCheck (g : Graph) (ctx : Context) (function : String) : Except Fault Unit :=
  if (g.inputs stop).isEmpty then .error (.unsupported function .neverReturns)
  else
    match g.live.findSome? (g.nodeFault? ctx) with
    | some fault => .error fault
    | none => .ok ()

end Graph

end SeaNodes
