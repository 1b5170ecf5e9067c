import SeaNodes.Lattice.Text

namespace SeaNodes

/-- Arithmetic shared by integers and floats. -/
inductive ArithOp where
  | add | sub | mul | div
deriving DecidableEq, Hashable, Inhabited

namespace ArithOp

def isCommutative : ArithOp → Bool
  | .add | .mul => true
  | _ => false

def name : ArithOp → String
  | .add => "add"
  | .sub => "sub"
  | .mul => "mul"
  | .div => "div"

def evalFloat : ArithOp → Double → Double → Double
  | .add => Double.add
  | .sub => Double.sub
  | .mul => Double.mul
  | .div => Double.div

end ArithOp

/-- Bitwise operators and shifts. -/
inductive BitOp where
  | and | or | xor | shl
  /-- Logical shift right. -/
  | shr
  /-- Arithmetic shift right. -/
  | sar
deriving DecidableEq, Hashable, Inhabited

namespace BitOp

def isCommutative : BitOp → Bool
  | .and | .or | .xor => true
  | _ => false

def isShift : BitOp → Bool
  | .shl | .shr | .sar => true
  | _ => false

/-- The result on two words; a shift uses the low six bits of its count. -/
def eval : BitOp → Int64 → Int64 → Int64
  | .and, a, b => a &&& b
  | .or, a, b => a ||| b
  | .xor, a, b => a ^^^ b
  | .shl, a, b => a <<< (b &&& 63)
  | .shr, a, b => (a.toUInt64 >>> (b &&& 63).toUInt64).toInt64
  | .sar, a, b => a >>> (b &&& 63)

def name : BitOp → String
  | .and => "and"
  | .or => "or"
  | .xor => "xor"
  | .shl => "shl"
  | .shr => "shr"
  | .sar => "sar"

end BitOp

/-- Comparisons. The other two orders are had by exchanging the operands. -/
inductive CmpOp where
  | eq | ne | lt | le
deriving DecidableEq, Hashable, Inhabited

namespace CmpOp

def isCommutative : CmpOp → Bool
  | .eq | .ne => true
  | _ => false

/-- The comparison that holds exactly when this one fails, and whether its operands are
exchanged. -/
def negate : CmpOp → CmpOp × Bool
  | .eq => (.ne, false)
  | .ne => (.eq, false)
  | .lt => (.le, true)
  | .le => (.lt, true)

def evalInt : CmpOp → Int64 → Int64 → Bool
  | .eq, a, b => a == b
  | .ne, a, b => a != b
  | .lt, a, b => a < b
  | .le, a, b => a ≤ b

def evalFloat : CmpOp → Double → Double → Bool
  | .eq, a, b => a.eq b
  | .ne, a, b => !a.eq b
  | .lt, a, b => a.lt b
  | .le, a, b => a.le b

def name : CmpOp → String
  | .eq => "eq"
  | .ne => "ne"
  | .lt => "lt"
  | .le => "le"

end CmpOp

/-- The operator of a node. -/
inductive Op where
  | start
  | stop
  /-- Join point; inputs `[_, pred, pred, ...]`. -/
  | region
  /-- Loop header; inputs `[_, entry, backedge]`. -/
  | loop
  /-- Two-way branch; inputs `[ctrl, predicate]`. -/
  | fork
  /-- Control projection: of a fork 0 is the true side and 1 the false side, of a call end 0 goes
  on. -/
  | ctrlProj (i : Nat)
  /-- Function exit; inputs `[ctrl, mem, value]`. -/
  | ret
  /-- The marker of dead control. -/
  | dead
  | const (t : Ty)
  /-- Incoming argument; inputs `[start]`. -/
  | param (i : Nat)
  /-- The memory state at entry; inputs `[start]`. -/
  | startMem
  /-- Choice by the predecessor taken; inputs `[region, v, v, ...]`. -/
  | phi
  /-- Refinement to the declared type; inputs `[ctrl?, value]`. -/
  | cast
  | arith (op : ArithOp)
  | floatArith (op : ArithOp)
  | bit (op : BitOp)
  | neg
  /-- 1 for zero or null, else 0. -/
  | not
  | cmp (op : CmpOp)
  | floatCmp (op : CmpOp)
  | toFloat
  /-- Inputs `[ctrl, mem, ptr, offset]`. -/
  | load
  /-- Inputs `[ctrl, mem, ptr, offset, value]`. -/
  | store
  /-- Zeroed allocation; inputs `[ctrl, mem, size]`. -/
  | alloc
  /-- Data projection: 0 is the memory of an allocation or call end, 1 the result of a call. -/
  | proj (i : Nat)
  /-- Inputs `[ctrl, mem, function, args...]`. -/
  | call
  /-- Inputs `[call]`. -/
  | callEnd
  /-- Holder of the live variables during construction; inputs `[ctrl, mem, vars...]`. -/
  | scope
deriving DecidableEq, Hashable, Inhabited

namespace Op

/-- Part of the control skeleton. -/
def isCfg : Op → Bool
  | .start | .stop | .region | .loop | .fork | .ctrlProj _ | .ret | .dead | .call | .callEnd => true
  | _ => false

def isBlockHead : Op → Bool
  | .start | .region | .loop => true
  | _ => false

def isRegion : Op → Bool
  | .region | .loop => true
  | _ => false

/-- Free of effects and of control, so it may stand wherever its inputs dominate. -/
def isFloating : Op → Bool
  | .const _ | .arith _ | .floatArith _ | .bit _ | .neg | .not | .cmp _ | .floatCmp _
  | .toFloat => true
  | _ => false

def isCommutative : Op → Bool
  | .arith op | .floatArith op => op.isCommutative
  | .bit op => op.isCommutative
  | .cmp op => op.isCommutative
  | .floatCmp op => op == .eq
  | _ => false

/-- Takes part in value numbering. -/
def isNumbered : Op → Bool
  | .cast | .phi | .load | .ctrlProj _ | .proj _ => true
  | op => op.isFloating

/-- Takes the memory state at input 1 and makes a new one. -/
def writesMemory : Op → Bool
  | .store | .alloc | .call => true
  | _ => false

/-- The mnemonic in graph dumps. -/
def name : Op → String
  | .start => "start"
  | .stop => "stop"
  | .region => "region"
  | .loop => "loop"
  | .fork => "if"
  | .ctrlProj i => "cproj." ++ toString i
  | .ret => "return"
  | .dead => "xctrl"
  | .const t => "con " ++ t.text
  | .param i => "parm." ++ toString i
  | .startMem => "startmem"
  | .phi => "phi"
  | .cast => "cast"
  | .arith op => op.name
  | .floatArith op => "f" ++ op.name
  | .bit op => op.name
  | .neg => "neg"
  | .not => "not"
  | .cmp op => op.name
  | .floatCmp op => "f" ++ op.name
  | .toFloat => "i2f"
  | .load => "load"
  | .store => "store"
  | .alloc => "new"
  | .proj i => "proj." ++ toString i
  | .call => "call"
  | .callEnd => "callend"
  | .scope => "scope"

end Op

end SeaNodes
