import SeaNodes.Build.Scope

namespace SeaNodes

/-- What an operator tells apart in its operands. -/
inductive Kind where
  | int | float | ref
  /-- Unknown, because the code is not reached. -/
  | any
deriving DecidableEq

def Ty.kind : Ty → Kind
  | .int .. => .int
  | .float _ => .float
  | .ptr .. | .fn _ => .ref
  | _ => .any

/-- The kind of both operands of an operator, if they agree. -/
def Kind.common? : Kind → Kind → Option Kind
  | .any, k => some k
  | k, .any => some k
  | a, b => if a = b then some a else none

def ArithOp.forKind? (op : ArithOp) : Kind → Option Op
  | .float => some (.floatArith op)
  | .int | .any => some (.arith op)
  | .ref => none

def BitOp.forKind? (op : BitOp) : Kind → Option Op
  | .int | .any => some (.bit op)
  | _ => none

def CmpOp.forKind? (op : CmpOp) : Kind → Option Op
  | .float => some (.floatCmp op)
  | .ref => if op.isCommutative then some (.cmp op) else none
  | _ => some (.cmp op)

/-- The node operator for operands of a kind. -/
def BinaryOp.forKind? (op : BinaryOp) (k : Kind) : Option Op :=
  match op with
  | .add => ArithOp.add.forKind? k
  | .sub => ArithOp.sub.forKind? k
  | .mul => ArithOp.mul.forKind? k
  | .div => ArithOp.div.forKind? k
  | .and => BitOp.and.forKind? k
  | .or => BitOp.or.forKind? k
  | .xor => BitOp.xor.forKind? k
  | .shl => BitOp.shl.forKind? k
  | .shr => BitOp.shr.forKind? k
  | .sar => BitOp.sar.forKind? k
  | .eq => CmpOp.eq.forKind? k
  | .ne => CmpOp.ne.forKind? k
  | .lt | .gt => CmpOp.lt.forKind? k
  | .le | .ge => CmpOp.le.forKind? k

/-- Whether the operands are exchanged. -/
def BinaryOp.isSwapped : BinaryOp → Bool
  | .gt | .ge => true
  | _ => false

namespace Build

def typeName (t : Ty) : Build String := return (← get).ctx.typeName t

/-- Checks that a value may be kept where `declared` is expected. -/
def checkAssign (e : Expr) (v : Edge) (declared : Ty) : Build Unit := do
  let actual ← tyOf v
  if actual = .top || actual.isA declared then return
  throw (.typeAssertion e.describe (← typeName declared) (← typeName actual))

def checkInt (e : Expr) (v : Edge) : Build Unit := do
  let t ← tyOf v
  match t.kind with
  | .int | .any => return
  | _ => throw (.unsupported e.describe (.notInteger (← typeName t)))

def unary (e : Expr) (op : UnaryOp) (v : Edge) : Build Edge := do
  let t ← tyOf v
  match op, t.kind with
  | .neg, .float => do
    let negZero ← const (.ofDouble ⟨0x8000000000000000⟩)
    labelled e.describe (.floatArith .sub) #[none, negZero, v]
  | .neg, .int => node .neg #[none, v]
  | .neg, .any => node .neg #[none, v]
  | .not, .int => node .not #[none, v]
  | .not, .ref => node .not #[none, v]
  | .not, .any => node .not #[none, v]
  | _, _ => throw (.unsupported e.describe (.operand (← typeName t)))

def binary (e : Expr) (op : BinaryOp) (x y : Edge) : Build Edge := do
  let tx ← tyOf x
  let ty ← tyOf y
  match (tx.kind.common? ty.kind).bind op.forKind? with
  | some op' => labelled e.describe op' (if op.isSwapped then #[none, y, x] else #[none, x, y])
  | none => throw (.unsupported e.describe (.operands (← typeName tx) (← typeName ty)))

/-- The layout behind a reference that is accessed. -/
def layoutOf (base : Expr) (ptr : Edge) : Build Layout := do
  let t ← tyOf ptr
  match t.structId? with
  | none => throw (.unsupported base.describe (.fieldAccess (← typeName t)))
  | some s =>
    let layout := (← get).ctx.layout s
    if !layout.completed then throw (.illegal base.describe (.forwardDeclared layout.name))
    return layout

def fieldOf (e : Expr) (layout : Layout) (name : String) : Build Field :=
  match layout.field? name with
  | some f => return f
  | none => throw (.illegal e.describe (.noField layout.name name))

def elemOf (e : Expr) (layout : Layout) : Build Ty :=
  match layout.elem with
  | some t => return t
  | none => throw (.unsupported e.describe .notArray)

def constNat (n : Nat) : Build Edge := const (.ofInt (.ofNat n))

/-- The byte offset of element `i`: `8 + 8 * i`. -/
def elementOffset (i : Edge) : Build Edge := do
  let three ← constNat 3
  let scaled ← node (.bit .shl) #[none, i, three]
  let base ← constNat arrayBase
  node (.arith .add) #[none, scaled, base]

def load (e : Expr) (ptr offset : Edge) (t : Ty) : Build Edge := do
  labelled e.describe .load #[← ctrl, ← mem, ptr, offset] t

def store (e : Expr) (ptr offset value : Edge) : Build Unit := do
  let st ← labelled e.describe .store #[← ctrl, ← mem, ptr, offset, value]
  setMem st

/-- A new object of layout `s` with so many bytes. -/
def allocate (e : Expr) (s : StructId) (size : Edge) : Build Edge := do
  if !((← get).ctx.layout s).completed then throw (.illegal e.describe .allocateForward)
  let obj ← node .alloc #[← ctrl, ← mem, size] (.ref s false)
  let m ← node (.proj 0) #[obj]
  setMem m
  return obj

/-- A call of function `f` with checked arguments. -/
def callFunction (f : Nat) (ret : Ty) (args : List Edge) : Build Edge := do
  let fptr ← const (.fn (some f))
  let call ← node .call (#[← ctrl, ← mem, fptr] ++ args)
  let done ← node .callEnd #[call]
  let ctrl ← add (.ctrlProj 0) #[done]
  let mem ← add (.proj 0) #[done]
  let result ← add (.proj 1) #[done] ret
  let ctrl ← simplifyNew ctrl
  let mem ← simplifyNew mem
  let result ← simplifyNew result
  setCtrl ctrl
  setMem mem
  return result

/-- The index and signature of a function called with so many arguments. -/
def calleeOf (e : Expr) (name : String) (count : Nat) : Build (Nat × Signature) := do
  let ctx := (← get).ctx
  match ctx.functionIndex? name with
  | none => throw (.illegal e.describe .unknownFunction)
  | some i =>
    let sig := ctx.functions.getD i default
    if sig.params.length ≠ count then
      throw (.illegal e.describe (.argumentCount sig.params.length count))
    return (i, sig)

mutual

/-- Builds an expression. -/
def expr : Expr → Build Edge
  | .int v => const (.ofInt v)
  | .float x => const (.ofDouble x)
  | .bool b => const (.ofBool b)
  | .null => const .null
  | .var name => readVar name
  | .unary op x => do
    let v ← expr x
    unary (.unary op x) op v
  | .binary op a b => do
    let x ← expr a
    let y ← expr b
    binary (.binary op a b) op x y
  | .field base name => do
    let ptr ← expr base
    let f ← fieldOf (.field base name) (← layoutOf base ptr) name
    let offset ← constNat f.offset
    load (.field base name) ptr offset f.ty
  | .index base i => do
    let ptr ← expr base
    let elem ← elemOf (.index base i) (← layoutOf base ptr)
    let v ← expr i
    checkInt (.index base i) v
    let offset ← elementOffset v
    load (.index base i) ptr offset elem
  | .length base => do
    let ptr ← expr base
    let _ ← elemOf (.length base) (← layoutOf base ptr)
    let offset ← constNat 0
    load (.length base) ptr offset .anyInt
  | .new name => do
    let ctx := (← get).ctx
    match ctx.structId? name with
    | none => throw (.illegal (Expr.new name).describe .unknownStruct)
    | some s =>
      let size ← constNat (ctx.layout s).size
      allocate (.new name) s size
  | .newArray elem n => do
    let t ← resolve (.array elem false)
    match t.structId? with
    | none => throw (.illegal (Expr.newArray elem n).describe .unresolvedArray)
    | some s =>
      let length ← expr n
      checkInt (.newArray elem n) length
      let bytes ← elementOffset length
      let arr ← allocate (.newArray elem n) s bytes
      let zero ← constNat 0
      store (.newArray elem n) arr zero length
      return arr
  | .call name args => do
    let (f, sig) ← calleeOf (.call name args) name args.length
    let values ← arguments args sig.params
    callFunction f sig.ret values
  | .cast target x => do
    let t ← resolve target
    if !t.isPtr then throw (.unsupported (Expr.cast target x).describe .castTarget)
    let v ← expr x
    labelled (Expr.cast target x).describe .cast #[none, v] t
  | .toFloat x => do
    let v ← expr x
    checkInt (.toFloat x) v
    node .toFloat #[none, v]

/-- Builds arguments and checks them against parameter types. -/
def arguments : List Expr → List Ty → Build (List Edge)
  | e :: es, t :: ts => do
    let v ← expr e
    checkAssign e v t
    let vs ← arguments es ts
    return v :: vs
  | _, _ => return []

end

end Build

end SeaNodes
