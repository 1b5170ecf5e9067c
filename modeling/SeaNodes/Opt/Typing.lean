import SeaNodes.Graph.Basic

namespace SeaNodes

namespace Ty

/-- What a control input says about the control behind it. -/
def asCtrl : Ty → Ty
  | .ctrl => .ctrl
  | .deadCtrl => .deadCtrl
  | _ => .top

/-- The sides that a branch on a value of type `t` may take. -/
def branchOn (t : Ty) : Ty :=
  match t with
  | .top => .top
  | .int 0 0 => .branch false true
  | .float (some x) => .branch (!x.isZero) x.isZero
  | .ptr _ .null => .branch false true
  | .fn _ => .branch true false
  | t => if t.isValue && !t.mayBeZero then .branch true false else .branch true true

def range? (lo hi : Int) : Option Ty :=
  let fits (v : Int) : Bool := Int64.minValue.toInt ≤ v && v ≤ Int64.maxValue.toInt
  if fits lo && fits hi then some (.int (.ofInt lo) (.ofInt hi)) else none

/-- The types of sums and differences: exact bounds when they do not overflow, the wrapped result of
two constants, else any integer. -/
def bounded (lo hi : Int) (exact : Option Int64) : Ty :=
  match range? lo hi, exact with
  | some t, _ => t
  | none, some v => ofInt v
  | none, none => anyInt

def arith (op : ArithOp) (a b : Ty) : Ty :=
  match a, b with
  | .top, _ => .top
  | _, .top => .top
  | .int al ah, .int bl bh =>
    let const : Bool := al == ah && bl == bh
    match op with
    | .add =>
      bounded (al.toInt + bl.toInt) (ah.toInt + bh.toInt) (if const then some (al + bl) else none)
    | .sub =>
      bounded (al.toInt - bh.toInt) (ah.toInt - bl.toInt) (if const then some (al - bl) else none)
    | .mul =>
      if a = ofInt 0 ∨ b = ofInt 0 then ofInt 0
      else if const then ofInt (al * bl)
      else anyInt
    | .div => if const && bl != 0 then ofInt (al / bl) else anyInt
  | _, _ => anyInt

def floatArith (op : ArithOp) (a b : Ty) : Ty :=
  match a, b with
  | .top, _ => .top
  | _, .top => .top
  | .float (some x), .float (some y) => ofDouble (op.evalFloat x y)
  | _, _ => anyFloat

def bit (op : BitOp) (a b : Ty) : Ty :=
  if a = .top ∨ b = .top then .top
  else
    match a.int?, b.int? with
    | some x, some y => ofInt (op.eval x y)
    | x, y =>
      if op = .and ∧ (x = some 0 ∨ y = some 0) then ofInt 0
      else if op.isShift ∧ x = some 0 then ofInt 0
      else anyInt

def neg : Ty → Ty
  | .top => .top
  | .int lo hi => if lo = Int64.minValue then anyInt else .int (-hi) (-lo)
  | _ => anyInt

def not (t : Ty) : Ty :=
  match t with
  | .top => .top
  | .int .. => if t = ofInt 0 then ofInt 1 else if t.mayBeZero then bool else ofInt 0
  | .ptr _ .null => ofInt 1
  | .ptr _ .notNull => ofInt 0
  | .fn _ => ofInt 0
  | _ => bool

/-- The outcome of comparing two ranges, if they decide it. -/
def compareRanges (op : CmpOp) (al ah bl bh : Int64) : Option Bool :=
  match op with
  | .lt => if ah < bl then some true else if bh ≤ al then some false else none
  | .le => if ah ≤ bl then some true else if bh < al then some false else none
  | .eq =>
    if al = ah ∧ bl = bh then some (al == bl)
    else if ah < bl ∨ bh < al then some false
    else none
  | .ne =>
    if al = ah ∧ bl = bh then some (al != bl)
    else if ah < bl ∨ bh < al then some true
    else none

/-- Whether two references are equal, if their nullness decides it. -/
def sameRef : Nullness → Nullness → Option Bool
  | .null, .null => some true
  | .null, .notNull => some false
  | .notNull, .null => some false
  | _, _ => none

def cmp (op : CmpOp) (a b : Ty) : Ty :=
  match a, b with
  | .top, _ => .top
  | _, .top => .top
  | .int al ah, .int bl bh => ((compareRanges op al ah bl bh).map ofBool).getD bool
  | .ptr _ n₁, .ptr _ n₂ =>
    match op, sameRef n₁ n₂ with
    | .eq, some e => ofBool e
    | .ne, some e => ofBool (!e)
    | _, _ => bool
  | _, _ => bool

def floatCmp (op : CmpOp) (a b : Ty) : Ty :=
  match a, b with
  | .top, _ => .top
  | _, .top => .top
  | .float (some x), .float (some y) => ofBool (op.evalFloat x y)
  | _, _ => bool

def toFloat (t : Ty) : Ty :=
  if t = .top then .top
  else
    match t.int? with
    | some v => ofDouble (.ofInt64 v)
    | none => anyFloat

/-- The control behind a projection of a branch or call end. -/
def ctrlProj (i : Nat) : Ty → Ty
  | .branch t f => if (if i = 0 then t else f) then .ctrl else .deadCtrl
  | t => t.asCtrl

end Ty

namespace Graph

def ctrlLive (g : Graph) (n : NodeId) : Bool :=
  let c := g.input n 0
  c.isNone || g.ty c == .ctrl

def isOpen (g : Graph) (region : Edge) : Bool := region.any fun r => (g.node r).inProgress

/-- The meet over the live control edges of a region. -/
def regionType (g : Graph) (n : NodeId) : Ty :=
  ((g.inputs n).toList.drop 1).foldl (fun t p => t.meet (g.ty p).asCtrl) .top

/-- The meet over the values that come with live control. -/
def phiType (g : Graph) (n : NodeId) : Ty :=
  let region := g.input n 0
  if g.ty region ≠ .ctrl then .top
  else if g.isOpen region then g.decl n
  else
    ((g.inputs n).toList.zipIdx.drop 1).foldl (fun t (v, i) =>
      if g.ty (g.inputOf region i) = .ctrl ∧ v.isSome then t.meet (g.ty v) else t) .top

/-- The type of a node under the current types of its inputs. -/
def typeOf (g : Graph) (n : NodeId) : Ty :=
  let ty (i : Nat) : Ty := g.ty (g.input n i)
  match g.op n with
  | .start | .stop => .ctrl
  | .dead => .deadCtrl
  | .region | .loop => g.regionType n
  | .fork => if ty 0 = .ctrl then (ty 1).branchOn else .top
  | .ctrlProj i => (ty 0).ctrlProj i
  | .ret | .call | .callEnd => (ty 0).asCtrl
  | .const t => t
  | .param _ => g.decl n
  | .startMem => .mem
  | .phi => g.phiType n
  | .cast => if !g.ctrlLive n ∨ ty 1 = .top then .top else (ty 1).join (g.decl n)
  | .arith op => (ty 1).arith op (ty 2)
  | .floatArith op => (ty 1).floatArith op (ty 2)
  | .bit op => (ty 1).bit op (ty 2)
  | .neg => (ty 1).neg
  | .not => (ty 1).not
  | .cmp op => (ty 1).cmp op (ty 2)
  | .floatCmp op => (ty 1).floatCmp op (ty 2)
  | .toFloat => (ty 1).toFloat
  | .load => if !g.ctrlLive n ∨ ty 1 = .top ∨ ty 2 = .top then .top else g.decl n
  | .store => if !g.ctrlLive n ∨ ty 1 = .top ∨ ty 2 = .top then .top else .mem
  | .alloc => if !g.ctrlLive n ∨ ty 1 = .top then .top else g.decl n
  | .proj i =>
    match g.op? (g.input n 0) with
    | some .alloc => if ty 0 = .top then .top else .mem
    | some .callEnd => if ty 0 ≠ .ctrl then .top else if i = 0 then .mem else g.decl n
    | _ => .top
  | .scope => .bottom

/-- `typeOf`, except that a cast of a known input with nothing left in common keeps the type it had,
or its declared type, and does not go back to `top`. -/
def settledType (g : Graph) (n : NodeId) : Ty :=
  let t := g.typeOf n
  if t = .top ∧ g.op n = .cast ∧ g.ctrlLive n ∧ g.ty (g.input n 1) ≠ .top then
    if g.ty (some n) = .top then g.decl n else g.ty (some n)
  else t

end Graph

end SeaNodes
