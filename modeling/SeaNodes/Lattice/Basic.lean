import SeaNodes.Double

namespace SeaNodes

/-- The number of a struct or array layout. -/
abbrev StructId := Nat

/-- What a reference points at. -/
inductive Pointee where
  /-- Nothing known yet, as for `null`. -/
  | top
  | layout (id : StructId)
  /-- Some object of unknown layout. -/
  | any
deriving DecidableEq, Hashable, Inhabited

namespace Pointee

def meet : Pointee → Pointee → Pointee
  | .top, b => b
  | a, .top => a
  | a, b => if a = b then a else .any

/-- The common refinement, if there is one. -/
def join? : Pointee → Pointee → Option Pointee
  | .any, b => some b
  | a, .any => some a
  | .top, _ => some .top
  | _, .top => some .top
  | a, b => if a = b then some a else none

end Pointee

/-- Whether a reference is null. -/
inductive Nullness where
  | null
  | notNull
  | maybe
deriving DecidableEq, Hashable, Inhabited

namespace Nullness

def meet (a b : Nullness) : Nullness := if a = b then a else .maybe

def join? : Nullness → Nullness → Option Nullness
  | .maybe, b => some b
  | a, .maybe => some a
  | a, b => if a = b then some a else none

end Nullness

/-- A lattice element. -/
inductive Ty where
  /-- No information yet. -/
  | top
  /-- Conflicting information. -/
  | bottom
  /-- Live control. -/
  | ctrl
  /-- Dead control. -/
  | deadCtrl
  /-- The memory state. -/
  | mem
  /-- The integers from `lo` to `hi`. -/
  | int (lo hi : Int64)
  /-- One float, or any float. -/
  | float (value : Option Double)
  | ptr (obj : Pointee) (nil : Nullness)
  /-- One function by its number, or any function. -/
  | fn (index : Option Nat)
  /-- The sides of a branch that may run. -/
  | branch (onTrue onFalse : Bool)
deriving DecidableEq, Hashable, Inhabited

namespace Ty

def anyInt : Ty := .int Int64.minValue Int64.maxValue
def bool : Ty := .int 0 1
def anyFloat : Ty := .float none
def null : Ty := .ptr .top .null

/-- The single integer `v`. -/
def ofInt (v : Int64) : Ty := .int v v

def ofBool (b : Bool) : Ty := ofInt (if b then 1 else 0)

def ofDouble (x : Double) : Ty := .float (some x)

def ref (s : StructId) (nullable : Bool) : Ty :=
  .ptr (.layout s) (if nullable then .maybe else .notNull)

def isInt : Ty → Bool
  | .int .. => true
  | _ => false

def isFloat : Ty → Bool
  | .float _ => true
  | _ => false

def isPtr : Ty → Bool
  | .ptr .. => true
  | _ => false

/-- Integers, floats, references and functions: what a register can hold. -/
def isValue : Ty → Bool
  | .int .. | .float _ | .ptr .. | .fn _ => true
  | _ => false

/-- A single known value. -/
def isConstant : Ty → Bool
  | .int lo hi => lo == hi
  | .float v => v.isSome
  | .ptr _ nil => nil == .null
  | .fn f => f.isSome
  | _ => false

def int? : Ty → Option Int64
  | .int lo hi => if lo = hi then some lo else none
  | _ => none

def double? : Ty → Option Double
  | .float v => v
  | _ => none

def structId? : Ty → Option StructId
  | .ptr (.layout s) _ => some s
  | _ => none

def nullness? : Ty → Option Nullness
  | .ptr _ nil => some nil
  | _ => none

/-- Whether `0`, `0.0` or `null` is a member. -/
def mayBeZero : Ty → Bool
  | .int lo hi => lo ≤ 0 && 0 ≤ hi
  | .float (some x) => x.isZero
  | .float none => true
  | .ptr _ nil => nil != .notNull
  | .fn _ => false
  | _ => true

/-- The type of the all-zero value of a declared field type. -/
def zero : Ty → Ty
  | .float _ => ofDouble .zero
  | .ptr .. | .fn _ => null
  | _ => ofInt 0

/-- The same reference type without null. -/
def nonNull : Ty → Ty
  | .ptr obj _ => .ptr obj .notNull
  | t => t

/-- The whole kind of a constant or range. -/
def widen : Ty → Ty
  | .int .. => anyInt
  | .float _ => anyFloat
  | .fn _ => .fn none
  | t => t

/-- Greatest lower bound. -/
def meet (a b : Ty) : Ty :=
  if a = b then a
  else
    match a, b with
    | .top, b => b
    | a, .top => a
    | .bottom, _ => .bottom
    | _, .bottom => .bottom
    | .ctrl, .deadCtrl => .ctrl
    | .deadCtrl, .ctrl => .ctrl
    | .int l₁ h₁, .int l₂ h₂ => .int (min l₁ l₂) (max h₁ h₂)
    | .float _, .float _ => .float none
    | .ptr o₁ n₁, .ptr o₂ n₂ => .ptr (o₁.meet o₂) (n₁.meet n₂)
    | .fn _, .fn _ => .fn none
    | .branch t₁ f₁, .branch t₂ f₂ => .branch (t₁ || t₂) (f₁ || f₂)
    | _, _ => .bottom

/-- Least upper bound; `top` when the two have nothing in common. -/
def join (a b : Ty) : Ty :=
  if a = b then a
  else
    match a, b with
    | .bottom, b => b
    | a, .bottom => a
    | .top, _ => .top
    | _, .top => .top
    | .ctrl, .deadCtrl => .deadCtrl
    | .deadCtrl, .ctrl => .deadCtrl
    | .int l₁ h₁, .int l₂ h₂ =>
      if max l₁ l₂ ≤ min h₁ h₂ then .int (max l₁ l₂) (min h₁ h₂) else .top
    | .float none, .float v => .float v
    | .float v, .float none => .float v
    | .ptr o₁ n₁, .ptr o₂ n₂ =>
      match o₁.join? o₂, n₁.join? n₂ with
      | some o, some n => .ptr o n
      | _, _ => .top
    | .fn none, .fn f => .fn f
    | .fn f, .fn none => .fn f
    | .branch t₁ f₁, .branch t₂ f₂ => .branch (t₁ && t₂) (f₁ && f₂)
    | _, _ => .top

/-- Whether `a` is at or below `b` in the lattice. -/
def le (a b : Ty) : Bool := a.meet b == a

/-- Whether every value of `a` is one of `b`. -/
def isA (a b : Ty) : Bool := a.meet b == b

/-- A bound on how often a type can still go down. -/
def height : Ty → Nat
  | .top => Nat.pow 2 65 + 16
  | .int lo hi => Nat.pow 2 65 + 8 - (hi.toInt - lo.toInt).toNat
  | .ptr obj nil =>
    (match obj with | .top => 2 | .layout _ => 1 | .any => 0) + (if nil = .maybe then 0 else 1) + 1
  | .deadCtrl => 2
  | .branch t f => (if t then 0 else 1) + (if f then 0 else 1) + 1
  | .float v => if v.isSome then 2 else 1
  | .fn f => if f.isSome then 2 else 1
  | .ctrl => 1
  | .mem => 1
  | .bottom => 0

end Ty

end SeaNodes
