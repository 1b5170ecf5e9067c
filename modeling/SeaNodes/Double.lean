
namespace SeaNodes

/-- A binary64 number, given by its encoding. -/
structure Double where
  bits : UInt64
deriving DecidableEq, Hashable, Inhabited

namespace Double

def toFloat (x : Double) : Float := Float.ofBits x.bits

def isNaN (x : Double) : Bool := 0x7ff0000000000000 < x.bits &&& 0x7fffffffffffffff

def isNegative (x : Double) : Bool := x.bits >>> 63 != 0

/-- The NaN produced by an invalid operation on operands that are no NaN themselves. -/
def invalid : Double := ⟨0xfff8000000000000⟩

def quiet (x : Double) : Double := ⟨x.bits ||| 0x0008000000000000⟩

def ofFloat (x : Float) : Double := if x.isNaN then invalid else ⟨x.toBits⟩

/-- A binary operation, with the NaN rules around it. -/
def lift (f : Float → Float → Float) (x y : Double) : Double :=
  if x.isNaN then x.quiet
  else if y.isNaN then y.quiet
  else ofFloat (f x.toFloat y.toFloat)

def add : Double → Double → Double := lift (· + ·)
def sub : Double → Double → Double := lift (· - ·)
def mul : Double → Double → Double := lift (· * ·)
def div : Double → Double → Double := lift (· / ·)

def neg (x : Double) : Double := ⟨x.bits ^^^ 0x8000000000000000⟩

/-- The number nearest to an integer, a tie going to the even one. -/
def ofInt64 (v : Int64) : Double := ofFloat (Float.ofInt v.toInt)

/-- Equality of numbers: both zeros are equal, and a NaN differs from itself. -/
def eq (x y : Double) : Bool := x.toFloat == y.toFloat
def lt (x y : Double) : Bool := x.toFloat < y.toFloat
def le (x y : Double) : Bool := x.toFloat ≤ y.toFloat

def isZero (x : Double) : Bool := x.bits &&& 0x7fffffffffffffff == 0

def zero : Double := ⟨0⟩

def one : Double := ⟨0x3ff0000000000000⟩

/-- Negative zero leaves every number as it is when it is added, so it is the empty sum. -/
def sum (xs : List Double) : Double := xs.foldl add ⟨0x8000000000000000⟩

/-- `r * a ^ b` by repeated squaring. -/
def mulPow (r a : Double) (b : Nat) : Double :=
  let r := if b % 2 = 1 then r.mul a else r
  if b / 2 = 0 then r else mulPow r (a.mul a) (b / 2)
termination_by b

/-- A negative power is the inverse of the positive one. -/
def pow (a : Double) (b : Int) : Double :=
  let r := mulPow one a b.natAbs
  if b < 0 then one.div r else r

/-- Where a number stands in the order of all encodings: negative ones first, from the largest
magnitude down, then positive ones. -/
def rank (x : Double) : UInt64 :=
  if x.isNegative then ~~~x.bits else x.bits ||| 0x8000000000000000

end Double

end SeaNodes
