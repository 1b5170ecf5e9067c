import SeaNodes.Double
import SeaNodes.Decimal.Shortest

namespace SeaNodes.Decimal

/-- The layout decisions of a number format. -/
structure Style where
  /-- Leading-digit exponents from the first bound up to below the second one are written
  positionally; without bounds all are. -/
  positional : Option (Int × Int)
  /-- An integral value ends in `.0` when it is written positionally. -/
  pointZero : Bool

/-- The digits of `n`, most significant first. -/
def digitsOf (n : Nat) : List Char := Nat.toDigits 10 n

def zeros (n : Nat) : List Char := List.replicate n '0'

/-- Positional layout of `d`. -/
def Style.plain (s : Style) (d : Scaled) : List Char :=
  let ds := digitsOf d.digits
  if 0 ≤ d.exp then
    ds ++ zeros d.exp.toNat ++ (if s.pointZero then ['.', '0'] else [])
  else
    let places := (-d.exp).toNat
    if places < ds.length then
      ds.take (ds.length - places) ++ '.' :: ds.drop (ds.length - places)
    else
      '0' :: '.' :: zeros (places - ds.length) ++ ds

/-- Layout with one digit before the point and an exponent. -/
def scientific (d : Scaled) : List Char :=
  let ds := digitsOf d.digits
  let e := d.exp + ((ds.length : Int) - 1)
  let mark := 'e' :: (toString e).toList
  match ds with
  | c :: rest@(_ :: _) => c :: '.' :: rest ++ mark
  | ds => ds ++ mark

/-- The text of a magnitude. -/
def Style.magnitude (s : Style) (d : Scaled) : List Char :=
  let lead := d.exp + ((digitsOf d.digits).length : Int) - 1
  match s.positional with
  | none => s.plain d
  | some (low, high) =>
    if d.digits = 0 ∨ (low ≤ lead ∧ lead < high) then s.plain d else scientific d

/-- The text of a number. -/
def Style.render (s : Style) (x : Double) : String :=
  if x.isNaN then "NaN"
  else
    let sign := if x.isNegative then "-" else ""
    let size := x.bits &&& 0x7fffffffffffffff
    if size = 0x7ff0000000000000 then sign ++ "inf"
    else sign ++ String.ofList (s.magnitude (Binary.ofBits size).shortest)

end SeaNodes.Decimal
