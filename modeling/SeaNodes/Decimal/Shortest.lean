
namespace SeaNodes.Decimal

/-- The number `mant * 2 ^ exp`, with the shape of the gap below it. -/
structure Binary where
  mant : Nat
  exp : Int
  /-- The gap to the number below is half the gap to the number above. -/
  narrowBelow : Bool

/-- The magnitude encoded by the bits of a finite number. -/
def Binary.ofBits (b : UInt64) : Binary :=
  let e := ((b >>> 52) &&& 0x7ff).toNat
  let f := (b &&& 0xfffffffffffff).toNat
  if e = 0 then ⟨f, -1074, false⟩ else ⟨Nat.pow 2 52 + f, (e : Int) - 1075, f == 0 && 1 < e⟩

/-- The number `digits * 10 ^ exp`. -/
structure Scaled where
  digits : Nat
  exp : Int
deriving DecidableEq

/-- Compares `a * 10 ^ i` with `n * 2 ^ j`. -/
def cmpScaled (a : Nat) (i : Int) (n : Nat) (j : Int) : Ordering :=
  compare (a * Nat.pow 10 i.toNat * Nat.pow 2 (-j).toNat)
    (n * Nat.pow 2 j.toNat * Nat.pow 10 (-i).toNat)

/-- Whether `d` lies among the reals that round to `x`. -/
def Binary.readsBack (x : Binary) (d : Scaled) : Bool :=
  let low := if x.narrowBelow then 4 * x.mant - 1 else 4 * x.mant - 2
  let closed := x.mant % 2 == 0
  let below := cmpScaled d.digits d.exp low (x.exp - 2)
  let above := cmpScaled d.digits d.exp (4 * x.mant + 2) (x.exp - 2)
  (below == .gt || (closed && below == .eq)) && (above == .lt || (closed && above == .eq))

/-- The least `k` with `x < 10 ^ k`, for a positive `x`. The binary logarithm leaves three
candidates, which are compared exactly. -/
def Binary.magnitude (x : Binary) : Int :=
  let k := ((x.mant.log2 : Int) + x.exp) * 30103 / 100000
  if cmpScaled 1 k x.mant x.exp == .gt then k
  else if cmpScaled 1 (k + 1) x.mant x.exp == .gt then k + 1
  else k + 2

/-- The largest multiple of `10 ^ e` that is at most `x`, divided by `10 ^ e`. -/
def Binary.floorAt (x : Binary) (e : Int) : Nat :=
  (x.mant * Nat.pow 2 x.exp.toNat * Nat.pow 10 (-e).toNat) /
    (Nat.pow 10 e.toNat * Nat.pow 2 (-x.exp).toNat)

/-- The neighbour of `x` on the grid `10 ^ e` that reads back, if there is one. -/
def Binary.onGrid? (x : Binary) (e : Int) : Option Scaled :=
  let d := x.floorAt e
  let low : Scaled := ⟨d, e⟩
  let high : Scaled := ⟨d + 1, e⟩
  match x.readsBack low, x.readsBack high with
  | false, false => none
  | true, false => some low
  | false, true => some high
  | true, true =>
    if cmpScaled (2 * d + 1) e x.mant (x.exp + 1) == .gt then some low else some high

/-- Moves trailing zeros of the digits into the exponent. -/
def Scaled.strip (d : Scaled) : Scaled :=
  go 20 d
where
  go : Nat → Scaled → Scaled
    | 0, d => d
    | n + 1, d => if d.digits % 10 = 0 ∧ d.digits ≠ 0 then go n ⟨d.digits / 10, d.exp + 1⟩ else d

/-- The exact decimal value of `x`. -/
def Binary.exact (x : Binary) : Scaled :=
  if 0 ≤ x.exp then ⟨x.mant * Nat.pow 2 x.exp.toNat, 0⟩
  else ⟨x.mant * Nat.pow 5 (-x.exp).toNat, x.exp⟩

/-- The shortest decimal that reads back as `x`, without trailing zeros. -/
def Binary.shortest (x : Binary) : Scaled :=
  if x.mant = 0 then ⟨0, 0⟩
  else
    let k := x.magnitude
    let found := (List.range 17).findSome? fun n : Nat => x.onGrid? (k - ((n : Int) + 1))
    (found.getD x.exact).strip

end SeaNodes.Decimal
