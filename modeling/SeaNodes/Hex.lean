
namespace SeaNodes.Hex

def padded (width n : Nat) : String :=
  let ds := Nat.toDigits 16 n
  String.ofList (List.replicate (width - ds.length) '0' ++ ds)

/-- The digits of `n` after `0x`. -/
def marked (n : Nat) : String := "0x" ++ padded 1 n

/-- The number of a digit of either case. -/
def digit (c : Char) : Nat := if c.isDigit then c.toNat - 48 else c.toLower.toNat - 87

/-- The number that the digits of a text stand for. -/
def value (s : String) : Nat := s.foldl (fun n c => 16 * n + digit c) 0

/-- Two digits for each byte. -/
def ofBytes (bytes : List UInt8) : String := String.join (bytes.map fun b => padded 2 b.toNat)

def pairs : List Char → List UInt8
  | a :: b :: rest => (16 * digit a + digit b).toUInt8 :: pairs rest
  | _ => []

/-- The bytes of a text with two digits for each. -/
def toBytes (s : String) : List UInt8 := pairs s.toList

end SeaNodes.Hex
