
namespace SeaNodes

/-- A set of small numbers. -/
structure BitSet where
  flags : Array Bool := #[]
deriving DecidableEq, Inhabited

namespace BitSet

/-- The number of flags stored when `n` are needed. -/
def groupSize (n : Nat) : Nat := (n + 63) / 64 * 64

def empty : BitSet := {}

def withCapacity (n : Nat) : BitSet := ⟨Array.replicate (groupSize n) false⟩

def contains (s : BitSet) (i : Nat) : Bool := s.flags.getD i false

/-- Makes room for the numbers below `n`. -/
def reserve (s : BitSet) (n : Nat) : BitSet :=
  if n ≤ s.flags.size then s
  else ⟨s.flags ++ Array.replicate (groupSize n - s.flags.size) false⟩

def insert (s : BitSet) (i : Nat) : BitSet :=
  ⟨(s.reserve (i + 1)).flags.setIfInBounds i true⟩

def erase (s : BitSet) (i : Nat) : BitSet := ⟨s.flags.setIfInBounds i false⟩

def clear (s : BitSet) : BitSet := ⟨Array.replicate s.flags.size false⟩

/-- The members in ascending order. -/
def toList (s : BitSet) : List Nat := (List.range s.flags.size).filter s.contains

def isEmpty (s : BitSet) : Bool := !s.flags.any id

def count (s : BitSet) : Nat := s.flags.foldl (fun n b => if b then n + 1 else n) 0

def union (s t : BitSet) : BitSet :=
  let s := s.reserve t.flags.size
  ⟨s.flags.mapIdx fun i b => b || t.contains i⟩

/-- Whether every member of `t` is one of `s`. -/
def includes (s t : BitSet) : Bool :=
  (List.range t.flags.size).all fun i => !t.contains i || s.contains i

instance : ToString BitSet where
  toString s := "\x7b" ++ ", ".intercalate (s.toList.map toString) ++ "\x7d"

end BitSet

end SeaNodes
