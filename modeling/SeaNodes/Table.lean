
namespace SeaNodes

/-- The text of an optional table number. -/
def idText : Option Nat → String
  | some i => "%" ++ toString i
  | none => "%_"

/-- Entries addressed by the order in which they were added. -/
structure Table (α : Type) where
  items : Array α := #[]

namespace Table

variable {α : Type}

def push (t : Table α) (a : α) : Nat × Table α := (t.items.size, ⟨t.items.push a⟩)

def size (t : Table α) : Nat := t.items.size

def get? (t : Table α) (i : Nat) : Option α := t.items[i]?

/-- Replaces entry `i` if there is one. -/
def set (t : Table α) (i : Nat) (a : α) : Table α := ⟨t.items.setIfInBounds i a⟩

end Table

/-- One value per number, with a default beyond the end. -/
structure SideTable (α : Type) where
  items : Array α := #[]
deriving Inhabited

namespace SideTable

variable {α : Type} [Inhabited α]

def get (t : SideTable α) (i : Nat) : α := t.items.getD i default

def size (t : SideTable α) : Nat := t.items.size

/-- Makes room for the numbers below `n`. -/
def reserve (t : SideTable α) (n : Nat) : SideTable α :=
  if n ≤ t.items.size then t
  else ⟨t.items ++ Array.replicate (n - t.items.size) default⟩

def modify (t : SideTable α) (i : Nat) (f : α → α) : SideTable α :=
  ⟨(t.reserve (i + 1)).items.modify i f⟩

def set (t : SideTable α) (i : Nat) (a : α) : SideTable α :=
  ⟨(t.reserve (i + 1)).items.setIfInBounds i a⟩

end SideTable

end SeaNodes
