import SeaNodes.Table
import SeaNodes.Graph.Op

namespace SeaNodes

abbrev NodeId := Nat

/-- An input of a node; it may be absent. -/
abbrev Edge := Option NodeId

/-- What makes two nodes equal for value numbering. -/
structure NodeKey where
  op : Op
  decl : Ty
  inputs : Array Edge
deriving DecidableEq

/-- The list that a key belongs to. -/
def NodeKey.slot (k : NodeKey) : Nat :=
  k.inputs.foldl (fun s e => max s (e.elim 0 (· + 1))) 0

structure ValueNumbers where
  entries : SideTable (List (NodeKey × NodeId)) := {}
deriving Inhabited

namespace ValueNumbers

def find? (t : ValueNumbers) (k : NodeKey) : Option NodeId := (t.entries.get k.slot).lookup k

def erase (t : ValueNumbers) (k : NodeKey) : ValueNumbers :=
  ⟨t.entries.modify k.slot (·.filter (·.1 != k))⟩

def insert (t : ValueNumbers) (k : NodeKey) (n : NodeId) : ValueNumbers :=
  ⟨t.entries.modify k.slot fun l => (k, n) :: l.filter (·.1 != k)⟩

end ValueNumbers

end SeaNodes
