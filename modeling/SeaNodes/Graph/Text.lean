import SeaNodes.Graph.Basic

namespace SeaNodes.Graph

def nodeLine (g : Graph) (n : NodeId) : String :=
  let operand (e : Edge) : String := if e.isSome then idText e else "_"
  let operands := String.join ((g.inputs n).toList.map fun e => " " ++ operand e)
  idText n ++ " = " ++ (g.op n).name ++ operands ++ " : " ++ (g.ty (some n)).text

def dump (g : Graph) : List String := g.live.map g.nodeLine

/-- The live nodes with a heading that counts all. -/
def inspect (g : Graph) : List String :=
  let line (n : NodeId) : String :=
    let inputs := (g.inputs n).toList.map idText
    let list := if inputs.isEmpty then "" else " [" ++ ", ".intercalate inputs ++ "]"
    "  " ++ idText n ++ ": " ++ (g.op n).name ++ list ++ " : " ++ (g.ty (some n)).text
  ("Graph (" ++ toString g.size ++ " nodes):") :: g.live.map line

end SeaNodes.Graph
