import SeaNodes.Graph.Basic

namespace SeaNodes

/-- How a graph is inconsistent. -/
inductive GraphFlaw where
  | deadInput (user input : NodeId)
  /-- The use list of `node` has `excess` fewer entries for `user` than `user` has edges to it. -/
  | useList (node user : NodeId) (excess : Int)
deriving DecidableEq

def GraphFlaw.message : GraphFlaw → String
  | .deadInput u d => idText u ++ " uses dead node " ++ idText d
  | .useList d u c =>
    "use list of " ++ idText d ++ " disagrees with inputs of " ++ idText u ++ " by " ++ toString c

namespace Graph

def edgeCount (g : Graph) (user d : NodeId) : Nat := (g.inputs user).count (some d)

def deadInput? (g : Graph) (n : NodeId) : Option GraphFlaw :=
  (g.inputs n).toList.reduceOption.find? g.isDead |>.map (.deadInput n)

/-- The first neighbour of `n` for which the two lists differ. -/
def useFlaw? (g : Graph) (n : NodeId) : Option GraphFlaw :=
  let differ (d u : NodeId) : Option GraphFlaw :=
    let edges := g.edgeCount u d
    let uses := (g.usesOf d).count u
    if edges = uses then none else some (.useList d u ((edges : Int) - uses))
  ((g.inputs n).toList.reduceOption.findSome? (differ · n)).or
    ((g.usesOf n).toList.findSome? (differ n ·))

def verify (g : Graph) : Except GraphFlaw Unit :=
  match (g.live.findSome? g.deadInput?).or (g.live.findSome? g.useFlaw?) with
  | some flaw => .error flaw
  | none => .ok ()

end Graph

end SeaNodes
