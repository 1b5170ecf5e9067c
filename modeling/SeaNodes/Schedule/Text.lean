import SeaNodes.Graph.Text
import SeaNodes.Schedule.Basic

namespace SeaNodes.Schedule

def blockName (s : Schedule) (b : BlockId) : String :=
  match s.layout.idxOf? b with
  | some i => "B" ++ toString i
  | none => "B?"

def headLine (s : Schedule) (b : BlockId) : String :=
  let block := s.cfg.block b
  let preds := String.join (block.preds.map fun p => " " ++ s.blockName p)
  s.blockName b ++ ":" ++ (if block.preds.isEmpty then "" else " preds" ++ preds)
    ++ (if block.loopDepth = 0 then "" else " ; loop depth " ++ toString block.loopDepth)

/-- The line of a node; the head of a block has none of its own. -/
def nodeLine? (g : Graph) (s : Schedule) (b : BlockId) (n : NodeId) : Option String :=
  let block := s.cfg.block b
  let plain := if n = block.head then none else some (g.nodeLine n)
  match g.op n with
  | .start | .region | .loop | .ctrlProj _ => plain
  | .phi =>
    let arms := ((g.inputs n).toList.drop 1).zip block.preds
    let arm : Edge × BlockId → String := fun (v, p) => s.blockName p ++ ": " ++ idText v
    some (idText n ++ " = phi [" ++ ", ".intercalate (arms.map arm) ++ "] : "
      ++ (g.ty (some n)).text)
  | .fork =>
    some ("if " ++ idText (g.input n 1) ++ " -> "
      ++ ", ".intercalate (block.succs.map s.blockName))
  | .ret => some ("return " ++ idText (g.input n 2))
  | _ => some (g.nodeLine n)

def blockLines (g : Graph) (s : Schedule) (b : BlockId) : List String :=
  let block := s.cfg.block b
  let jump := match block.terminator, block.succs with
    | none, t :: _ => ["  goto " ++ s.blockName t]
    | _, _ => []
  s.headLine b :: ((s.nodes b).filterMap (nodeLine? g s b)).map ("  " ++ ·) ++ jump

def dump (g : Graph) (s : Schedule) : List String := s.layout.flatMap (blockLines g s)

end SeaNodes.Schedule
