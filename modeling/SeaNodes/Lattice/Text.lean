import SeaNodes.Lattice.Basic
import SeaNodes.Decimal.Style

namespace SeaNodes

/-- Float constants are written positionally from `1e-4` up to below `1e16`, and an integral value
keeps its point. -/
def Double.constantStyle : Decimal.Style where
  positional := some (-4, 16)
  pointZero := true

def Double.constantText (x : Double) : String := constantStyle.render x

namespace Ty

/-- The spelling of a type in graph dumps. -/
def text : Ty → String
  | .top => "top"
  | .bottom => "bot"
  | .ctrl => "ctrl"
  | .deadCtrl => "~ctrl"
  | .mem => "mem"
  | .int lo hi =>
    if lo = hi then toString lo
    else if lo = Int64.minValue ∧ hi = Int64.maxValue then "int"
    else "[" ++ toString lo ++ ".." ++ toString hi ++ "]"
  | .float (some x) => x.constantText
  | .float none => "flt"
  | .ptr obj nil =>
    if nil = .null then "null"
    else
      (match obj with
        | .top => "*~"
        | .layout s => "*S" ++ toString s
        | .any => "*any") ++ (if nil = .maybe then "?" else "")
  | .fn (some i) => "fn#" ++ toString i
  | .fn none => "fn"
  | .branch t f => "br[" ++ (if t then "T" else "") ++ (if f then "F" else "") ++ "]"

instance : ToString Ty := ⟨text⟩

end Ty

end SeaNodes
