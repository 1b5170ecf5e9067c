import SeaNodes.Lattice.Text

namespace SeaNodes

/-- The declared type of a variable, field, parameter or result. -/
inductive TypeExpr where
  | int
  | float
  | ref (name : String) (nullable : Bool)
  | array (elem : TypeExpr) (nullable : Bool)
deriving DecidableEq, Inhabited

inductive UnaryOp where
  | neg | not
deriving DecidableEq, Inhabited

inductive BinaryOp where
  | add | sub | mul | div
  | and | or | xor | shl
  /-- Logical shift right. -/
  | shr
  /-- Arithmetic shift right. -/
  | sar
  | eq | ne | lt | le | gt | ge
deriving DecidableEq, Inhabited

def BinaryOp.symbol : BinaryOp → String
  | .add => "+"
  | .sub => "-"
  | .mul => "*"
  | .div => "/"
  | .and => "&"
  | .or => "|"
  | .xor => "^"
  | .shl => "<<"
  | .shr => ">>>"
  | .sar => ">>"
  | .eq => "=="
  | .ne => "!="
  | .lt => "<"
  | .le => "<="
  | .gt => ">"
  | .ge => ">="

def BinaryOp.ofSymbol? (s : String) : Option BinaryOp :=
  [.add, .sub, .mul, .div, .and, .or, .xor, .shl, .shr, .sar, .eq, .ne, .lt, .le, .gt, .ge].find?
    (·.symbol == s)

inductive Expr where
  | int (value : Int64)
  | float (value : Double)
  | bool (value : Bool)
  | null
  | var (name : String)
  | unary (op : UnaryOp) (arg : Expr)
  | binary (op : BinaryOp) (left right : Expr)
  | field (base : Expr) (name : String)
  | index (base index : Expr)
  /-- The length of an array. -/
  | length (base : Expr)
  | new (struct : String)
  | newArray (elem : TypeExpr) (length : Expr)
  | call (function : String) (args : List Expr)
  /-- A cast that has to be proved when the program is compiled. -/
  | cast (type : TypeExpr) (arg : Expr)
  | toFloat (arg : Expr)
deriving Inhabited

namespace Expr

mutual

/-- The spelling of an expression in diagnoses. -/
def describe : Expr → String
  | .int v => toString v
  | .float x => x.constantText
  | .bool b => if b then "true" else "false"
  | .null => "null"
  | .var x => x
  | .unary .neg e => "-" ++ e.describe
  | .unary .not e => "!" ++ e.describe
  | .binary op a b => a.describe ++ " " ++ op.symbol ++ " " ++ b.describe
  | .field e f => e.describe ++ "." ++ f
  | .index e i => e.describe ++ "[" ++ i.describe ++ "]"
  | .length e => "#" ++ e.describe
  | .new s => "new " ++ s
  | .newArray _ n => "new [" ++ n.describe ++ "]"
  | .call f args => f ++ "(" ++ ", ".intercalate (describeAll args) ++ ")"
  | .cast _ e => "cast " ++ e.describe
  | .toFloat e => "flt(" ++ e.describe ++ ")"

def describeAll : List Expr → List String
  | [] => []
  | e :: es => e.describe :: describeAll es

end

end Expr

inductive Stmt where
  | declare (name : String) (type : TypeExpr) (value : Expr)
  | assign (name : String) (value : Expr)
  | setField (base : Expr) (field : String) (value : Expr)
  | setIndex (base index value : Expr)
  | branch (cond : Expr) (onTrue onFalse : List Stmt)
  | loop (cond : Expr) (body : List Stmt)
  | leave
  | again
  | ret (value : Expr)
  | eval (value : Expr)
deriving Inhabited

structure StructDecl where
  name : String
  fields : List (String × TypeExpr)
  /-- False for a forward declaration, whose fields are not known. -/
  completed : Bool := true
deriving Inhabited

structure FunctionDecl where
  name : String
  params : List (String × TypeExpr)
  ret : TypeExpr
  body : List Stmt
deriving Inhabited

structure Program where
  structs : List StructDecl := []
  functions : List FunctionDecl := []
deriving Inhabited

end SeaNodes
