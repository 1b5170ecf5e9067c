import SeaNodes.Fault
import SeaNodes.Source.Syntax

namespace SeaNodes

/-- Bytes per field or array element. -/
def slotSize : Nat := 8

/-- Byte offset of element 0 of an array; its length is at offset 0. -/
def arrayBase : Nat := 8

structure Field where
  name : String
  ty : Ty
  offset : Nat
deriving DecidableEq, Inhabited

/-- The memory shape of a struct or an array. -/
structure Layout where
  name : String
  /-- The element type of an array, none for a struct. -/
  elem : Option Ty
  fields : List Field
  completed : Bool
deriving DecidableEq, Inhabited

namespace Layout

def ofStruct (name : String) (completed : Bool) : Layout := ⟨name, none, [], completed⟩

def ofArray (name : String) (elem : Ty) : Layout := ⟨name, some elem, [⟨"#", .anyInt, 0⟩], true⟩

/-- The bytes of an instance of a struct. -/
def size (l : Layout) : Nat := max (l.fields.length * slotSize) slotSize

def field? (l : Layout) (name : String) : Option Field := l.fields.find? (·.name == name)

end Layout

structure Signature where
  name : String
  params : List Ty
  ret : Ty
deriving DecidableEq, Inhabited

/-- What is known about a program beyond a single function. The tables number the structs by name, the
arrays by element type and the functions by name; the latest entry for a key counts. -/
structure Context where
  layouts : Array Layout := #[]
  structs : List (String × StructId) := []
  arrays : List (Ty × StructId) := []
  functions : Array Signature := #[]
  functionIndex : List (String × Nat) := []
deriving Inhabited

namespace Context

def structId? (c : Context) (name : String) : Option StructId := c.structs.lookup name

def arrayId? (c : Context) (elem : Ty) : Option StructId := c.arrays.lookup elem

def layout (c : Context) (s : StructId) : Layout := c.layouts.getD s default

def functionIndex? (c : Context) (name : String) : Option Nat := c.functionIndex.lookup name

def function? (c : Context) (i : Nat) : Option Signature := c.functions[i]?

def callee? (c : Context) : Ty → Option Signature
  | .fn (some i) => c.function? i
  | _ => none

/-- The spelling of a lattice type in diagnoses. -/
def typeName (c : Context) (t : Ty) : String :=
  match t with
  | .ptr _ .null => "null"
  | .ptr obj nil =>
    "*" ++ (match obj with
      | .layout s =>
        match c.layouts[s]? with
        | some l => l.name
        | none => "S" ++ toString s
      | .top => "~"
      | .any => "any") ++ (if nil = .maybe then "?" else "")
  | .fn (some i) =>
    match c.function? i with
    | some f => "fn " ++ f.name
    | none => "fn#" ++ toString i
  | t => t.text

/-- The number of the array layout with elements `elem`, added if it is new. -/
def internArray (c : Context) (elem : Ty) : StructId × Context :=
  match c.arrayId? elem with
  | some s => (s, c)
  | none =>
    let s := c.layouts.size
    (s, { c with
      layouts := c.layouts.push (.ofArray (c.typeName elem ++ "[]") elem)
      arrays := (elem, s) :: c.arrays })

/-- The lattice type of a declared type, and the context with the array layouts that were added for
it, also when it fails. -/
def resolveInPlace (c : Context) : TypeExpr → Except Fault Ty × Context
  | .int => (.ok .anyInt, c)
  | .float => (.ok .anyFloat, c)
  | .ref name nullable =>
    match c.structId? name with
    | some s => (.ok (.ref s nullable), c)
    | none => (.error (.illegal name .unknownStruct), c)
  | .array elem nullable =>
    match c.resolveInPlace elem with
    | (.ok elem, c) =>
      let (s, c) := c.internArray elem
      (.ok (.ref s nullable), c)
    | (.error e, c) => (.error e, c)

/-- The lattice type of a declared type, where a failure ends the construction of the context. -/
def resolve (c : Context) (t : TypeExpr) : Except Fault (Ty × Context) :=
  match c.resolveInPlace t with
  | (.ok t, c) => .ok (t, c)
  | (.error e, _) => .error e

def resolveAll (c : Context) : List TypeExpr → Except Fault (List Ty × Context)
  | [] => .ok ([], c)
  | t :: ts => do
    let (t, c) ← c.resolve t
    let (ts, c) ← c.resolveAll ts
    return (t :: ts, c)

def declareStruct (c : Context) (d : StructDecl) : Except Fault Context :=
  if (c.structId? d.name).isSome then .error (.illegal d.name .structTwice)
  else .ok { c with
    layouts := c.layouts.push (.ofStruct d.name d.completed)
    structs := (d.name, c.layouts.size) :: c.structs }

/-- The fields of struct `name`, after those in `before`. -/
def resolveFields (c : Context) (name : String) (before : List Field) :
    List (String × TypeExpr) → Except Fault (List Field × Context)
  | [] => .ok (before, c)
  | (f, t) :: rest => do
    if before.any (·.name == f) then throw (.illegal (name ++ "." ++ f) .fieldTwice)
    let (t, c) ← c.resolve t
    c.resolveFields name (before ++ [⟨f, t, before.length * slotSize⟩]) rest

def defineStruct (c : Context) (d : StructDecl) : Except Fault Context := do
  let (fields, c) ← c.resolveFields d.name [] d.fields
  match c.structId? d.name with
  | some s => return { c with layouts := c.layouts.modify s ({ · with fields }) }
  | none => return c

def declareFunction (c : Context) (d : FunctionDecl) : Except Fault Context := do
  if (c.functionIndex? d.name).isSome then throw (.illegal d.name .functionTwice)
  let (params, c) ← c.resolveAll (d.params.map (·.2))
  let (ret, c) ← c.resolve d.ret
  return { c with
    functions := c.functions.push ⟨d.name, params, ret⟩
    functionIndex := (d.name, c.functions.size) :: c.functionIndex }

/-- The structs and function signatures of a program. All struct names are known before the first
field is resolved, so fields may mention any struct. -/
def ofProgram (p : Program) : Except Fault Context := do
  let c ← p.structs.foldlM declareStruct {}
  let c ← p.structs.foldlM defineStruct c
  p.functions.foldlM declareFunction c

end Context

end SeaNodes
