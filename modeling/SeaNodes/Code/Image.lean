import SeaNodes.Code.Layout
import SeaNodes.Lines

namespace SeaNodes

/-- Where a function is in an image. -/
structure FunctionSymbol where
  index : Nat
  name : String
  offset : Nat
  size : Nat
  /-- The offsets of the blocks. -/
  blocks : Array Nat
deriving Inhabited

structure Image where
  target : Target
  bytes : Array UInt8
  functions : List FunctionSymbol
  poolOffset : Nat
  pool : Array PoolEntry
  /-- The lines of the listing. -/
  listing : List String
deriving Inhabited

namespace Image

def symbol? (i : Image) (name : String) : Option FunctionSymbol :=
  i.functions.find? (·.name == name)

def codeOf? (i : Image) (name : String) : Option (Array UInt8) := do
  let f ← i.symbol? name
  guard (f.offset + f.size ≤ i.bytes.size)
  return i.bytes.extract f.offset (f.offset + f.size)

end Image

/-- The row of an instruction. -/
def AsmLine.render (bytes : Array UInt8) (base : Nat) (l : AsmLine) : String :=
  let start := base + l.offset
  let code := if start + l.size ≤ bytes.size then bytes.extract start (start + l.size) else #[]
  let hex := " ".intercalate (code.toList.map fun b => Hex.padded 2 b.toNat)
  "  " ++ Hex.padded 4 start ++ "  " ++ hex ++ String.ofList (List.replicate (20 - hex.length) ' ')
    ++ "  " ++ l.text

/-- The rows of a function, with the labels of blocks before the instructions they start at. -/
def listRows (bytes : Array UInt8) (base : Nat) :
    List (Nat × Nat) → List AsmLine → List String
  | blocks, [] => blocks.map fun b => blockLabel b.2 ++ ":"
  | blocks, l :: rest =>
    let started (b : Nat × Nat) : Bool := b.1 ≤ l.offset
    (blocks.takeWhile started).map (fun b => blockLabel b.2 ++ ":")
      ++ l.render bytes base :: listRows bytes base (blocks.dropWhile started) rest

def Encoded.listing (f : Encoded) (bytes : Array UInt8) (base : Nat) : List String :=
  (f.name ++ ":") :: listRows bytes base f.blocks.toList.zipIdx f.lines.toList

def CodeLayout.poolListing (l : CodeLayout) : List String :=
  if l.pool.size = 0 then []
  else "pool:" :: l.pool.entries.toList.zipIdx.map fun (e, i) =>
    "  " ++ Hex.padded 4 (l.poolOffset + 8 * i) ++ "  " ++ e.text

/-- The byte between functions. -/
def Arch.padding : Arch → UInt8
  | .x64 => 0xcc
  | .arm64 | .riscv64 => 0

def putFunction (bytes : Array UInt8) (f : Encoded) (base : Nat) : Except Fault (Array UInt8) :=
  if base + f.code.size ≤ bytes.size then
    .ok (f.code.foldl (fun (bytes, i) b => (bytes.setIfInBounds i b, i + 1)) (bytes, base)).1
  else .error (.internal .link none (.overrun f.name (base + f.code.size)))

/-- Fills in the relocations of the function at position `pos`. -/
def relocate (l : CodeLayout) (bytes : Array UInt8) (f : Encoded) (pos : Nat) :
    Except Fault (Array UInt8) :=
  f.relocs.foldlM (fun bytes r => do
    let (site, target) ← l.resolve f pos r
    match r.kind.patch bytes site target with
    | .ok bytes => return bytes
    | .error e => throw (.internal .link none (.patch f.name e r.target site))) bytes

/-- Puts a program together. -/
def EncodedProgram.link (p : EncodedProgram) (symbols : Symbols) : Except Fault Image := do
  let l := p.layout
  let base (pos : Nat) : Nat := l.functions.getD pos 0
  let fs := p.functions.zipIdx
  let start := Array.replicate l.poolOffset p.target.arch.padding
  let code ← fs.foldlM (fun bytes (f, pos) => putFunction bytes f (base pos)) start
  let words ← match l.pool.bytes symbols with
    | .ok w => pure w
    | .error s => throw (.internal .link none (.unresolvedSymbol s))
  let bytes ← fs.foldlM (fun bytes (f, pos) => relocate l bytes f pos) (code ++ words)
  return {
    target := p.target
    bytes
    functions := fs.map fun (f, pos) =>
      { index := f.index, name := f.name, offset := base pos, size := f.code.size
        blocks := f.blocks.map (base pos + ·) }
    poolOffset := l.poolOffset
    pool := l.pool.entries
    listing := Lines.ofRows
      (fs.flatMap (fun (f, pos) => f.listing bytes (base pos)) ++ l.poolListing) }

end SeaNodes
