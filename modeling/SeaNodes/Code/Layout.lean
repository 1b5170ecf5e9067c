import SeaNodes.Code.Encoded

namespace SeaNodes

structure EncodeConfig where
  /-- Functions start at multiples of this. -/
  align : Nat := 16
  /-- How many layouts are tried; by default there are enough for every case. -/
  maxPasses : Option Nat := none
deriving Inhabited

structure CodeLayout where
  /-- The offset of each function. -/
  functions : Array Nat := #[]
  /-- The positions of the functions by their numbers. -/
  byIndex : Std.HashMap Nat Nat := {}
  pool : ConstantPool := {}
  poolOffset : Nat := 0
  /-- The size with the pool. -/
  size : Nat := 0
deriving Inhabited

/-- The next multiple of `align`. -/
def alignTo (n align : Nat) : Nat :=
  let align := max align 1
  (n + align - 1) / align * align

namespace CodeLayout

/-- Places a function after the end of those before it. -/
def place (align : Nat) (s : CodeLayout × Nat) (f : Encoded) : CodeLayout × Nat :=
  let (l, end_) := s
  let start := alignTo end_ align
  let pool := f.relocs.foldl (fun p r =>
    match r.target with
    | .pool e => p.insert e
    | _ => p) l.pool
  ({ l with
      functions := l.functions.push start
      byIndex := l.byIndex.insert f.index l.functions.size
      pool }, start + f.code.size)

def ofFunctions (fs : List Encoded) (align : Nat) : CodeLayout :=
  let (l, end_) := fs.foldl (place align) ({}, 0)
  let poolOffset := alignTo end_ 8
  { l with poolOffset, size := poolOffset + l.pool.byteSize }

def functionOffset? (l : CodeLayout) (index : Nat) : Option Nat :=
  l.byIndex[index]?.map (l.functions.getD · 0)

def target? (l : CodeLayout) (f : Encoded) (pos : Nat) : RelocTarget → Option Nat
  | .block b => f.blocks[b]?.map (l.functions.getD pos 0 + ·)
  | .function i => l.functionOffset? i
  | .pool e => (l.pool.offset? e).map (l.poolOffset + ·)

def resolve (l : CodeLayout) (f : Encoded) (pos : Nat) (r : Reloc) : Except Fault (Nat × Nat) :=
  match l.target? f pos r.target with
  | some t => .ok (l.functions.getD pos 0 + r.offset, t)
  | none => .error (.internal .link none (.unresolvedTarget f.name r.target))

/-- The short pieces of a function that do not reach their targets. -/
def tooShort (l : CodeLayout) (f : Encoded) (pos : Nat) : Except Fault (List Nat) := do
  let found ← f.relocs.toList.filterMapM fun r =>
    match r.site with
    | none => return none
    | some k => do
      let (site, target) ← l.resolve f pos r
      return if r.kind.fits (r.kind.displacement site target) then none else some k
  return found

end CodeLayout

/-- A program whose pieces all have their final sizes. -/
structure EncodedProgram where
  target : Target
  functions : List Encoded
  layout : CodeLayout
  /-- The number of layouts that were tried. -/
  passes : Nat
deriving Inhabited

/-- Lays out the drafts, with at most `fuel` more tries after this one. -/
def settleSizes (target : Target) (align : Nat) (drafts : List Draft) :
    Nat → Nat → List BitSet → Except Fault EncodedProgram
  | fuel, passes, long => do
    let functions := drafts.zipWith Draft.encode long
    let layout := CodeLayout.ofFunctions functions align
    let grown ← functions.zipIdx.mapM fun (f, pos) => layout.tooShort f pos
    if grown.all (·.isEmpty) then return { target, functions, layout, passes }
    else
      match fuel with
      | 0 => throw (.internal .encode none (.sizesUnsettled passes))
      | k + 1 =>
        settleSizes target align drafts k (passes + 1)
          (long.zipWith (fun s g => g.foldl BitSet.insert s) grown)

/-- The number of resizable pieces. -/
def Draft.sites (d : Draft) : Nat := d.blocks.flatten.countP fun
  | .sized .. => true
  | .fixed _ => false

def Isa.encode {τ : Type} (isa : Isa τ) (names : Array String) (cfg : EncodeConfig)
    (fs : List (Allocated τ)) : Except Fault EncodedProgram := do
  let drafts ← fs.mapM (·.draft isa names)
  let limit := cfg.maxPasses.getD (drafts.foldr (·.sites + ·) 2)
  settleSizes isa.target cfg.align drafts (limit - 1) 1 (drafts.map fun _ => .empty)

end SeaNodes
