import SeaNodes.Isa.Basic

namespace SeaNodes

/-- A function with its registers and its frame. -/
structure Allocated (τ : Type) where
  index : Nat
  func : MachFunction τ
  regs : Array Reg
  frame : Frame
deriving Inhabited

/-- A function as pieces of code. -/
structure Draft where
  index : Nat
  name : String
  blocks : List (List Piece)
deriving Inhabited

namespace Allocated

variable {τ : Type}

def operandRegs (a : Allocated τ) (i : Inst τ) : Except Fault OperandRegs := do
  let reg (o : Operand) : Except Fault Reg :=
    match a.regs[o.vreg]? with
    | some r => .ok r
    | none => .error (.internal .encode (some i.node) (.unassigned a.func.name o.vreg))
  let defs ← i.defs.mapM reg
  return { defs, uses := ← i.uses.mapM reg }

def instPieces (isa : Isa τ) (a : Allocated τ) (s : Surroundings) (i : Inst τ) :
    Except Fault (List Piece) := do
  let regs ← a.operandRegs i
  if i.isCopy && regs.d 0 == regs.u 0 then return []
  isa.expand s i.op regs

def blockPieces (isa : Isa τ) (names : Array String) (a : Allocated τ) (b : MachBlock τ) (i : Nat) :
    Except Fault (List Piece) := do
  if !b.phis.isEmpty then throw (.internal .encode none (.phisLeft a.func.name i))
  let s : Surroundings :=
    { frame := a.frame, names, block := i, blockCount := a.func.blocks.size }
  let entry := if i = 0 then (isa.prologue a.frame).map .fixed else []
  return entry ++ (← b.insts.mapM (a.instPieces isa s)).flatten

def draft (isa : Isa τ) (names : Array String) (a : Allocated τ) : Except Fault Draft := do
  let blocks ← a.func.blocks.toList.zipIdx.mapM fun (b, i) => a.blockPieces isa names b i
  return { index := a.index, name := a.func.name, blocks }

end Allocated

/-- A line of the listing. -/
structure AsmLine where
  /-- The offset in the function. -/
  offset : Nat
  size : Nat
  text : String
deriving DecidableEq, Inhabited

/-- The code of a function before relocation. -/
structure Encoded where
  index : Nat
  name : String
  code : Array UInt8 := #[]
  relocs : Array Reloc := #[]
  /-- The offsets of the blocks. -/
  blocks : Array Nat := #[]
  lines : Array AsmLine := #[]
  /-- The number of resizable pieces. -/
  sites : Nat := 0
deriving Inhabited

namespace Encoded

/-- Appends an item, which belongs to the resizable piece `site` if there is one. -/
def push (site : Option Nat) (e : Encoded) (i : Item) : Encoded :=
  let offset := e.code.size
  { e with
    code := e.code ++ i.bytes
    lines := e.lines.push ⟨offset, i.bytes.length, i.text⟩
    relocs := match i.fixup with
      | some x => e.relocs.push ⟨offset + x.offset, x.kind, x.target, site⟩
      | none => e.relocs }

def pushPiece (long : BitSet) (e : Encoded) : Piece → Encoded
  | .fixed i => e.push none i
  | .sized short wide =>
    let k := e.sites
    let e := { e with sites := k + 1 }
    if long.contains k then wide.foldl (push none) e else short.foldl (push (some k)) e

def pushBlock (long : BitSet) (e : Encoded) (pieces : List Piece) : Encoded :=
  pieces.foldl (pushPiece long) { e with blocks := e.blocks.push e.code.size }

end Encoded

/-- The code for a choice of long pieces. -/
def Draft.encode (d : Draft) (long : BitSet) : Encoded :=
  d.blocks.foldl (Encoded.pushBlock long) { index := d.index, name := d.name }

end SeaNodes
