import SeaNodes.Scheduled
import SeaNodes.Select.Function
import SeaNodes.Registers.Allocate
import SeaNodes.Code.Image
import SeaNodes.Isa.X64
import SeaNodes.Isa.Arm64
import SeaNodes.Isa.RiscV

namespace SeaNodes

structure CompileOptions where
  target : Target := .ofArch .x64
  opt : OptConfig := {}
  alloc : AllocConfig := {}
  encode : EncodeConfig := {}
  /-- Addresses of symbols that the program calls. -/
  symbols : Symbols := {}
deriving Inhabited

/-- What is reported of a compiled function. -/
structure MachineSummary where
  name : String
  frame : Frame
  allocation : Allocation
  /-- The function with its registers. -/
  dump : List String
deriving Inhabited

section

variable {τ : Type} (isa : Isa τ)

/-- The back half for one function. -/
def Scheduled.compile (cfg : AllocConfig) (index : Nat) (f : Scheduled) :
    Except Fault (Allocated τ × MachineSummary) := do
  let selected ← isa.select f.sig f.graph f.schedule
  let (allocation, func) := selected.allocate isa.file cfg
  let allocation ← allocation
  let frame ← isa.frame func
  return ({ index, func, regs := allocation.regs, frame },
    { name := f.sig.name, frame, allocation, dump := isa.dumpAssigned func allocation.regs })

/-- The back half for a program. -/
def Scheduled.compileAll (opts : CompileOptions) (fs : List Scheduled) :
    Except Fault (EncodedProgram × List MachineSummary) := do
  let names := (fs.map (·.sig.name)).toArray
  let done ← fs.zipIdx.mapM fun (f, i) => f.compile isa opts.alloc i
  return (← isa.encode names opts.encode (done.map (·.1)), done.map (·.2))

end

structure Compiled where
  functions : List Scheduled
  machine : List MachineSummary
  image : Image
  /-- The number of layouts that were tried. -/
  passes : Nat
deriving Inhabited

namespace Compiled

def entry? (c : Compiled) (name : String) : Option Nat := (c.image.symbol? name).map (·.offset)

/-- The weight of all spill code. -/
def spillCost (c : Compiled) : Double := .sum (c.machine.map (·.allocation.spillCost))

end Compiled

def ConstantPool.missing? (p : ConstantPool) (symbols : Symbols) : Option String :=
  p.entries.toList.findSome? fun e =>
    match e with
    | .symbol s => if symbols.contains s then none else some s
    | _ => none

/-- The instruction set of a target, with the type of its tests. -/
def Target.isa (t : Target) : (τ : Type) × Isa τ :=
  match t.arch with
  | .x64 => ⟨_, X64.isa t.abi⟩
  | .arm64 => ⟨_, Arm64.isa⟩
  | .riscv64 => ⟨_, RiscV.isa⟩

def Program.compile (p : Program) (opts : CompileOptions) : Except Fault Compiled := do
  let (functions, _) ← p.schedule opts.opt
  let (encoded, machine) ← Scheduled.compileAll opts.target.isa.2 opts functions
  match encoded.layout.pool.missing? opts.symbols with
  | some s => throw (.illegal s .noAddress)
  | none =>
    let image ← encoded.link opts.symbols
    return { functions, machine, image, passes := encoded.passes }

end SeaNodes
