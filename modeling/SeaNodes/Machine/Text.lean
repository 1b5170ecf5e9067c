import SeaNodes.Lines
import SeaNodes.Machine.Function

namespace SeaNodes

/-- The name of block `b` in listings. -/
def blockLabel (b : Nat) : String := "B" ++ toString b

namespace MachFunction

variable {τ : Type}

def instRow (opText : MachOp τ → String) (name : VReg → String) (i : Inst τ) : String :=
  let list (os : List Operand) := ", ".intercalate (os.map fun o => name o.vreg)
  "  " ++ (if i.defs.isEmpty then "" else list i.defs ++ " = ") ++ opText i.op
    ++ (if i.uses.isEmpty then "" else " " ++ list i.uses)

def phiRow (name : VReg → String) (p : Phi) : String :=
  "  " ++ name p.dst ++ " = phi " ++ ", ".intercalate (p.args.map name)

def blockRows (opText : MachOp τ → String) (name : VReg → String) (b : MachBlock τ) (i : Nat) :
    List String :=
  let preds := if b.preds.isEmpty then "" else " preds " ++ " ".intercalate (b.preds.map blockLabel)
  (blockLabel i ++ ":" ++ preds) :: b.phis.map (phiRow name)
    ++ b.insts.map (instRow opText name)

def dump (f : MachFunction τ) (opText : MachOp τ → String) (name : VReg → String) :
    List String :=
  Lines.ofRows ((f.name ++ ":") :: f.blocks.toList.zipIdx.flatMap fun (b, i) =>
    blockRows opText name b i)

def assignedName (file : RegFile) (regs : Array Reg) (v : VReg) : String :=
  match regs[v]? with
  | some r => file.name r
  | none => VReg.text v

end MachFunction

end SeaNodes
