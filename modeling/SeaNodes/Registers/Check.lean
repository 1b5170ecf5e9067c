import SeaNodes.Fault
import SeaNodes.Registers.Live

namespace SeaNodes

variable {τ : Type}

namespace Inst

/-- Checks the operands of an instruction by themselves. -/
def operandFlaw? (file : RegFile) (regs : Array Reg) (i : Inst τ) : Option AllocFlaw :=
  let reg (v : VReg) : Reg := regs.getD v 0
  let outside := i.operands.findSome? fun o =>
    if o.mask.contains (reg o.vreg) then none
    else some (.outsideMask o.vreg (file.name (reg o.vreg)))
  outside.or do
    let (d, u) ← i.tie?
    if reg d = reg u then none else some (.tiedApart d u)

/-- Checks the defs of an instruction against each other, `written` being those before, and against
what is live after it. -/
def defFlaw? (file : RegFile) (regs : Array Reg) (i : Inst τ) (after : List VReg) :
    RegMask → List Operand → Option AllocFlaw
  | _, [] => none
  | written, d :: rest =>
    let r := regs.getD d.vreg 0
    if written.contains r then some (.writtenTwice (file.name r))
    else
      let clash := after.find? fun v =>
        v != d.vreg && some v != i.source? && regs.getD v 0 == r
      match clash with
      | some v => some (.overwritesLive d.vreg v (file.name r))
      | none => i.defFlaw? file regs after (written.insert r) rest

def killFlaw? (file : RegFile) (regs : Array Reg) (i : Inst τ) (after : List VReg) :
    Option AllocFlaw :=
  if i.kill.isEmpty then none
  else
    (after.find? fun v => !i.defines v && i.kill.contains (regs.getD v 0)).map fun v =>
      .liveAcross v (file.name (regs.getD v 0))

def liveFlaw? (file : RegFile) (regs : Array Reg) (i : Inst τ) (after : BitSet) :
    Option AllocFlaw :=
  (i.defFlaw? file regs after.toList .empty i.defs).or (i.killFlaw? file regs after.toList)

end Inst

namespace MachFunction

def flaw? (f : MachFunction τ) (file : RegFile) (regs : Array Reg) : Option (Edge × AllocFlaw) :=
  if regs.size < f.vregs.size then some (none, .registerCount regs.size f.vregs.size)
  else
    let alone := f.insts.findSome? fun i => (i.operandFlaw? file regs).map (i.node, ·)
    match alone with
    | some flaw => some flaw
    | none => (Liveness.ofFunction f).walk f (fun i after found =>
        match found with
        | some flaw => some flaw
        | none => (i.liveFlaw? file regs after).map (i.node, ·)) none

/-- Accepts a right assignment. -/
def verify (f : MachFunction τ) (file : RegFile) (regs : Array Reg) : Except Fault Unit :=
  match f.flaw? file regs with
  | some (node, flaw) => .error (.internal .regalloc (some node) (.alloc f.name flaw))
  | none => .ok ()

end MachFunction

end SeaNodes
