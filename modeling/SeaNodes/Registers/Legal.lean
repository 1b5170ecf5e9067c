import SeaNodes.Fault
import SeaNodes.Machine.Function

namespace SeaNodes

/-- New virtual registers are handed out by number. -/
abbrev FreshM := StateM (Array VRegInfo)

namespace FreshM

def fresh (info : VRegInfo) : FreshM VReg := modifyGet fun regs => (regs.size, regs.push info)

def classOf (v : VReg) : FreshM RegClass := do return ((← get).getD v default).cls

end FreshM

variable {τ : Type}

def Inst.ofCopy (file : RegFile) (c : RegClass) (node : Edge) (dst src : VReg) : Inst τ where
  op := .copy c
  defs := [⟨dst, file.ofClass c⟩]
  uses := [⟨src, file.ofClass c⟩]
  node := node

namespace MachFunction

/-- Turns phis of block `b` into copies at the ends of its predecessors; what is left are the
copies for the start of the block. -/
def lowerPhis (file : RegFile) (b : Nat) (preds : List Nat) :
    List Phi → MachFunction τ → Except Fault (List (Inst τ)) × MachFunction τ
  | [], f => (.ok [], f)
  | p :: rest, f =>
    if p.args.length ≠ preds.length then
      (.error (.internal .regalloc (some p.node)
        (.alloc f.name (.phiArity b p.args.length preds.length))), f)
    else
      let c := f.classOf p.dst
      let (t, f) := f.newVReg { cls := c }
      let f := (preds.zip p.args).foldl (fun f (q, arg) =>
        f.modifyBlock q (·.insertAtEnd [.ofCopy file c p.node t arg])) f
      let (heads, f) := lowerPhis file b preds rest f
      (heads.map (.ofCopy file c p.node p.dst t :: ·), f)

def lowerBlockPhis (file : RegFile) (b : Nat) (f : MachFunction τ) :
    Except Fault Unit × MachFunction τ :=
  let block := f.block b
  let (heads, f) :=
    (f.modifyBlock b ({ · with phis := [] })).lowerPhis file b block.preds block.phis
  match heads with
  | .ok heads => (.ok (), f.modifyBlock b fun b => { b with insts := heads ++ b.insts })
  | .error e => (.error e, f)

def lowerAllPhis (file : RegFile) : List Nat → MachFunction τ → Except Fault Unit × MachFunction τ
  | [], f => (.ok (), f)
  | b :: rest, f =>
    match f.lowerBlockPhis file b with
    | (.ok _, f) => f.lowerAllPhis file rest
    | (.error e, f) => (.error e, f)

end MachFunction

namespace Inst

/-- A use, and the copy that it reads if it needs one. -/
def isolateUse (file : RegFile) (i : Inst τ) (k : Nat) (o : Operand) :
    FreshM (List (Inst τ) × Operand) := do
  let c ← FreshM.classOf o.vreg
  if i.tied = some k ∨ o.mask ≠ file.ofClass c then
    let t ← FreshM.fresh { cls := c }
    return ([.ofCopy file c i.node t o.vreg], { o with vreg := t })
  else return ([], o)

/-- A def, and the copy out of it if it needs one. -/
def isolateDef (file : RegFile) (i : Inst τ) (o : Operand) : FreshM (List (Inst τ) × Operand) := do
  let c ← FreshM.classOf o.vreg
  if o.mask ≠ file.ofClass c then
    let t ← FreshM.fresh { cls := c }
    return ([.ofCopy file c i.node o.vreg t], { o with vreg := t })
  else return ([], o)

def isolate (file : RegFile) (i : Inst τ) : FreshM (List (Inst τ)) := do
  if i.isCopy then return [i]
  let uses ← i.uses.zipIdx.mapM fun (o, k) => i.isolateUse file k o
  let defs ← i.defs.mapM (i.isolateDef file)
  return uses.flatMap (·.1) ++ [{ i with uses := uses.map (·.2), defs := defs.map (·.2) }]
    ++ defs.flatMap (·.1)

end Inst

namespace MachFunction

/-- Replaces every instruction by a sequence. -/
def rewriteInsts (f : MachFunction τ) (rewrite : Inst τ → FreshM (List (Inst τ))) :
    MachFunction τ :=
  let rewriteBlock (b : MachBlock τ) : FreshM (MachBlock τ) := do
    return { b with insts := (← b.insts.mapM rewrite).flatten }
  let (blocks, vregs) := (f.blocks.toList.mapM rewriteBlock).run f.vregs
  { f with blocks := blocks.toArray, vregs }

def instCount (f : MachFunction τ) : Nat := f.blocks.toList.foldr (·.insts.length + ·) 0

/-- Brings a function into legal form. It is also given back, as far as it got, when a phi does not
fit the predecessors. -/
def legalize (f : MachFunction τ) (file : RegFile) : Except Fault Unit × MachFunction τ :=
  match f.lowerAllPhis file (List.range f.blocks.size) with
  | (.ok _, f) => (.ok (), f.rewriteInsts (·.isolate file))
  | (.error e, f) => (.error e, f)

end MachFunction

end SeaNodes
