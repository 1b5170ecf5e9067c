import Mathlib.Logic.Function.Basic
import Mathlib.Tactic
import SeaNodes.Machine.Function

namespace SeaNodes

variable {τ α κ : Type}

/-- What operations compute: the value of each def, by its position, from the values read. -/
abbrev OpSem (τ α : Type) := MachOp τ → List α → Nat → α

/-- An operation that was executed, with the values that it read. -/
abbrev Event (τ α : Type) := MachOp τ × List α

/-- Writes values into cells, first to last. -/
def writeAll [DecidableEq κ] (m : κ → α) (ws : List (κ × α)) : κ → α :=
  ws.foldl (fun m w => Function.update m w.1 w.2) m

theorem writeAll_of_forall_ne [DecidableEq κ] (m : κ → α) (ws : List (κ × α)) {c : κ}
    (h : ∀ w ∈ ws, w.1 ≠ c) : writeAll m ws c = m c := by
  induction ws generalizing m with
  | nil => rfl
  | cons w ws ih =>
    rw [List.forall_mem_cons] at h
    rw [writeAll, List.foldl_cons]
    exact (ih _ h.2).trans (Function.update_of_ne h.1.symm _ _)

theorem writeAll_of_mem [DecidableEq κ] (m : κ → α) (ws : List (κ × α))
    (hn : (ws.map Prod.fst).Nodup) {w : κ × α} (hw : w ∈ ws) : writeAll m ws w.1 = w.2 := by
  induction ws generalizing m with
  | nil => exact absurd hw List.not_mem_nil
  | cons a ws ih =>
    rw [List.map_cons, List.nodup_cons] at hn
    rw [writeAll, List.foldl_cons]
    rcases List.mem_cons.mp hw with rfl | hw
    · have hrest : ∀ x ∈ ws, x.1 ≠ w.1 := fun x hx he => hn.1 (he ▸ List.mem_map_of_mem hx)
      exact (writeAll_of_forall_ne _ ws hrest).trans (Function.update_self _ _ _)
    · exact ih _ hn.2 hw

namespace Inst

/-- The values that an instruction reads, register `v` being in cell `loc v`. -/
def inputs (loc : VReg → κ) (i : Inst τ) (m : κ → α) : List α := i.uses.map fun o => m (loc o.vreg)

/-- The value for the def at position `k`. -/
def output (sem : OpSem τ α) (i : Inst τ) (vals : List α) (k : Nat) : α :=
  match i.isCopy, vals with
  | true, x :: _ => x
  | _, _ => sem i.op vals k

def write [DecidableEq κ] (sem : OpSem τ α) (loc : VReg → κ) (i : Inst τ) (vals : List α)
    (m : κ → α) : κ → α :=
  writeAll m (i.defs.zipIdx.map fun (o, k) => (loc o.vreg, i.output sem vals k))

def exec (sem : OpSem τ α) (i : Inst τ) (s : VReg → α) : VReg → α :=
  i.write sem id (i.inputs id s) s

def clobber (i : Inst τ) (noise m : Reg → α) (r : Reg) : α :=
  if i.kill.contains r then noise r else m r

def execAt (sem : OpSem τ α) (reg : VReg → Reg) (noise : Reg → α) (i : Inst τ) (m : Reg → α) :
    Reg → α :=
  i.write sem reg (i.inputs reg m) (i.clobber noise m)

section Write

variable [DecidableEq κ] (sem : OpSem τ α) (loc : VReg → κ) (i : Inst τ) (vals : List α)
  (m : κ → α)

theorem write_of_forall_ne {c : κ} (h : ∀ o ∈ i.defs, loc o.vreg ≠ c) :
    i.write sem loc vals m c = m c := by
  apply writeAll_of_forall_ne
  intro w hw
  obtain ⟨p, hp, rfl⟩ := List.mem_map.mp hw
  exact h p.1 (List.fst_mem_of_mem_zipIdx hp)

theorem write_getElem (hn : (i.defs.map (loc ·.vreg)).Nodup) {k : Nat} (hk : k < i.defs.length) :
    i.write sem loc vals m (loc i.defs[k].vreg) = i.output sem vals k := by
  apply writeAll_of_mem m _ ?_ (w := (loc i.defs[k].vreg, i.output sem vals k))
  · exact List.mem_map.mpr ⟨(i.defs[k], k), by simp [List.mem_zipIdx_iff_getElem?], rfl⟩
  · have hfst : (i.defs.zipIdx.map fun (o, k) => (loc o.vreg, i.output sem vals k)).map Prod.fst =
        (i.defs.zipIdx.map Prod.fst).map (loc ·.vreg) := by
      simp only [List.map_map]
      rfl
    rw [hfst, List.zipIdx_map_fst]
    exact hn

end Write

theorem map_exec_defs (sem : OpSem τ α) (i : Inst τ) (s : VReg → α)
    (hn : (i.defs.map (·.vreg)).Nodup) : (i.defs.map fun o => i.exec sem s o.vreg) =
      (List.range i.defs.length).map (i.output sem (i.inputs id s)) := by
  apply List.ext_getElem
  · simp
  · intro k hk _
    have h := write_getElem sem id i (i.inputs id s) s hn (k := k) (by simpa using hk)
    simpa [exec] using h

theorem exec_of_forall_ne (sem : OpSem τ α) (i : Inst τ) (s : VReg → α) {v : VReg}
    (h : ∀ o ∈ i.defs, o.vreg ≠ v) : i.exec sem s v = s v :=
  write_of_forall_ne sem id i _ s h

end Inst

/-- Executes instructions on virtual registers. -/
def runInsts (sem : OpSem τ α) (is : List (Inst τ)) (s : VReg → α) : VReg → α :=
  is.foldl (fun s i => i.exec sem s) s

/-- What is seen of instructions on virtual registers. -/
def traceInsts (sem : OpSem τ α) : List (Inst τ) → (VReg → α) → List (Event τ α)
  | [], _ => []
  | i :: is, s => (i.op, i.inputs id s) :: traceInsts sem is (i.exec sem s)

/-- Executes instructions on assigned registers, the `n`-th step of the run being next. -/
def runAssigned (sem : OpSem τ α) (reg : VReg → Reg) (noise : Nat → Reg → α) :
    Nat → List (Inst τ) → (Reg → α) → (Reg → α)
  | _, [], m => m
  | n, i :: is, m => runAssigned sem reg noise (n + 1) is (i.execAt sem reg (noise n) m)

/-- What is seen of instructions on assigned registers. -/
def traceAssigned (sem : OpSem τ α) (reg : VReg → Reg) (noise : Nat → Reg → α) :
    Nat → List (Inst τ) → (Reg → α) → List (Event τ α)
  | _, [], _ => []
  | n, i :: is, m =>
    (i.op, i.inputs reg m) :: traceAssigned sem reg noise (n + 1) is (i.execAt sem reg (noise n) m)

theorem runInsts_append (sem : OpSem τ α) (is js : List (Inst τ)) (s : VReg → α) :
    runInsts sem (is ++ js) s = runInsts sem js (runInsts sem is s) :=
  List.foldl_append

theorem traceInsts_append (sem : OpSem τ α) (is js : List (Inst τ)) (s : VReg → α) :
    traceInsts sem (is ++ js) s = traceInsts sem is s ++ traceInsts sem js (runInsts sem is s) := by
  induction is generalizing s with
  | nil => rfl
  | cons i is ih => simp [traceInsts, runInsts, ih]

/-- What is seen of those instructions on virtual registers that `p` holds of. -/
def traceWhere (p : Inst τ → Bool) (sem : OpSem τ α) : List (Inst τ) → (VReg → α) → List (Event τ α)
  | [], _ => []
  | i :: is, s =>
    if p i then (i.op, i.inputs id s) :: traceWhere p sem is (i.exec sem s)
    else traceWhere p sem is (i.exec sem s)

theorem traceWhere_append (p : Inst τ → Bool) (sem : OpSem τ α) (is js : List (Inst τ))
    (s : VReg → α) : traceWhere p sem (is ++ js) s =
      traceWhere p sem is s ++ traceWhere p sem js (runInsts sem is s) := by
  induction is generalizing s with
  | nil => rfl
  | cons i is ih =>
    simp only [List.cons_append, traceWhere, ih]
    split <;> rfl

theorem traceWhere_of_forall (p : Inst τ → Bool) (sem : OpSem τ α) (is : List (Inst τ))
    (hp : ∀ i ∈ is, p i) (s : VReg → α) : traceWhere p sem is s = traceInsts sem is s := by
  induction is generalizing s with
  | nil => rfl
  | cons i is ih =>
    rw [List.forall_mem_cons] at hp
    rw [traceWhere, if_pos hp.1, ih hp.2, traceInsts]

theorem traceWhere_of_forall_not (p : Inst τ → Bool) (sem : OpSem τ α) (is : List (Inst τ))
    (hp : ∀ i ∈ is, p i = false) (s : VReg → α) : traceWhere p sem is s = [] := by
  induction is generalizing s with
  | nil => rfl
  | cons i is ih =>
    rw [List.forall_mem_cons] at hp
    rw [traceWhere, hp.1, if_neg Bool.false_ne_true, ih hp.2]

theorem traceAssigned_append (sem : OpSem τ α) (reg : VReg → Reg) (noise : Nat → Reg → α) (n : Nat)
    (is js : List (Inst τ)) (m : Reg → α) : traceAssigned sem reg noise n (is ++ js) m =
      traceAssigned sem reg noise n is m ++
        traceAssigned sem reg noise (n + is.length) js (runAssigned sem reg noise n is m) := by
  induction is generalizing n m with
  | nil => rfl
  | cons i is ih =>
    rw [List.cons_append, traceAssigned, ih, traceAssigned, List.cons_append, runAssigned,
      List.length_cons, Nat.add_assoc, Nat.add_comm 1]

/-- The phis of a block on entry from block `prev`: all arguments are read before any target is
written. There is no entry to a block with phis from a block that is not its predecessor. -/
def MachBlock.enter (b : MachBlock τ) (prev : Option Nat) (s : VReg → α) : Option (VReg → α) :=
  if b.phis.isEmpty then some s
  else do
    let k ← b.preds.idxOf? (← prev)
    let news ← b.phis.mapM fun p => do return (p.dst, s (← p.args[k]?))
    return writeAll s news

namespace MachFunction

/-- Blocks that follow one another. -/
def IsPath (f : MachFunction τ) (path : List Nat) : Prop :=
  (∀ b ∈ path, b < f.blocks.size) ∧ path.IsChain fun b t => t ∈ (f.block b).succs

/-- Some path leads from the start of the code to block `b`. -/
def Reached (f : MachFunction τ) (b : Nat) : Prop :=
  Relation.ReflTransGen (fun a t => t ∈ (f.block a).succs) 0 b

/-- The instructions along a path. -/
def code (f : MachFunction τ) (path : List Nat) : List (Inst τ) :=
  path.flatMap fun b => (f.block b).insts

/-- What is seen of a run along a path on virtual registers. -/
def run (f : MachFunction τ) (sem : OpSem τ α) :
    Option Nat → List Nat → (VReg → α) → Option (List (Event τ α))
  | _, [], _ => some []
  | prev, b :: path, s => do
    let s ← (f.block b).enter prev s
    let rest ← f.run sem (some b) path (runInsts sem (f.block b).insts s)
    return traceInsts sem (f.block b).insts s ++ rest

theorem run_eq_traceInsts (f : MachFunction τ) (hphi : ∀ b, (f.block b).phis = [])
    (sem : OpSem τ α) (prev : Option Nat) (path : List Nat) (s : VReg → α) :
    f.run sem prev path s = some (traceInsts sem (f.code path) s) := by
  induction path generalizing prev s with
  | nil => rfl
  | cons b path ih =>
    have henter : (f.block b).enter prev s = some s := by simp [MachBlock.enter, hphi]
    simp [run, henter, ih, code, traceInsts_append]

end MachFunction

/-- Four registers for integers. -/
def fourRegisters : RegFile where
  names := #["a", "b", "c", "d"]
  int := .range 0 4
  float := .empty
  scratch := .empty
  flags := none

end SeaNodes
