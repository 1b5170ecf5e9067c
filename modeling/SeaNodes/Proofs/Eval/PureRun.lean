import SeaNodes.Proofs.Eval.Steps

namespace SeaNodes

/-- Evaluating the node involves the heap or another function. -/
def Op.hasEffect : Op → Bool
  | .load | .store | .alloc | .call => true
  | _ => false

namespace Activation

variable {a a' : Activation} {n : NodeId} {v : Value}

def step (a : Activation) (n : NodeId) : Except EvalError Activation := do
  match ← a.pureValue n with
  | some v => return a.set n v
  | none => return a

/-- Gives the phis of the current block their values. -/
def takePhis (a : Activation) : Except EvalError Activation := do
  return (← a.incoming).foldl (fun a (n, v) => a.set n v) a

def runBlock (a : Activation) : Except EvalError Activation := do
  let a ← a.takePhis
  (a.routine.schedule.nodes a.block).foldlM step a

def RunsPure (a : Activation) : Prop :=
  ∀ a₁, a.takePhis = .ok a₁ →
    ∀ n ∈ a₁.routine.schedule.nodes a₁.block, (a₁.graph.op n).hasEffect = false

def goTo (a : Activation) (b : BlockId) : Activation := { a with block := b, prev := some a.block }

/-- Only values changed. -/
structure SameCall (a a' : Activation) : Prop where
  routine : a'.routine = a.routine
  args : a'.args = a.args
  depth : a'.depth = a.depth
  size : a'.values.size = a.values.size
  block : a'.block = a.block
  prev : a'.prev = a.prev

theorem SameCall.refl (a : Activation) : SameCall a a := ⟨rfl, rfl, rfl, rfl, rfl, rfl⟩

theorem SameCall.trans {a'' : Activation} (h : SameCall a a') (h' : SameCall a' a'') :
    SameCall a a'' :=
  ⟨h'.routine.trans h.routine, h'.args.trans h.args, h'.depth.trans h.depth, h'.size.trans h.size,
    h'.block.trans h.block, h'.prev.trans h.prev⟩

theorem SameCall.graph (h : SameCall a a') : a'.graph = a.graph := congrArg Routine.graph h.routine

theorem sameCall_set (a : Activation) (n : NodeId) (v : Value) : SameCall a (a.set n v) :=
  ⟨rfl, rfl, rfl, a.size_set n v, rfl, rfl⟩

theorem step_cases (h : a.step n = .ok a') :
    a.pureValue n = .ok none ∧ a' = a ∨ ∃ v, a.pureValue n = .ok (some v) ∧ a' = a.set n v := by
  obtain ⟨r, hr, h⟩ := Except.bind_eq_ok h
  cases r with
  | none => exact .inl ⟨hr, (Except.ok.inj h).symm⟩
  | some v => exact .inr ⟨v, hr, (Except.ok.inj h).symm⟩

theorem sameCall_step (h : a.step n = .ok a') : SameCall a a' := by
  rcases step_cases h with ⟨-, rfl⟩ | ⟨v, -, rfl⟩
  · exact .refl _
  · exact a.sameCall_set n v

theorem sameCall_setAll (phis : List (NodeId × Value)) :
    SameCall a (phis.foldl (fun a (n, v) => a.set n v) a) := by
  induction phis generalizing a with
  | nil => exact .refl a
  | cons p phis ih => exact (a.sameCall_set p.1 p.2).trans ih

theorem sameCall_takePhis (h : a.takePhis = .ok a') : SameCall a a' := by
  obtain ⟨phis, -, h⟩ := Except.bind_eq_ok h
  obtain rfl := Except.ok.inj h
  exact sameCall_setAll phis

theorem sameCall_steps {ns : List NodeId} (h : ns.foldlM step a = .ok a') : SameCall a a' :=
  Except.foldlM_induction (P := SameCall a) h (.refl a) fun _ _ _ _ hs hstep =>
    hs.trans (sameCall_step hstep)

end Activation

namespace Machine

variable {call : Caller} {rs : Routines} {k : Nat} {m m' : Machine} {a a' : Activation}
  {n : NodeId} {ns : List NodeId} {v : Value}

theorem stepNode_of_pure (h : (a.graph.op n).hasEffect = false) :
    stepNode call m a n = (a.pureValue n, m) := by
  unfold stepNode
  split <;> simp_all [Op.hasEffect]

/-- With enough fuel nodes without effects are evaluated in order. -/
theorem runNodes_of_fuel (call : Caller) (hns : ∀ n ∈ ns, (a.graph.op n).hasEffect = false)
    (hfuel : m.steps + ns.length ≤ m.fuel) :
    ∃ steps ≤ m.steps + ns.length,
      runNodes call ns m a = (ns.foldlM Activation.step a, { m with steps }) := by
  induction ns generalizing m a with
  | nil => exact ⟨m.steps, Nat.le_refl _, rfl⟩
  | cons n ns ih =>
    rw [List.forall_mem_cons] at hns
    rw [List.length_cons] at hfuel
    have henough : ¬ m.fuel < m.steps + 1 := by omega
    rw [runNodes, if_neg henough, stepNode_of_pure hns.1, List.foldlM_cons, Activation.step,
      List.length_cons]
    rcases hv : a.pureValue n with e | _ | v
    · exact ⟨m.steps + 1, by omega, rfl⟩
    · obtain ⟨steps, hsteps, hrun⟩ := ih (m := { m with steps := m.steps + 1 }) hns.2
        (by dsimp only; omega)
      exact ⟨steps, by dsimp only at hsteps; omega, hrun⟩
    · obtain ⟨steps, hsteps, hrun⟩ := ih (m := { m with steps := m.steps + 1 }) (a := a.set n v)
        hns.2 (by dsimp only; omega)
      exact ⟨steps, by dsimp only at hsteps; omega, hrun⟩

theorem steps_of_runNodes (hns : ∀ n ∈ ns, (a.graph.op n).hasEffect = false)
    (h : runNodes call ns m a = (.ok a', m')) : ns.foldlM Activation.step a = .ok a' := by
  induction ns generalizing m a with
  | nil => exact congrArg Except.ok (Except.ok.inj (Prod.mk.inj h).1)
  | cons n ns ih =>
    rw [List.forall_mem_cons] at hns
    rw [runNodes] at h
    split at h
    case isTrue => exact nomatch h
    case isFalse =>
      rw [stepNode_of_pure hns.1] at h
      rw [List.foldlM_cons, Activation.step]
      rcases hv : a.pureValue n with e | _ | v
      · rw [hv] at h
        exact nomatch h
      · rw [hv] at h
        exact ih hns.2 h
      · rw [hv] at h
        exact ih (a := a.set n v) hns.2 h

theorem exec_succ_takePhis (rs : Routines) (k : Nat) (a : Activation) (m : Machine) :
    exec rs (k + 1) a m =
      match a.takePhis with
      | .error e => (.error e, m)
      | .ok a =>
        match runNodes (caller rs k) (a.routine.schedule.nodes a.block) m a with
        | (.error e, m) => (.error e, m)
        | (.ok a, m) =>
          match a.leave with
          | .error e => (.error e, m)
          | .ok (.inr v) => (.ok v, m)
          | .ok (.inl b) => exec rs k (a.goTo b) m := by
  rw [exec_succ, Activation.takePhis]
  cases a.incoming <;> rfl

theorem runBlock_of_exec (hpure : a.RunsPure) (h : (exec rs k a m).1 = .ok v) :
    ∃ k' a', k = k' + 1 ∧ a.runBlock = .ok a' ∧ (a'.leave = .ok (.inr v) ∨
      ∃ b m', a'.leave = .ok (.inl b) ∧ (exec rs k' (a'.goTo b) m').1 = .ok v) := by
  cases k with
  | zero => exact nomatch h
  | succ k =>
    rw [exec_succ_takePhis] at h
    split at h
    case h_1 => exact nomatch h
    case h_2 a₁ hphis =>
      have hnodes := hpure a₁ hphis
      split at h
      case h_1 => exact nomatch h
      case h_2 a₂ m₂ hrun =>
        have hblock : a.runBlock = .ok a₂ := by
          rw [Activation.runBlock, hphis]
          exact steps_of_runNodes hnodes hrun
        refine ⟨k, a₂, rfl, hblock, ?_⟩
        split at h
        case h_1 => exact nomatch h
        case h_2 w hleave =>
          rw [← Except.ok.inj h]
          exact .inl hleave
        case h_3 b hleave => exact .inr ⟨b, m₂, hleave, h⟩

/-- What a run with enough fuel for a block does there. -/
theorem exec_of_fuel (rs : Routines) (k : Nat) (hpure : a.RunsPure)
    (hfuel : m.steps + (a.routine.schedule.nodes a.block).length ≤ m.fuel) :
    (∀ e, a.runBlock = .error e → (exec rs (k + 1) a m).1 = .error e) ∧
      ∀ a', a.runBlock = .ok a' →
        (∀ w, a'.leave = .ok (.inr w) → (exec rs (k + 1) a m).1 = .ok w) ∧
        ∀ b, a'.leave = .ok (.inl b) →
          ∃ steps ≤ m.steps + (a.routine.schedule.nodes a.block).length,
            exec rs (k + 1) a m = exec rs k (a'.goTo b) { m with steps } := by
  rw [exec_succ_takePhis]
  cases hphis : a.takePhis with
  | error e =>
    have hblock : a.runBlock = .error e := by
      rw [Activation.runBlock, hphis]
      rfl
    rw [hblock]
    exact ⟨fun e' he => congrArg _ (Except.error.inj he), fun a' ha' => nomatch ha'⟩
  | ok a₁ =>
    have hsame := Activation.sameCall_takePhis hphis
    have hnodes := hpure a₁ hphis
    rw [← hsame.routine, ← hsame.block] at hfuel ⊢
    obtain ⟨steps, hsteps, hrun⟩ := runNodes_of_fuel (caller rs k) hnodes hfuel
    have hblock : a.runBlock =
        (a₁.routine.schedule.nodes a₁.block).foldlM Activation.step a₁ := by
      rw [Activation.runBlock, hphis]
      rfl
    rw [← hblock] at hrun
    simp only [hrun]
    cases ha : a.runBlock with
    | error e => exact ⟨fun e' he => congrArg _ (Except.error.inj he), fun a' ha' => nomatch ha'⟩
    | ok a₂ =>
      refine ⟨fun e he => (nomatch he), fun a' ha' => ?_⟩
      obtain rfl := Except.ok.inj ha'
      constructor
      · intro w hw
        simp only [hw]
      · intro b hb
        simp only [hb]
        exact ⟨steps, hsteps, rfl⟩

end Machine

namespace Activation

variable {a a' : Activation} {n m : NodeId} {v : Value}

def phiNodes (a : Activation) : List NodeId :=
  (a.routine.schedule.nodes a.block).filter (a.graph.op · == .phi)

theorem mem_phiNodes :
    n ∈ a.phiNodes ↔ n ∈ a.routine.schedule.nodes a.block ∧ a.graph.op n = .phi := by
  simp [phiNodes]

theorem value_setAll_of_not_mem {phis : List (NodeId × Value)} (hn : ∀ p ∈ phis, p.1 ≠ n) :
    (phis.foldl (fun a (n, v) => a.set n v) a).value n = a.value n := by
  induction phis generalizing a with
  | nil => rfl
  | cons p phis ih =>
    rw [List.forall_mem_cons] at hn
    exact (ih hn.2).trans (value_set_of_ne hn.1)

theorem value_setAll_of_mem {phis : List (NodeId × Value)} (hnodup : (phis.map (·.1)).Nodup)
    (hmem : (n, v) ∈ phis) (hn : n < a.values.size) :
    (phis.foldl (fun a (n, v) => a.set n v) a).value n = some v := by
  induction phis generalizing a with
  | nil => exact absurd hmem List.not_mem_nil
  | cons p phis ih =>
    rw [List.map_cons, List.nodup_cons] at hnodup
    rcases List.mem_cons.mp hmem with rfl | hmem
    · have hrest : ∀ q ∈ phis, q.1 ≠ n := fun q hq heq =>
        hnodup.1 (List.mem_map.mpr ⟨q, hq, heq⟩)
      exact (value_setAll_of_not_mem hrest).trans (value_set_self hn)
    · exact ih hnodup.2 hmem (by rw [size_set]; exact hn)

theorem of_mapM_tagged {f : NodeId → Except EvalError Value} {ns : List NodeId}
    {ps : List (NodeId × Value)} (h : ns.mapM (fun n => do return (n, ← f n)) = .ok ps) :
    ps.map (·.1) = ns ∧ ∀ p ∈ ps, f p.1 = .ok p.2 := by
  induction ns generalizing ps with
  | nil =>
    obtain rfl := Except.ok.inj h
    exact ⟨rfl, by simp⟩
  | cons n ns ih =>
    rw [List.mapM_cons] at h
    obtain ⟨p, hp, h⟩ := Except.bind_eq_ok h
    obtain ⟨v, hv, hp⟩ := Except.bind_eq_ok hp
    obtain ⟨ps, hps, h⟩ := Except.bind_eq_ok h
    obtain rfl := Except.ok.inj hp
    obtain rfl := Except.ok.inj h
    obtain ⟨hmap, hall⟩ := ih hps
    exact ⟨by rw [List.map_cons, hmap], List.forall_mem_cons.mpr ⟨hv, hall⟩⟩

theorem exists_get_setAll {e : Edge} (phis : List (NodeId × Value)) (h : a.get e = .ok v) :
    ∃ w, (phis.foldl (fun a (n, v) => a.set n v) a).get e = .ok w := by
  induction phis generalizing a v with
  | nil => exact ⟨v, h⟩
  | cons p phis ih =>
    obtain ⟨w, hw⟩ := exists_get_set (n := p.1) (v := p.2) h
    exact ih hw

theorem exists_get_takePhis {e : Edge} (h : a.takePhis = .ok a') (hget : a.get e = .ok v) :
    ∃ w, a'.get e = .ok w := by
  obtain ⟨phis, -, h⟩ := Except.bind_eq_ok h
  exact Except.ok.inj h ▸ exists_get_setAll phis hget

theorem takePhis_of_first (h : a.prev = none) : a.takePhis = .ok a := by
  rw [takePhis, incoming, h]
  rfl

theorem getElem?_of_idxOf? {l : List BlockId} {p : BlockId} {j : Nat} (h : l.idxOf? p = some j) :
    l[j]? = some p := by
  obtain ⟨hlt, hget, -⟩ := List.idxOf?_eq_some_iff.mp h
  rw [List.getElem?_eq_getElem hlt, hget]

theorem takePhis_spec {p : BlockId} (hprev : a.prev = some p) (h : a.takePhis = .ok a') :
    ∃ j, (a.routine.schedule.cfg.block a.block).preds.idxOf? p = some j ∧
      (∀ n ∉ a.phiNodes, a'.value n = a.value n) ∧
      ∀ n ∈ a.phiNodes, ∃ v, a.get (a.graph.input n (j + 1)) = .ok v ∧
        (a.phiNodes.Nodup → n < a.values.size → a'.value n = some v) := by
  obtain ⟨phis, hphis, h⟩ := Except.bind_eq_ok h
  obtain rfl := Except.ok.inj h
  rw [incoming, hprev] at hphis
  dsimp only at hphis
  split at hphis
  case h_1 => exact nomatch hphis
  case h_2 j hj =>
    obtain ⟨hmap, hall⟩ := of_mapM_tagged hphis
    refine ⟨j, hj, fun n hn => value_setAll_of_not_mem fun q hq heq => hn ?_, fun n hn => ?_⟩
    · rw [phiNodes, ← hmap, ← heq]
      exact List.mem_map_of_mem hq
    · rw [phiNodes, ← hmap, List.mem_map] at hn
      obtain ⟨⟨n, v⟩, hmem, rfl⟩ := hn
      refine ⟨v, hall _ hmem, fun hnodup hlt => value_setAll_of_mem ?_ hmem hlt⟩
      rwa [hmap]

theorem exists_takePhis {p : BlockId} {j : Nat} (hprev : a.prev = some p)
    (hj : (a.routine.schedule.cfg.block a.block).preds.idxOf? p = some j)
    (hget : ∀ n ∈ a.phiNodes, ∃ v, a.get (a.graph.input n (j + 1)) = .ok v) :
    ∃ a', a.takePhis = .ok a' := by
  obtain ⟨phis, hphis⟩ := Except.exists_mapM a.phiNodes
    (f := fun n => do return (n, ← a.get (a.graph.input n (j + 1)))) fun n hn => by
      obtain ⟨v, hv⟩ := hget n hn
      exact ⟨(n, v), by rw [hv]; rfl⟩
  have hincoming : a.incoming = .ok phis := by
    rw [incoming, hprev]
    simp only [hj]
    exact hphis
  exact ⟨_, by rw [takePhis, hincoming]; rfl⟩

end Activation

end SeaNodes
