import Mathlib.Logic.Relation
import SeaNodes.Proofs.Eval.PureRun

namespace SeaNodes

theorem Machine.enter_spec {rs : Routines} {i depth : Nat} {args : Array Value} {a : Activation}
    (h : enter rs i args depth = .ok a) : depth < maxDepth ∧
      ∃ r arity, rs.table[i]? = some (r, arity) ∧ a = .ofCall r args depth := by
  unfold enter at h
  split_ifs at h with hdepth
  refine ⟨Nat.lt_of_not_le hdepth, ?_⟩
  split at h
  · exact nomatch h
  · rename_i r arity hr
    split_ifs at h
    exact ⟨r, arity, hr, (Except.ok.inj h).symm⟩

/-- Where a run is: before the nodes `rest` of the current block. -/
structure Point where
  act : Activation
  machine : Machine
  rest : List NodeId

namespace Point

/-- The first point of a call. -/
def ofCall (r : Routine) (args : Array Value) (depth : Nat) (m : Machine) : Point :=
  ⟨.ofCall r args depth, m, r.schedule.nodes Cfg.entry⟩

def ofEntered (a : Activation) (m : Machine) : Point := ⟨a, m, a.routine.schedule.nodes a.block⟩

/-- One move of a run; calls may be `k` deep. -/
def next (rs : Routines) (k : Nat) : Point → Option Point
  | ⟨a, m, n :: rest⟩ =>
    if m.fuel < m.steps + 1 then none
    else
      match Machine.stepNode (Machine.caller rs k) { m with steps := m.steps + 1 } a n with
      | (.ok v, m') => some ⟨v.elim a (a.set n), m', rest⟩
      | (.error _, _) => none
  | ⟨a, m, []⟩ =>
    match a.leave with
    | .ok (.inl b) => (a.goTo b).takePhis.toOption.map (ofEntered · m)
    | _ => none

/-- A run comes from one point to the other. -/
def Reaches (rs : Routines) : Point → Point → Prop :=
  Relation.ReflTransGen fun p q => ∃ k, p.next rs k = some q

/-- How a run ends at a point. -/
inductive Ends (rs : Routines) : Point → Except EvalError Value × Machine → Prop where
  | returns {a : Activation} {m : Machine} {v : Value} (hleave : a.leave = .ok (.inr v)) :
      Ends rs ⟨a, m, []⟩ (.ok v, m)
  | leave {a : Activation} {m : Machine} {e : EvalError} (hleave : a.leave = .error e) :
      Ends rs ⟨a, m, []⟩ (.error e, m)
  | phis {a : Activation} {m : Machine} {b : BlockId} {e : EvalError}
      (hleave : a.leave = .ok (.inl b)) (htake : (a.goTo b).takePhis = .error e) :
      Ends rs ⟨a, m, []⟩ (.error e, m)
  | node {a : Activation} {m m' : Machine} {n : NodeId} {rest : List NodeId} {k : Nat}
      {e : EvalError} (hnode : Machine.stepNode (Machine.caller rs k)
        { m with steps := m.steps + 1 } a n = (.error e, m')) :
      Ends rs ⟨a, m, n :: rest⟩ (.error e, m')
  | fuel (p : Point) {m : Machine} : Ends rs p (.error (.outOfFuel m.fuel), m)

variable {rs : Routines} {k : Nat} {p q : Point} {a a' : Activation}

theorem next_cases (h : p.next rs k = some q) :
    (∃ n rest v m', p.rest = n :: rest ∧
      Machine.stepNode (Machine.caller rs k) { p.machine with steps := p.machine.steps + 1 } p.act n =
        (.ok v, m') ∧ q = ⟨v.elim p.act (p.act.set n), m', rest⟩) ∨
    (∃ b a', p.rest = [] ∧ p.act.leave = .ok (.inl b) ∧ (p.act.goTo b).takePhis = .ok a' ∧
      q = ofEntered a' p.machine) := by
  obtain ⟨a, m, _ | ⟨n, rest⟩⟩ := p
  · right
    simp only [next] at h
    split at h
    case h_1 b hleave =>
      cases htake : (a.goTo b).takePhis with
      | error e =>
        rw [htake] at h
        exact nomatch h
      | ok a' =>
        rw [htake] at h
        exact ⟨b, a', rfl, hleave, htake, (Option.some.inj h).symm⟩
    case h_2 => exact nomatch h
  · left
    simp only [next] at h
    split at h
    case isTrue => exact nomatch h
    case isFalse =>
      split at h
      case h_1 v m' hstep => exact ⟨n, rest, v, m', rfl, hstep, (Option.some.inj h).symm⟩
      case h_2 => exact nomatch h

theorem routine_next (h : p.next rs k = some q) : q.act.routine = p.act.routine := by
  rcases next_cases h with ⟨n, rest, v, m', -, -, rfl⟩ | ⟨b, a', -, -, htake, rfl⟩
  · cases v <;> rfl
  · exact (Activation.sameCall_takePhis htake).routine

theorem depth_of_reaches (h : Reaches rs p q) : q.act.depth = p.act.depth := by
  induction h with
  | refl => rfl
  | tail _ hstep ih =>
    obtain ⟨k, hnext⟩ := hstep
    refine Eq.trans ?_ ih
    rcases next_cases hnext with ⟨n, rest, v, m', -, -, rfl⟩ | ⟨b, a', -, -, htake, rfl⟩
    · cases v <;> rfl
    · exact (Activation.sameCall_takePhis htake).depth

/-- The nodes of a block are evaluated one after the other. -/
theorem reaches_runNodes (rs : Routines) (k : Nat) (ns : List NodeId) (m : Machine)
    (a : Activation) :
    (∀ a' m', Machine.runNodes (Machine.caller rs k) ns m a = (.ok a', m') →
      Reaches rs ⟨a, m, ns⟩ ⟨a', m', []⟩) ∧
    ∀ e m', Machine.runNodes (Machine.caller rs k) ns m a = (.error e, m') →
      ∃ p, Reaches rs ⟨a, m, ns⟩ p ∧ p.Ends rs (.error e, m') := by
  induction ns generalizing m a with
  | nil =>
    refine ⟨fun a' m' h => ?_, fun e m' h => (by cases h)⟩
    obtain ⟨ha, rfl⟩ := Prod.mk.inj h
    rw [Except.ok.inj ha]
    exact .refl
  | cons n ns ih =>
    rw [Machine.runNodes]
    by_cases hfuel : m.fuel < m.steps + 1
    · rw [if_pos hfuel]
      refine ⟨fun a' m' h => (by cases h), fun e m' h => ?_⟩
      obtain ⟨he, rfl⟩ := Prod.mk.inj h
      rw [← Except.error.inj he]
      exact ⟨_, .refl, .fuel _⟩
    · rw [if_neg hfuel]
      cases hstep : Machine.stepNode (Machine.caller rs k) { m with steps := m.steps + 1 } a n with
      | mk r m₁ =>
      cases r with
      | error e =>
        refine ⟨fun a' m' h => (by cases h), fun e' m' h => ?_⟩
        obtain ⟨he, rfl⟩ := Prod.mk.inj h
        rw [← Except.error.inj he]
        exact ⟨_, .refl, .node hstep⟩
      | ok v =>
        have hnext : Point.next rs k ⟨a, m, n :: ns⟩ = some ⟨v.elim a (a.set n), m₁, ns⟩ := by
          rw [Point.next, if_neg hfuel, hstep]
        obtain ⟨hok, herror⟩ := ih m₁ (v.elim a (a.set n))
        refine ⟨fun a' m' h => .head ⟨k, hnext⟩ (hok a' m' ?_), fun e m' h => ?_⟩
        · cases v <;> exact h
        · obtain ⟨p, hp, hends⟩ := herror e m' (by cases v <;> exact h)
          exact ⟨p, .head ⟨k, hnext⟩ hp, hends⟩

/-- Every run of the evaluator from a block that was entered goes through points to one where it ends
as the evaluator does. -/
theorem exists_reaches_exec (rs : Routines) (k : Nat) (m : Machine)
    (htake : a.takePhis = .ok a') :
    ∃ p, Reaches rs (ofEntered a' m) p ∧ p.Ends rs (Machine.exec rs k a m) := by
  induction k generalizing a a' m with
  | zero => exact ⟨_, .refl, .fuel _⟩
  | succ k ih =>
    obtain ⟨hok, herror⟩ :=
      reaches_runNodes rs k (a'.routine.schedule.nodes a'.block) m a'
    rw [Machine.exec_succ_takePhis, htake]
    dsimp only
    cases hrun : Machine.runNodes (Machine.caller rs k) (a'.routine.schedule.nodes a'.block) m a' with
    | mk r m₁ =>
    cases r with
    | error e => exact herror e m₁ hrun
    | ok a₁ =>
      have hreach := hok a₁ m₁ hrun
      dsimp only
      cases hleave : a₁.leave with
      | error e => exact ⟨_, hreach, .leave hleave⟩
      | ok x =>
        cases x with
        | inr v => exact ⟨_, hreach, .returns hleave⟩
        | inl b =>
          dsimp only
          cases hphis : (a₁.goTo b).takePhis with
          | error e =>
            cases k with
            | zero => exact ⟨_, .refl, .fuel _⟩
            | succ k =>
              rw [Machine.exec_succ_takePhis, hphis]
              exact ⟨_, hreach, .phis hleave hphis⟩
          | ok a₂ =>
            have hnext : Point.next rs k ⟨a₁, m₁, []⟩ = some (ofEntered a₂ m₁) := by
              simp only [Point.next, hleave, hphis]
              rfl
            obtain ⟨p, hp, hends⟩ := ih m₁ hphis
            exact ⟨p, hreach.trans (.head ⟨k, hnext⟩ hp), hends⟩

end Point

end SeaNodes
