import SeaNodes.Proofs.Eval.Steps
import SeaNodes.Schedule.Placement

namespace SeaNodes

def EvalError.IsAt (g : Graph) (n : NodeId) : EvalError → Prop
  | .divisionByZero m => m = n ∧ g.op n = .arith .div
  | .malformed e _ _ => e = some n ∨ ∃ j, e = g.input n j
  | _ => False

section

variable {a : Activation} {n : NodeId} {x : Edge} {e : EvalError}

theorem EvalError.isAt_of_stuck {g : Graph} {α : Type} {why : Stuck}
    (h : g.stuck (α := α) x why = .error e) (hx : x = some n ∨ ∃ j, x = g.input n j) :
    e.IsAt g n := by
  obtain rfl := Except.error.inj h
  exact hx

theorem Activation.isAt_of_get (h : a.get x = .error e)
    (hx : x = some n ∨ ∃ j, x = a.graph.input n j) : e.IsAt a.graph n := by
  unfold Activation.get at h
  split at h
  · exact nomatch h
  · split at h
    · split at h
      · exact nomatch h
      · exact EvalError.isAt_of_stuck h hx
    · exact EvalError.isAt_of_stuck h hx

theorem Activation.isAt_of_getInt (h : a.getInt x = .error e)
    (hx : x = some n ∨ ∃ j, x = a.graph.input n j) : e.IsAt a.graph n := by
  rcases Except.bind_eq_error h with h | ⟨v, -, h⟩
  · exact isAt_of_get h hx
  · split at h
    · exact nomatch h
    · exact EvalError.isAt_of_stuck h hx

theorem Activation.isAt_of_getFloat (h : a.getFloat x = .error e)
    (hx : x = some n ∨ ∃ j, x = a.graph.input n j) : e.IsAt a.graph n := by
  rcases Except.bind_eq_error h with h | ⟨v, -, h⟩
  · exact isAt_of_get h hx
  · split at h
    · exact nomatch h
    · exact EvalError.isAt_of_stuck h hx

/-- The errors of a floating node. -/
theorem Activation.isAt_of_pureValue (hn : a.graph.floats n) (h : a.pureValue n = .error e) :
    e.IsAt a.graph n := by
  have hinput (j : Nat) : a.graph.input n j = some n ∨ ∃ k, a.graph.input n j = a.graph.input n k :=
    .inr ⟨j, rfl⟩
  unfold pureValue at h
  dsimp only at h
  split at h
  case h_2 =>
    split at h
    · exact nomatch h
    · exact EvalError.isAt_of_stuck h (.inl rfl)
  case h_5 | h_10 =>
    rcases Except.bind_eq_error h with h | ⟨v, -, h⟩
    · exact isAt_of_get h (hinput 1)
    · exact nomatch h
  case h_6 op hop =>
    rcases Except.bind_eq_error h with h | ⟨v, -, h⟩
    · exact isAt_of_getInt h (hinput 1)
    rcases Except.bind_eq_error h with h | ⟨w, -, h⟩
    · exact isAt_of_getInt h (hinput 2)
    rcases Except.bind_eq_error h with h | ⟨u, -, h⟩
    · cases op with
      | div =>
        rw [Activation.arith] at h
        split at h
        · exact Except.error.inj h ▸ ⟨rfl, hop⟩
        · exact nomatch h
      | _ => exact nomatch h
    · exact nomatch h
  case h_7 | h_12 =>
    rcases Except.bind_eq_error h with h | ⟨v, -, h⟩
    · exact isAt_of_getFloat h (hinput 1)
    rcases Except.bind_eq_error h with h | ⟨w, -, h⟩
    · exact isAt_of_getFloat h (hinput 2)
    · exact nomatch h
  case h_8 =>
    rcases Except.bind_eq_error h with h | ⟨v, -, h⟩
    · exact isAt_of_getInt h (hinput 1)
    rcases Except.bind_eq_error h with h | ⟨w, -, h⟩
    · exact isAt_of_getInt h (hinput 2)
    · exact nomatch h
  case h_9 =>
    rcases Except.bind_eq_error h with h | ⟨v, -, h⟩
    · exact isAt_of_get h (hinput 1)
    · split at h
      · exact nomatch h
      · exact nomatch h
      · exact EvalError.isAt_of_stuck h (.inl rfl)
  case h_11 =>
    rcases Except.bind_eq_error h with h | ⟨v, -, h⟩
    · exact isAt_of_get h (hinput 1)
    rcases Except.bind_eq_error h with h | ⟨w, -, h⟩
    · exact isAt_of_get h (hinput 2)
    · exact nomatch h
  case h_13 =>
    rcases Except.bind_eq_error h with h | ⟨v, -, h⟩
    · exact isAt_of_getInt h (hinput 1)
    · exact nomatch h
  all_goals simp_all [Graph.floats, Op.isFloating]

end

namespace Machine

/-- How a node fails: in an access of its own, in a function that it calls, or in a computation. -/
inductive Failure (call : Caller) (m : Machine) (a : Activation) (n : NodeId) (e : EvalError)
    (m' : Machine) : Prop where
  | load (hop : a.graph.op n = .load) (h : m.load a n = .error e)
  | store (hop : a.graph.op n = .store) (h : m.storeTarget a n = .error e)
  | alloc (hop : a.graph.op n = .alloc) (h : allocSlots a n = .error e)
  | target (hop : a.graph.op n = .call) (h : callTarget a n = .error e)
  | callee {f : Nat} {args : Array Value} (hop : a.graph.op n = .call)
      (htarget : callTarget a n = .ok (f, args)) (h : call f args (a.depth + 1) m = (.error e, m'))
  | pure (h : a.pureValue n = .error e)

theorem failure_of_stepNode {call : Caller} {m m' : Machine} {a : Activation} {n : NodeId}
    {e : EvalError} (h : stepNode call m a n = (.error e, m')) : Failure call m a n e m' := by
  unfold stepNode at h
  split at h
  case h_1 hop =>
    cases hload : m.load a n with
    | ok v =>
      rw [hload] at h
      exact nomatch (Prod.mk.inj h).1
    | error e' =>
      rw [hload] at h
      exact .load hop (hload.trans (congrArg Except.error (Except.error.inj (Prod.mk.inj h).1)))
  case h_2 hop =>
    split at h
    · exact nomatch (Prod.mk.inj h).1
    · rename_i htarget
      exact .store hop (htarget.trans (congrArg Except.error (Except.error.inj (Prod.mk.inj h).1)))
  case h_3 hop =>
    split at h
    · exact nomatch (Prod.mk.inj h).1
    · rename_i hslots
      exact .alloc hop (hslots.trans (congrArg Except.error (Except.error.inj (Prod.mk.inj h).1)))
  case h_4 hop =>
    split at h
    · rename_i f args htarget
      dsimp only at h
      obtain ⟨hresult, hm⟩ := Prod.mk.inj h
      refine .callee hop htarget (Prod.ext ?_ hm)
      cases hcall : (call f args (a.depth + 1) m).1 with
      | ok v =>
        rw [hcall] at hresult
        exact nomatch hresult
      | error e' =>
        rw [hcall] at hresult
        exact congrArg Except.error (Except.error.inj hresult)
    · rename_i htarget
      exact .target hop (htarget.trans (congrArg Except.error (Except.error.inj (Prod.mk.inj h).1)))
  case h_5 => exact .pure (Prod.mk.inj h).1

end Machine

end SeaNodes
