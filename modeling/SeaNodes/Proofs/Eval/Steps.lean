import SeaNodes.Eval.Machine
import SeaNodes.Proofs.Tables

namespace SeaNodes

namespace Activation

variable {a a' : Activation} {n m : NodeId} {v : Value}

/-- The value that was stored for a node. -/
def value (a : Activation) (n : NodeId) : Option Value := a.values.getD n none

theorem value_set (a : Activation) (n m : NodeId) (v : Value) :
    (a.set n v).value m = if n = m ∧ n < a.values.size then some v else a.value m :=
  getD_setIfInBounds ..

theorem value_set_of_ne (h : n ≠ m) : (a.set n v).value m = a.value m := by
  rw [value_set, if_neg fun hnm => h hnm.1]

theorem value_set_self (h : n < a.values.size) : (a.set n v).value n = some v := by
  rw [value_set, if_pos ⟨rfl, h⟩]

theorem isSome_value_set (h : (a.value m).isSome) : ((a.set n v).value m).isSome := by
  rw [value_set]
  split_ifs
  · rfl
  · exact h

theorem size_set (a : Activation) (n : NodeId) (v : Value) :
    (a.set n v).values.size = a.values.size :=
  Array.size_setIfInBounds ..

theorem get_of_value (h : a.value n = some v) : a.get (some n) = .ok v := by
  rw [value] at h
  simp only [get, Option.bind_some, h]

theorem get_of_not_value (h : a.value n = none) : a.get (some n) = .ok v ↔
    ∃ t, a.graph.op n = .const t ∧ Value.ofConst? t = some v := by
  rw [value] at h
  simp only [get, Option.bind_some, h, Graph.op?]
  constructor
  · intro hget
    split at hget
    case h_1 t hop =>
      split at hget
      case h_1 w hw =>
        rw [Except.ok.injEq] at hget
        exact ⟨t, Option.some.inj hop, hget ▸ hw⟩
      case h_2 => exact nomatch hget
    case h_2 => exact nomatch hget
  · rintro ⟨t, hop, hv⟩
    simp only [hop, hv]

theorem get_none : a.get none ≠ .ok v := by
  intro h
  exact nomatch h

theorem exists_get_set {e : Edge} {w : Value} (h : a.get e = .ok w) :
    ∃ w', (a.set n v).get e = .ok w' := by
  cases e with
  | none => exact absurd h get_none
  | some i =>
    by_cases hi : n = i ∧ n < a.values.size
    · exact ⟨v, get_of_value (by rw [value_set, if_pos hi])⟩
    · have hvalue : (a.set n v).value i = a.value i := by rw [value_set, if_neg hi]
      refine ⟨w, ?_⟩
      cases hvi : a.value i with
      | none =>
        rw [get_of_not_value hvi] at h
        rwa [get_of_not_value (hvalue.trans hvi)]
      | some x =>
        rw [get_of_value hvi] at h
        rwa [get_of_value (hvalue.trans hvi)]

end Activation

/-- The positions of the inputs whose values a node computes with. -/
def Op.reads : Op → List Nat
  | .cast | .neg | .not | .toFloat => [1]
  | .arith _ | .floatArith _ | .bit _ | .cmp _ | .floatCmp _ => [1, 2]
  | _ => []

namespace Activation

variable {a a' : Activation} {n m : NodeId} {v : Value}

theorem pureValue_congr (hgraph : a.graph = a'.graph) (hargs : a.args = a'.args)
    (hproj : ∀ i, a.graph.op n ≠ .proj i)
    (hreads : ∀ j ∈ (a.graph.op n).reads, a.get (a.graph.input n j) = a'.get (a.graph.input n j)) :
    a.pureValue n = a'.pureValue n := by
  simp only [pureValue, getInt, getFloat, ← hgraph, ← hargs]
  cases hop : a.graph.op n with
  | proj i => exact absurd hop (hproj i)
  | _ =>
    simp only [hop, Op.reads, List.forall_mem_cons] at hreads
    simp [hreads]

theorem get_of_getInt {e : Edge} {w : Int64} (h : a.getInt e = .ok w) : a.get e = .ok (.int w) := by
  obtain ⟨v, hv, h⟩ := Except.bind_eq_ok h
  split at h
  · rw [hv, Except.ok.inj h]
  · exact nomatch h

theorem get_of_getFloat {e : Edge} {x : Double} (h : a.getFloat e = .ok x) :
    a.get e = .ok (.float x) := by
  obtain ⟨v, hv, h⟩ := Except.bind_eq_ok h
  split at h
  · rw [hv, Except.ok.inj h]
  · exact nomatch h

theorem exists_read_of_pureValue {r : Option Value} (h : a.pureValue n = .ok r) :
    ∀ j ∈ (a.graph.op n).reads, ∃ v, a.get (a.graph.input n j) = .ok v := by
  unfold pureValue at h
  dsimp only at h
  split at h
  case h_5 hop | h_9 hop | h_10 hop =>
    obtain ⟨v, hv, -⟩ := Except.bind_eq_ok h
    simpa [hop, Op.reads] using ⟨v, hv⟩
  case h_6 hop | h_8 hop =>
    obtain ⟨x, hx, h⟩ := Except.bind_eq_ok h
    obtain ⟨y, hy, -⟩ := Except.bind_eq_ok h
    simpa [hop, Op.reads] using ⟨⟨_, get_of_getInt hx⟩, ⟨_, get_of_getInt hy⟩⟩
  case h_7 hop | h_12 hop =>
    obtain ⟨x, hx, h⟩ := Except.bind_eq_ok h
    obtain ⟨y, hy, -⟩ := Except.bind_eq_ok h
    simpa [hop, Op.reads] using ⟨⟨_, get_of_getFloat hx⟩, ⟨_, get_of_getFloat hy⟩⟩
  case h_11 hop =>
    obtain ⟨x, hx, h⟩ := Except.bind_eq_ok h
    obtain ⟨y, hy, -⟩ := Except.bind_eq_ok h
    simpa [hop, Op.reads] using ⟨⟨_, hx⟩, ⟨_, hy⟩⟩
  case h_13 hop =>
    obtain ⟨x, hx, -⟩ := Except.bind_eq_ok h
    simpa [hop, Op.reads] using ⟨_, get_of_getInt hx⟩
  all_goals simp_all [Op.reads]

end Activation

def Activation.Truthful (a : Activation) : Prop :=
  ∀ n t, a.graph.op n = .const t →
    a.values.getD n none = none ∨ a.values.getD n none = Value.ofConst? t

theorem Activation.Truthful.set {a : Activation} (ha : a.Truthful) {n : NodeId} {v : Value}
    (hn : ∀ t, a.graph.op n = .const t → Value.ofConst? t = some v) : (a.set n v).Truthful := by
  intro k t hk
  by_cases hkn : n = k
  · subst hkn
    have hv := hn t hk
    simp only [Activation.set, getD_setIfInBounds, true_and]
    by_cases hlt : n < a.values.size
    · exact .inr ((if_pos hlt).trans hv.symm)
    · rw [if_neg hlt]
      exact ha n t hk
  · simp only [Activation.set, getD_setIfInBounds, hkn, false_and, if_false]
    exact ha k t hk

namespace Machine

/-- Runs what a block calls. -/
def caller (rs : Routines) (k : Nat) : Caller := fun index args depth m =>
  match enter rs index args depth with
  | .ok a => exec rs k a m
  | .error e => (.error e, m)

theorem exec_succ (rs : Routines) (k : Nat) (a : Activation) (m : Machine) :
    exec rs (k + 1) a m =
      match a.incoming with
      | .error e => (.error e, m)
      | .ok phis =>
        let a := phis.foldl (fun a (n, v) => a.set n v) a
        match runNodes (caller rs k) (a.routine.schedule.nodes a.block) m a with
        | (.error e, m) => (.error e, m)
        | (.ok a, m) =>
          match a.leave with
          | .error e => (.error e, m)
          | .ok (.inr v) => (.ok v, m)
          | .ok (.inl b) => exec rs k { a with block := b, prev := some a.block } m :=
  rfl

end Machine

end SeaNodes
