import SeaNodes.Proofs.Schedule.Available

namespace SeaNodes

theorem Machine.skips_of_stepNode {call : Caller} {m m' : Machine} {a : Activation} {n : NodeId}
    (hstep : stepNode call m a n = (.ok none, m')) :
    (a.graph.op n).isCode = false ∨ a.graph.op n = .phi := by
  by_contra hnot
  rw [not_or, Bool.not_eq_false] at hnot
  by_cases heffect : (a.graph.op n).hasEffect
  · unfold stepNode at hstep
    split at hstep
    case h_1 =>
      cases hload : m.load a n <;> rw [hload] at hstep <;> exact nomatch (Prod.mk.inj hstep).1
    case h_2 | h_3 => split at hstep <;> exact nomatch (Prod.mk.inj hstep).1
    case h_4 =>
      split at hstep
      case h_1 f args _ =>
        dsimp only at hstep
        cases hcall : (call f args (a.depth + 1) m).1 <;> rw [hcall] at hstep <;>
          exact nomatch (Prod.mk.inj hstep).1
      case h_2 => exact nomatch (Prod.mk.inj hstep).1
    case h_5 => cases hop : a.graph.op n <;> simp_all [Op.hasEffect]
  · rw [Bool.not_eq_true] at heffect
    rw [stepNode_of_pure heffect] at hstep
    exact Activation.pureValue_ne_none hnot.1 hnot.2 heffect (Prod.mk.inj hstep).1

namespace Point

/-- Where a run of a scheduled function can be, and which values are there. -/
structure OnCourse (g : Graph) (s : Schedule) (p : Point) : Prop where
  routine : p.act.routine = ⟨g, s⟩
  size : p.act.values.size = g.size
  lt : p.act.block < s.cfg.size
  walk : ∃ rest, s.cfg.Walk (p.act.block :: rest)
  available : ∃ pre, s.nodes p.act.block = pre ++ p.rest ∧ s.Available g p.act p.act.block pre

variable {g : Graph} {s : Schedule} {p q : Point} {n : NodeId} {b : BlockId} {rs : Routines} {k : Nat}
  {rest : List NodeId} {a' : Activation} {call : Machine.Caller} {m m' : Machine} {v : Value}

namespace OnCourse

theorem graph (h : p.OnCourse g s) : p.act.graph = g := congrArg Routine.graph h.routine

theorem listed (h : p.OnCourse g s) (hrest : p.rest = n :: rest) (hcode : (g.op n).isCode) :
    s.Listed g n p.act.block := by
  obtain ⟨pre, hsplit, -⟩ := h.available
  refine ⟨h.lt, hcode, ?_⟩
  rw [hsplit, hrest]
  simp

theorem lt_of_stepNode (h : p.OnCourse g s)
    (hstep : Machine.stepNode call m p.act n = (.ok (some v), m')) : n < p.act.values.size := by
  rw [h.size, ← h.graph]
  by_contra hbig
  have hop := Graph.op_of_size_le (Nat.le_of_not_lt hbig)
  rw [Machine.stepNode_of_pure (by rw [hop]; rfl),
    Activation.pureValue_of_not_code (by rw [hop]; rfl)] at hstep
  exact nomatch (Prod.mk.inj hstep).1

theorem available_end (h : p.OnCourse g s) (hrest : p.rest = []) :
    s.Available g p.act p.act.block (s.nodes p.act.block) := by
  obtain ⟨pre, hsplit, havail⟩ := h.available
  rw [hrest, List.append_nil] at hsplit
  exact hsplit ▸ havail

theorem pred_of_takePhis (h : p.OnCourse g s) (htake : (p.act.goTo b).takePhis = .ok a') :
    p.act.block ∈ (s.cfg.block b).preds := by
  obtain ⟨j, hidx, -⟩ := Activation.takePhis_spec (a := p.act.goTo b) rfl htake
  rw [show (p.act.goTo b).routine = ⟨g, s⟩ from h.routine] at hidx
  exact List.mem_of_getElem? (Activation.getElem?_of_idxOf? hidx)

theorem enter (h : p.OnCourse g s) (hs : s.Covers g) (hrest : p.rest = [])
    (htake : (p.act.goTo b).takePhis = .ok a') : (ofEntered a' p.machine).OnCourse g s := by
  have hsame := Activation.sameCall_takePhis htake
  have hroutine : a'.routine = ⟨g, s⟩ := hsame.routine.trans h.routine
  have hblock : a'.block = b := hsame.block
  have hb := Schedule.lt_of_takePhis_goTo h.routine htake
  have hpred := h.pred_of_takePhis htake
  obtain ⟨walk, hwalk⟩ := h.walk
  have havail := (h.available_end hrest).takePhis hs h.routine h.size hpred hb htake
  refine ⟨hroutine, hsame.size.trans h.size, ?_, ?_, ⟨[], ?_, ?_⟩⟩
  · show a'.block < _
    rwa [hblock]
  · show ∃ rest, s.cfg.Walk (a'.block :: rest)
    rw [hblock]
    exact ⟨_, hwalk.step hpred⟩
  · show s.nodes a'.block = [] ++ a'.routine.schedule.nodes a'.block
    rw [hroutine]
    rfl
  · show s.Available g a' a'.block []
    rwa [hblock]

theorem next (h : p.OnCourse g s) (hs : s.Covers g) (hnext : p.next rs k = some q) :
    q.OnCourse g s := by
  rcases next_cases hnext with ⟨n, rest, r, m', hrest, hstep, rfl⟩ | ⟨b, a', hrest, -, htake, rfl⟩
  · obtain ⟨pre, hsplit, havail⟩ := h.available
    rw [hrest] at hsplit
    cases r with
    | none =>
      refine { h with available := ⟨pre ++ [n], ?_, ?_⟩ }
      · rw [List.append_assoc]
        exact hsplit
      · refine havail.skip ?_
        rw [← h.graph]
        exact Machine.skips_of_stepNode hstep
    | some v =>
      have hlt := h.lt_of_stepNode hstep
      refine ⟨h.routine, (p.act.size_set n v).trans h.size, h.lt, h.walk,
        ⟨pre ++ [n], ?_, havail.set hlt⟩⟩
      rw [List.append_assoc]
      exact hsplit
  · exact h.enter hs hrest htake

theorem ofCall (hs : s.Covers g) (hphis : ∀ n, s.Listed g n Cfg.entry → g.op n ≠ .phi)
    (args : Array Value) (depth : Nat) (m : Machine) :
    (Point.ofCall ⟨g, s⟩ args depth m).OnCourse g s where
  routine := rfl
  size := Array.size_replicate
  lt := hs.runnable.entry
  walk := ⟨[], .entry⟩
  available := ⟨[], rfl, .ofCall hphis args depth⟩

theorem reaches (h : p.OnCourse g s) (hs : s.Covers g) (hrun : Reaches rs p q) : q.OnCourse g s := by
  induction hrun with
  | refl => exact h
  | tail _ hstep ih =>
    obtain ⟨k, hnext⟩ := hstep
    exact ih.next hs hnext

end OnCourse

end Point

end SeaNodes
