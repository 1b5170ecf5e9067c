import SeaNodes.Proofs.Eval.OnCourse
import SeaNodes.Proofs.Flow.Reached

namespace SeaNodes

/-- The node has a value once it was evaluated. -/
def Op.givesValue (op : Op) : Bool := op.isCode && op != .scope

namespace Graph

/-- What is looked up for a node: when it is evaluated, or, for a terminator, at the end of its
block. The result of a call is looked up behind the call end. A return need not have a value. -/
def operands (g : Graph) (n : NodeId) : List Edge :=
  match g.op n with
  | .load => [g.input n 2, g.input n 3]
  | .store => [g.input n 2, g.input n 3, g.input n 4]
  | .alloc => [g.input n 2]
  | .call => g.input n 2 :: ((g.inputs n).extract 3).toList
  | .proj 1 => if g.op? (g.input n 0) = some .callEnd then [g.inputOf (g.input n 0) 0] else []
  | .fork => [g.input n 1]
  | .ret => if (g.input n 2).isSome then [g.input n 2] else []
  | op => op.reads.map (g.input n)

def IsValue (g : Graph) (e : Edge) : Prop := ∃ i ∈ g.live, e = some i ∧ (g.op i).givesValue

instance (g : Graph) (e : Edge) : Decidable (g.IsValue e) :=
  inferInstanceAs (Decidable (∃ i ∈ g.live, e = some i ∧ (g.op i).givesValue = true))

end Graph

/-- Placed nodes have values for operands, and phis have one for each predecessor of their block. -/
structure Schedule.Supplied (s : Schedule) (g : Graph) : Prop where
  operands : ∀ n ∈ g.live, (s.blockOf.get n).isSome → ∀ e ∈ g.operands n, g.IsValue e
  phis : ∀ n ∈ g.live, g.op n = .phi → ∀ b ∈ s.blockOf.get n, (s.cfg.block b).preds ≠ [] ∧
    ∀ j < (s.cfg.block b).preds.length, g.IsValue (g.input n (j + 1))

instance (s : Schedule) (g : Graph) : Decidable (s.Supplied g) :=
  decidable_of_iff ((∀ n ∈ g.live, (s.blockOf.get n).isSome → ∀ e ∈ g.operands n, g.IsValue e) ∧
      ∀ n ∈ g.live, g.op n = .phi → ∀ b ∈ s.blockOf.get n, (s.cfg.block b).preds ≠ [] ∧
        ∀ j < (s.cfg.block b).preds.length, g.IsValue (g.input n (j + 1)))
    ⟨fun h => ⟨h.1, h.2⟩, fun h => ⟨h.operands, h.phis⟩⟩

/-- A function with a verified schedule, whose operands are nodes that give values. -/
structure Routine.Supplied (r : Routine) : Prop where
  wellFormed : r.graph.WellFormed
  joins : r.graph.JoinsLater
  schedule : r.graph.schedule = .ok r.schedule
  verify : r.schedule.verify r.graph = .ok ()
  supplied : r.schedule.Supplied r.graph

/-- All functions are like that. -/
def Routines.Supplied (rs : Routines) : Prop :=
  ∀ (i : Nat) (r : Routine) (arity : Nat), rs.table[i]? = some (r, arity) → r.Supplied

/-- A value is missing, or control has gone astray. -/
def EvalError.isUnsupplied : EvalError → Bool
  | .malformed _ _ .notEvaluated | .malformed _ _ .nonPredecessor | .malformed _ _ .noSuccessor => true
  | _ => false

/-- All that is looked up at a point is there: the operands of the next node, and at the end of a
block what decides on where to go and what the phis there take. -/
structure Point.Supplied (p : Point) : Prop where
  operands : ∀ n ∈ p.rest.head?, (p.act.graph.op n).isCode → ∀ e ∈ p.act.graph.operands n,
    ∃ v, p.act.get e = .ok v
  leave : p.rest = [] → ∃ x, p.act.leave = .ok x
  phis : p.rest = [] → ∀ b, p.act.leave = .ok (.inl b) → ∃ a, (p.act.goTo b).takePhis = .ok a

namespace Graph

variable {g : Graph} {n : NodeId} {e : Edge}

/-- An operand is an input, but for the result of a call. -/
theorem mem_operands (h : e ∈ g.operands n) : (∃ j, e = g.input n j) ∨
    ∃ src, g.op n = .proj 1 ∧ g.input n 0 = some src ∧ g.op src = .callEnd ∧ e = g.input src 0 := by
  unfold operands at h
  split at h
  case h_4 =>
    rcases List.mem_cons.mp h with rfl | h
    · exact .inl ⟨2, rfl⟩
    · obtain ⟨k, hk, rfl⟩ := List.mem_iff_getElem.mp h
      refine .inl ⟨3 + k, ?_⟩
      rw [Array.getElem_toList, Array.getElem_extract, input_eq_getElem?,
        Array.getElem?_eq_getElem, Option.join_some]
  case h_5 hop =>
    split at h
    case isTrue hend =>
      obtain rfl := List.mem_singleton.mp h
      cases hsrc : g.input n 0 with
      | none =>
        rw [hsrc] at hend
        exact nomatch hend
      | some src =>
        rw [hsrc] at hend
        exact .inr ⟨src, hop, rfl, Option.some.inj hend, rfl⟩
    case isFalse => exact absurd h List.not_mem_nil
  case h_7 =>
    split at h
    · exact .inl ⟨2, List.mem_singleton.mp h⟩
    · exact absurd h List.not_mem_nil
  case h_8 =>
    obtain ⟨j, -, rfl⟩ := List.mem_map.mp h
    exact .inl ⟨j, rfl⟩
  all_goals
    simp only [List.mem_cons, List.not_mem_nil, or_false] at h
    rcases h with rfl | rfl | rfl <;> exact .inl ⟨_, rfl⟩

end Graph

namespace Activation

variable {a : Activation} {n : NodeId} {x : Edge} {e : EvalError}

theorem isUnsupplied_of_get (hx : ∃ v, a.get x = .ok v) (h : a.get x = .error e) :
    e.isUnsupplied = false := by
  obtain ⟨v, hv⟩ := hx
  exact nomatch hv.symm.trans h

theorem isUnsupplied_of_getInt (hx : ∃ v, a.get x = .ok v) (h : a.getInt x = .error e) :
    e.isUnsupplied = false := by
  rcases Except.bind_eq_error h with h | ⟨v, -, h⟩
  · exact isUnsupplied_of_get hx h
  · split at h
    · exact nomatch h
    · exact Except.error.inj h ▸ rfl

theorem isUnsupplied_of_getFloat (hx : ∃ v, a.get x = .ok v) (h : a.getFloat x = .error e) :
    e.isUnsupplied = false := by
  rcases Except.bind_eq_error h with h | ⟨v, -, h⟩
  · exact isUnsupplied_of_get hx h
  · split at h
    · exact nomatch h
    · exact Except.error.inj h ▸ rfl

/-- A node whose operands are there may fail, but not for want of one. -/
theorem isUnsupplied_of_pureValue (hops : ∀ x ∈ a.graph.operands n, ∃ v, a.get x = .ok v)
    (h : a.pureValue n = .error e) : e.isUnsupplied = false := by
  unfold Graph.operands at hops
  unfold pureValue at h
  dsimp only at h
  split at h
  case h_1 => exact Except.error.inj h ▸ rfl
  case h_2 | h_3 =>
    split at h
    · cases h
    · exact Except.error.inj h ▸ rfl
  case h_4 | h_15 => cases h
  case h_5 hop | h_10 hop =>
    simp only [hop, Op.reads, List.map_cons, List.map_nil, List.forall_mem_singleton] at hops
    rcases Except.bind_eq_error h with h | ⟨v, -, h⟩
    · exact isUnsupplied_of_get hops h
    · cases h
  case h_6 op hop =>
    simp only [hop, Op.reads, List.map_cons, List.map_nil, List.forall_mem_cons] at hops
    rcases Except.bind_eq_error h with h | ⟨v, -, h⟩
    · exact isUnsupplied_of_getInt hops.1 h
    rcases Except.bind_eq_error h with h | ⟨w, -, h⟩
    · exact isUnsupplied_of_getInt hops.2.1 h
    rcases Except.bind_eq_error h with h | ⟨u, -, h⟩
    · unfold arith at h
      split at h
      case h_4 =>
        split_ifs at h
        exact Except.error.inj h ▸ rfl
      all_goals cases h
    · cases h
  case h_7 hop | h_12 hop =>
    simp only [hop, Op.reads, List.map_cons, List.map_nil, List.forall_mem_cons] at hops
    rcases Except.bind_eq_error h with h | ⟨v, -, h⟩
    · exact isUnsupplied_of_getFloat hops.1 h
    rcases Except.bind_eq_error h with h | ⟨w, -, h⟩
    · exact isUnsupplied_of_getFloat hops.2.1 h
    · cases h
  case h_8 hop =>
    simp only [hop, Op.reads, List.map_cons, List.map_nil, List.forall_mem_cons] at hops
    rcases Except.bind_eq_error h with h | ⟨v, -, h⟩
    · exact isUnsupplied_of_getInt hops.1 h
    rcases Except.bind_eq_error h with h | ⟨w, -, h⟩
    · exact isUnsupplied_of_getInt hops.2.1 h
    · cases h
  case h_9 hop =>
    simp only [hop, Op.reads, List.map_cons, List.map_nil, List.forall_mem_singleton] at hops
    rcases Except.bind_eq_error h with h | ⟨v, -, h⟩
    · exact isUnsupplied_of_get hops h
    · split at h
      · cases h
      · cases h
      · exact Except.error.inj h ▸ rfl
  case h_11 hop =>
    simp only [hop, Op.reads, List.map_cons, List.map_nil, List.forall_mem_cons] at hops
    rcases Except.bind_eq_error h with h | ⟨v, -, h⟩
    · exact isUnsupplied_of_get hops.1 h
    rcases Except.bind_eq_error h with h | ⟨w, -, h⟩
    · exact isUnsupplied_of_get hops.2.1 h
    · cases h
  case h_13 hop =>
    simp only [hop, Op.reads, List.map_cons, List.map_nil, List.forall_mem_singleton] at hops
    rcases Except.bind_eq_error h with h | ⟨v, -, h⟩
    · exact isUnsupplied_of_getInt hops h
    · cases h
  case h_14 hop =>
    split at h
    case h_1 hend =>
      simp only [hop, hend, if_true, List.forall_mem_singleton] at hops
      rcases Except.bind_eq_error h with h | ⟨v, -, h⟩
      · exact isUnsupplied_of_get hops h
      · cases h
    case h_2 => cases h
    case h_3 => exact Except.error.inj h ▸ rfl

end Activation

namespace Machine

variable {a : Activation} {n : NodeId} {e : EvalError} {m m' : Machine} {call : Caller}

theorem isUnsupplied_of_slot {v : Value} {offset : Int64} (h : m.slot n v offset = .error e) :
    e.isUnsupplied = false := by
  unfold slot at h
  split at h
  · dsimp only at h
    split_ifs at h
    exact Except.error.inj h ▸ rfl
  · exact Except.error.inj h ▸ rfl
  · exact Except.error.inj h ▸ rfl

/-- So may a node with effects; what a function that it calls misses, that function is to blame for. -/
theorem Failure.isUnsupplied (h : Failure call m a n e m')
    (hops : ∀ x ∈ a.graph.operands n, ∃ v, a.get x = .ok v) :
    e.isUnsupplied = false ∨ ∃ f args, call f args (a.depth + 1) m = (.error e, m') := by
  cases h with
  | load hop h =>
    left
    simp only [Graph.operands, hop, List.forall_mem_cons] at hops
    rcases Except.bind_eq_error h with h | ⟨obj, -, h⟩
    · exact Activation.isUnsupplied_of_get hops.1 h
    rcases Except.bind_eq_error h with h | ⟨offset, -, h⟩
    · exact Activation.isUnsupplied_of_getInt hops.2.1 h
    rcases Except.bind_eq_error h with h | ⟨slot, -, h⟩
    · exact isUnsupplied_of_slot h
    · cases h
  | store hop h =>
    left
    simp only [Graph.operands, hop, List.forall_mem_cons] at hops
    rcases Except.bind_eq_error h with h | ⟨obj, -, h⟩
    · exact Activation.isUnsupplied_of_get hops.1 h
    rcases Except.bind_eq_error h with h | ⟨offset, -, h⟩
    · exact Activation.isUnsupplied_of_getInt hops.2.1 h
    rcases Except.bind_eq_error h with h | ⟨value, -, h⟩
    · exact Activation.isUnsupplied_of_get hops.2.2.1 h
    rcases Except.bind_eq_error h with h | ⟨slot, -, h⟩
    · exact isUnsupplied_of_slot h
    · cases h
  | alloc hop h =>
    left
    simp only [Graph.operands, hop, List.forall_mem_singleton] at hops
    rcases Except.bind_eq_error h with h | ⟨size, -, h⟩
    · exact Activation.isUnsupplied_of_getInt hops h
    · split_ifs at h
      · exact Except.error.inj h ▸ rfl
      · cases h
  | target hop h =>
    left
    simp only [Graph.operands, hop, List.forall_mem_cons] at hops
    rcases Except.bind_eq_error h with h | ⟨f, -, h⟩
    · exact Activation.isUnsupplied_of_get hops.1 h
    · split at h
      · rcases Except.bind_eq_error h with h | ⟨args, -, h⟩
        · rw [Array.mapM_eq_mapM_toList] at h
          cases hargs : ((a.graph.inputs n).extract 3).toList.mapM a.get with
          | ok args =>
            rw [hargs] at h
            cases h
          | error e' =>
            rw [hargs] at h
            obtain ⟨x, hmem, hx⟩ := Except.exists_of_mapM_eq_error hargs
            exact Except.error.inj h ▸ Activation.isUnsupplied_of_get (hops.2 x hmem) hx
        · cases h
      · exact Except.error.inj h ▸ rfl
  | callee _ _ h => exact .inr ⟨_, _, h⟩
  | pure h => exact .inl (Activation.isUnsupplied_of_pureValue hops h)

theorem isUnsupplied_of_enter {rs : Routines} {i depth : Nat} {args : Array Value}
    (h : enter rs i args depth = .error e) : e.isUnsupplied = false := by
  unfold enter at h
  split_ifs at h
  · exact Except.error.inj h ▸ rfl
  · split at h
    · exact Except.error.inj h ▸ rfl
    · split_ifs at h
      exact Except.error.inj h ▸ rfl

end Machine

/-- A schedule that can be run on a graph whose operands are there. -/
structure Schedule.Ready (s : Schedule) (g : Graph) : Prop where
  wellFormed : g.WellFormed
  joins : g.JoinsLater
  covers : s.Covers g
  floats : ∀ n ∈ g.live, g.floats n → (s.blockOf.get n).isSome
  supplied : s.Supplied g

theorem Routine.Supplied.ready {r : Routine} (h : r.Supplied) : r.schedule.Ready r.graph := by
  obtain ⟨c, -, hof⟩ := Schedule.ofGraph_of_schedule h.schedule
  exact ⟨h.wellFormed, h.joins, Schedule.covers_of_schedule h.wellFormed h.schedule h.verify,
    hof.floats, h.supplied⟩

namespace Schedule

variable {g : Graph} {s : Schedule} {a : Activation} {n i t : NodeId} {b d : BlockId} {x : Edge}
  {pre post : List NodeId} {rest : List BlockId}

namespace Ready

theorem exists_block (h : s.Ready g) (hi : i ∈ g.live) (hvalue : (g.op i).givesValue) :
    (g.op i).isCode ∧ ∃ d, s.blockOf.get i = some d := by
  have hcode : (g.op i).isCode ∧ g.op i ≠ .scope := by simpa [Op.givesValue] using hvalue
  refine ⟨hcode.1, Option.isSome_iff_exists.mp ?_⟩
  refine h.covers.isSome_blockOf h.floats hi ?_ ?_ hcode.2
  · intro hop
    simp [hop, Op.isCode, Op.isCfg] at hcode
  · intro hop
    simp [hop, Op.isCode, Op.isCfg] at hcode

/-- The first block has no predecessors, and so no phis. -/
theorem ne_phi_of_entry (h : s.Ready g) (hn : s.Listed g n Cfg.entry) : g.op n ≠ .phi := by
  intro hop
  obtain ⟨hlive, hblock⟩ := hn.live h.covers.runnable
  refine (h.supplied.phis n hlive hop _ hblock).1 ?_
  have hpreds := h.covers.built.preds Cfg.entry hn.lt
  unfold Cfg.predsOf at hpreds
  simp only [h.covers.head_entry h.wellFormed, h.wellFormed.start_op] at hpreds
  exact (Except.ok.inj hpreds).symm

theorem exists_get_of_dominates (h : s.Ready g) (havail : s.Available g a b (s.nodes b))
    (hwalk : s.cfg.Walk (b :: rest)) (hi : i ∈ g.live) (hcode : (g.op i).isCode)
    (hd : s.blockOf.get i = some d) (hdom : s.cfg.Dominates d b) : ∃ v, a.get (some i) = .ok v := by
  have hlisted := listed_of_placed h.covers.runnable
    (lt_of_dominates h.covers.runnable hwalk hdom) hi hcode hd
  obtain ⟨v, hv⟩ := Option.isSome_iff_exists.mp
    (havail d i hlisted hdom fun hdb => .inl (hdb ▸ hlisted.mem))
  exact ⟨v, Activation.get_of_value hv⟩

theorem exists_get_of_operand (h : s.Ready g) (havail : s.Available g a b pre)
    (hwalk : s.cfg.Walk (b :: rest)) (hn : s.Listed g n b) (hsplit : s.nodes b = pre ++ n :: post)
    (hx : x ∈ g.operands n) : ∃ v, a.get x = .ok v := by
  obtain ⟨hlive, hblock⟩ := hn.live h.covers.runnable
  have hphi : g.op n ≠ .phi := by
    intro hop
    simp [Graph.operands, hop, Op.reads] at hx
  obtain ⟨i, hi, rfl, hvalue⟩ := h.supplied.operands n hlive (by rw [hblock]; rfl) x hx
  obtain ⟨hcode, d, hd⟩ := h.exists_block hi hvalue
  have hsome : (a.value i).isSome := by
    rcases Graph.mem_operands hx with ⟨j, hj⟩ | ⟨src, hop, hsrc, hend, hc⟩
    · exact havail.input h.covers hwalk hn hphi hsplit hj.symm hi hcode hd
    · obtain ⟨hlisted, hmem⟩ := h.covers.mem_of_call h.wellFormed hn hop hsrc hend hc.symm hcode hsplit
      exact havail b i hlisted (.refl _ b) fun _ => .inl hmem
  obtain ⟨v, hv⟩ := Option.isSome_iff_exists.mp hsome
  exact ⟨v, Activation.get_of_value hv⟩

theorem exists_get_of_terminator (h : s.Ready g) (havail : s.Available g a b (s.nodes b))
    (hwalk : s.cfg.Walk (b :: rest)) (ht : (s.cfg.block b).terminator = some t)
    (hx : x ∈ g.operands t) : ∃ v, a.get x = .ok v := by
  obtain ⟨hlive, hblock⟩ := h.covers.runnable.terminator b t ht
  have hop := (h.covers.built.chained.terminator b t ht).2
  obtain ⟨i, hi, rfl, hvalue⟩ := h.supplied.operands t hlive (by rw [hblock]; rfl) x hx
  obtain ⟨hcode, d, hd⟩ := h.exists_block hi hvalue
  rcases Graph.mem_operands hx with ⟨j, hj⟩ | ⟨src, hproj, -⟩
  · exact h.exists_get_of_dominates havail hwalk hi hcode hd
      (h.covers.runnable.dominates_of_terminator ht hop hj.symm hd)
  · rw [hproj] at hop
    exact hop.elim (fun h => nomatch h) fun h => nomatch h

theorem exists_get_of_phi (h : s.Ready g) (havail : s.Available g a b (s.nodes b))
    (hwalk : s.cfg.Walk (b :: rest)) (hn : s.Listed g n d) (hop : g.op n = .phi) {j : Nat}
    (hj : (s.cfg.block d).preds[j]? = some b) : ∃ v, a.get (g.input n (j + 1)) = .ok v := by
  obtain ⟨hlive, hblock⟩ := hn.live h.covers.runnable
  obtain ⟨hlt, -⟩ := List.getElem?_eq_some_iff.mp hj
  obtain ⟨i, hi, heq, hvalue⟩ := (h.supplied.phis n hlive hop d hblock).2 j hlt
  obtain ⟨hcode, c, hc⟩ := h.exists_block hi hvalue
  rw [heq]
  exact h.exists_get_of_dominates havail hwalk hi hcode hc
    (hn.dominates_of_phi h.covers.runnable hop hj heq hc)

end Ready

end Schedule

namespace Point

variable {g : Graph} {s : Schedule} {p : Point} {b : BlockId} {rs : Routines} {e : EvalError}
  {m' : Machine}

namespace OnCourse

theorem exists_leave (h : p.OnCourse g s) (hs : s.Ready g) (hrest : p.rest = []) :
    ∃ x, p.act.leave = .ok x ∧ ∀ b, x = .inl b → p.act.block ∈ (s.cfg.block b).preds := by
  obtain ⟨walk, hwalk⟩ := h.walk
  have havail := h.available_end hrest
  unfold Activation.leave
  rw [h.graph, h.routine]
  dsimp only
  split
  case h_1 hterm =>
    obtain ⟨d, hd, hpred⟩ :=
      hs.covers.built.exists_jump hs.wellFormed hs.joins h.lt hterm
    rw [hd]
    exact ⟨.inl d, rfl, fun b hb => Sum.inl.inj hb ▸ hpred⟩
  case h_2 t hterm =>
    have hget {x : Edge} (hx : x ∈ g.operands t) : ∃ v, p.act.get x = .ok v :=
      hs.exists_get_of_terminator havail hwalk hterm hx
    rcases (hs.covers.built.chained.terminator _ t hterm).2 with hop | hop
    · obtain ⟨v, hv⟩ := hget (x := g.input t 1) (by simp [Graph.operands, hop])
      obtain ⟨d, hd, hpred⟩ := hs.covers.built.exists_side hs.wellFormed h.lt hterm hop
        (i := if v.isTruthy then 0 else 1) (by split <;> decide)
      simp only [hop, hv, bind, Except.bind, hd]
      exact ⟨.inl d, rfl, fun b hb => Sum.inl.inj hb ▸ hpred⟩
    · simp only [hop]
      split
      case isTrue hsome =>
        obtain ⟨v, hv⟩ := hget (x := g.input t 2) (by simp [Graph.operands, hop, hsome])
        rw [hv]
        exact ⟨.inr v, rfl, fun b hb => by cases hb⟩
      case isFalse => exact ⟨_, rfl, fun b hb => by cases hb⟩

theorem supplied (h : p.OnCourse g s) (hs : s.Ready g) : p.Supplied := by
  obtain ⟨walk, hwalk⟩ := h.walk
  constructor
  · intro n hn hcode x hx
    rw [h.graph] at hcode hx
    obtain ⟨rest, hrest⟩ : ∃ rest, p.rest = n :: rest := by
      cases hp : p.rest with
      | nil =>
        rw [hp] at hn
        exact nomatch hn
      | cons m rest =>
        rw [hp] at hn
        exact ⟨rest, by rw [Option.some.inj hn]⟩
    obtain ⟨pre, hsplit, havail⟩ := h.available
    exact hs.exists_get_of_operand havail hwalk (h.listed hrest hcode) (hrest ▸ hsplit) hx
  · intro hrest
    obtain ⟨x, hx, -⟩ := h.exists_leave hs hrest
    exact ⟨x, hx⟩
  · intro hrest b hleave
    obtain ⟨x, hx, hpred⟩ := h.exists_leave hs hrest
    have hmem := hpred b (Except.ok.inj (hx.symm.trans hleave))
    have hlt : b < s.cfg.size := Cfg.lt_size_of_mem_preds hmem
    have hroutine : (p.act.goTo b).routine = ⟨g, s⟩ := h.routine
    have hgraph : (p.act.goTo b).graph = g := h.graph
    obtain ⟨j, hj⟩ := Option.isSome_iff_exists.mp (List.isSome_idxOf?.mpr hmem)
    have hget : (s.cfg.block b).preds[j]? = some p.act.block := Activation.getElem?_of_idxOf? hj
    refine Activation.exists_takePhis (p := p.act.block) (j := j) rfl ?_ fun n hn => ?_
    · rw [hroutine]
      exact hj
    · obtain ⟨hmem, hop⟩ := Activation.mem_phiNodes.mp hn
      rw [hroutine] at hmem
      rw [hgraph] at hop ⊢
      exact hs.exists_get_of_phi (h.available_end hrest) hwalk
        ⟨hlt, by simp [hop, Op.isCode, Op.isCfg], hmem⟩ hop hget

/-- A run does not end because a value is missing, unless one that it calls does. -/
theorem isUnsupplied_of_ends (h : p.OnCourse g s) (hs : s.Ready g) (hends : p.Ends rs (.error e, m'))
    (hcalls : ∀ k f args m e m', Machine.caller rs k f args (p.act.depth + 1) m = (.error e, m') →
      e.isUnsupplied = false) : e.isUnsupplied = false := by
  have hsupplied := h.supplied hs
  cases hends with
  | leave hleave =>
    obtain ⟨x, hx⟩ := hsupplied.leave rfl
    cases hx.symm.trans hleave
  | phis hleave htake =>
    obtain ⟨a, ha⟩ := hsupplied.phis rfl _ hleave
    cases ha.symm.trans htake
  | fuel => rfl
  | @node a m _ n rest k _ hnode =>
    have hcode : (a.graph.op n).isCode := by
      by_contra hno
      rw [Bool.not_eq_true] at hno
      have heffect : (a.graph.op n).hasEffect = false :=
        Bool.eq_false_iff.mpr fun heffect => by simp [Op.isCode_of_hasEffect heffect] at hno
      rw [Machine.stepNode_of_pure heffect, Activation.pureValue_of_not_code hno] at hnode
      cases (Prod.mk.inj hnode).1
    have hfailure := Machine.failure_of_stepNode hnode
    rcases hfailure.isUnsupplied (hsupplied.operands n rfl hcode) with hother | ⟨f, args, hcall⟩
    · exact hother
    · exact hcalls k f args _ e m' hcall

end OnCourse

end Point

namespace Routines.Supplied

variable {rs : Routines} {i arity depth : Nat} {r : Routine} {args : Array Value} {m m' : Machine}
  {p : Point} {e : EvalError}

theorem onCourse (hrs : rs.Supplied) (hr : rs.table[i]? = some (r, arity))
    (hrun : Point.Reaches rs (.ofCall r args depth m) p) :
    r.schedule.Ready r.graph ∧ p.OnCourse r.graph r.schedule := by
  have hready := (hrs i r arity hr).ready
  exact ⟨hready, (Point.OnCourse.ofCall hready.covers (fun _ => hready.ne_phi_of_entry) args depth
    m).reaches hready.covers hrun⟩

theorem isUnsupplied_of_caller (hrs : rs.Supplied) (k : Nat)
    (hcall : Machine.caller rs k i args depth m = (.error e, m')) : e.isUnsupplied = false := by
  induction hdepth : Machine.maxDepth - depth using Nat.strong_induction_on
    generalizing k i args depth m e m' with
  | _ d ih =>
  unfold Machine.caller at hcall
  split at hcall
  case h_2 henter =>
    exact Except.error.inj (Prod.mk.inj hcall).1 ▸ Machine.isUnsupplied_of_enter henter
  case h_1 a henter =>
    obtain ⟨hlt, r, arity, hr, rfl⟩ := Machine.enter_spec henter
    obtain ⟨p, hrun, hends⟩ := Point.exists_reaches_exec rs k m
      (Activation.takePhis_of_first (a := .ofCall r args depth) rfl)
    rw [hcall] at hends
    obtain ⟨hready, hcourse⟩ := hrs.onCourse hr hrun
    refine hcourse.isUnsupplied_of_ends hready hends fun k f args m e m' hnested =>
      ih _ ?_ k hnested rfl
    rw [Point.depth_of_reaches hrun, ← hdepth]
    show Machine.maxDepth - (depth + 1) < Machine.maxDepth - depth
    omega

end Routines.Supplied

/-- Runs of functions with verified schedules, whose operands are nodes that give values, find all
that they look up: the operands of nodes and terminators, and what phis take on the edge control came
on. So no call, however deep, ends because a value is missing, a block was entered from elsewhere than
a predecessor, or has no successor. -/
theorem lookups_succeed {rs : Routines} (hrs : rs.Supplied) :
    (∀ (i : Nat) (r : Routine) (arity : Nat) (args : Array Value) (depth : Nat) (m : Machine)
      (p : Point), rs.table[i]? = some (r, arity) →
        Point.Reaches rs (.ofCall r args depth m) p → p.Supplied) ∧
    ∀ (m m' : Machine) (i : Nat) (args : Array Value) (e : EvalError),
      m.call rs i args = (.error e, m') → e.isUnsupplied = false := by
  refine ⟨fun i r arity args depth m p hr hrun => ?_, fun m m' i args e hcall => ?_⟩
  · obtain ⟨hready, hcourse⟩ := hrs.onCourse hr hrun
    exact hcourse.supplied hready
  · exact hrs.isUnsupplied_of_caller (m.fuel + 2) hcall

/-- The product of the numbers up to the argument. -/
def factorial : Graph :=
  let (n, g) := Graph.empty.add (.param 0) #[some Graph.start] .anyInt
  let (mem, g) := g.add .startMem #[some Graph.start]
  let (one, g) := g.const (.ofInt 1)
  let (self, g) := g.const (.fn (some 0))
  let (fork, g) := g.add .fork #[some Graph.start, some n]
  let (more, g) := g.add (.ctrlProj 0) #[some fork]
  let (done, g) := g.add (.ctrlProj 1) #[some fork]
  let (less, g) := g.add (.arith .sub) #[none, some n, some one]
  let (call, g) := g.add .call #[some more, some mem, some self, some less]
  let (callEnd, g) := g.add .callEnd #[some call]
  let (result, g) := g.add (.proj 1) #[some callEnd] .anyInt
  let (product, g) := g.add (.arith .mul) #[none, some n, some result]
  let (region, g) := g.add .region #[none, some callEnd, some done]
  let (phi, g) := g.add .phi #[some region, some product, some one] .anyInt
  let (ret, g) := g.add .ret #[some region, none, some phi]
  g.pushInput Graph.stop (some ret)

theorem Routines.table_singleton (r : Routine) :
    (Routines.ofList [r]).table[0]? = some (r, r.graph.arity) := rfl

theorem Routine.Supplied.singleton {r : Routine} (h : r.Supplied) :
    (Routines.ofList [r]).Supplied := by
  intro i r' arity hentry
  rw [Routines.ofList, List.getElem?_toArray, List.getElem?_map, Option.map_eq_some_iff] at hentry
  obtain ⟨r'', hr, heq⟩ := hentry
  obtain rfl : r'' = r := List.mem_singleton.mp (List.mem_of_getElem? hr)
  exact (Prod.mk.inj heq).1 ▸ h

/-- It runs through calls of itself, a branch and a phi. -/
theorem lookups_succeed_factorial : ∃ s : Schedule, factorial.schedule = .ok s ∧
    (Routines.ofList [⟨factorial, s⟩]).Supplied ∧
    (({ fuel := 60 } : Machine).call (.ofList [⟨factorial, s⟩]) 0 #[.int 3]).1 = .ok (.int 6) ∧
    (∀ (args : Array Value) (depth : Nat) (m : Machine) (p : Point),
      Point.Reaches (.ofList [⟨factorial, s⟩]) (.ofCall ⟨factorial, s⟩ args depth m) p →
        p.Supplied) ∧
    ∀ (m m' : Machine) (i : Nat) (args : Array Value) (e : EvalError),
      m.call (.ofList [⟨factorial, s⟩]) i args = (.error e, m') → e.isUnsupplied = false := by
  obtain ⟨s, hs, hverify, hsupplied, hresult⟩ := Except.exists_of_any (x := factorial.schedule)
    (p := fun s => s.verify factorial = .ok () ∧ s.Supplied factorial ∧
      (({ fuel := 60 } : Machine).call (.ofList [⟨factorial, s⟩]) 0 #[.int 3]).1 = .ok (.int 6))
    (by decide +kernel)
  have hgraph : factorial.WellFormed ∧ factorial.JoinsLater := by decide +kernel
  have hr : Routine.Supplied ⟨factorial, s⟩ := ⟨hgraph.1, hgraph.2, hs, hverify, hsupplied⟩
  have hrs := hr.singleton
  obtain ⟨hpoints, herrors⟩ := lookups_succeed hrs
  exact ⟨s, hs, hrs, hresult, fun args depth m p => hpoints 0 _ _ args depth m p
    (Routines.table_singleton ⟨factorial, s⟩), herrors⟩

/-- A branch whose true side comes to the region at the input that regions do not use. -/
def earlyJoin : Graph :=
  let (x, g) := Graph.empty.add (.param 0) #[some Graph.start] .anyInt
  let (fork, g) := g.add .fork #[some Graph.start, some x]
  let (onTrue, g) := g.add (.ctrlProj 0) #[some fork]
  let (onFalse, g) := g.add (.ctrlProj 1) #[some fork]
  let (region, g) := g.add .region #[some onTrue, some onFalse]
  let (ret, g) := g.add .ret #[some region, none, some x]
  g.pushInput Graph.stop (some ret)

/-- The block of the true side goes on to the region, of which it is no predecessor. -/
theorem earlyJoin_nonPredecessor : ∃ s : Schedule, earlyJoin.WellFormed ∧
    earlyJoin.schedule = .ok s ∧ s.verify earlyJoin = .ok () ∧ s.Supplied earlyJoin ∧
    (({ fuel := 20 } : Machine).call (.ofList [⟨earlyJoin, s⟩]) 0 #[.int 1]).1 =
      .error (.malformed (some 7) "region" .nonPredecessor) := by
  obtain ⟨s, hs, hverify, hsupplied, hresult⟩ := Except.exists_of_any (x := earlyJoin.schedule)
    (p := fun s => s.verify earlyJoin = .ok () ∧ s.Supplied earlyJoin ∧
      (({ fuel := 20 } : Machine).call (.ofList [⟨earlyJoin, s⟩]) 0 #[.int 1]).1 =
        .error (.malformed (some 7) "region" .nonPredecessor))
    (by decide +kernel)
  exact ⟨s, by decide +kernel, hs, hverify, hsupplied, hresult⟩

end SeaNodes
