import SeaNodes.Proofs.Eval.Blame
import SeaNodes.Proofs.Opt.Gate

namespace SeaNodes

def EvalError.isNullAccess : EvalError → Bool
  | .nullAccess _ => true
  | _ => false

namespace Activation

variable {a : Activation} {n : NodeId} {x : Edge} {e : EvalError}

theorem isNullAccess_of_get (h : a.get x = .error e) : e.isNullAccess = false := by
  unfold Activation.get at h
  split at h
  · exact nomatch h
  · split at h
    · split at h
      · exact nomatch h
      · exact Except.error.inj h ▸ rfl
    · exact Except.error.inj h ▸ rfl

theorem isNullAccess_of_getInt (h : a.getInt x = .error e) : e.isNullAccess = false := by
  rcases Except.bind_eq_error h with h | ⟨v, -, h⟩
  · exact isNullAccess_of_get h
  · split at h
    · exact nomatch h
    · exact Except.error.inj h ▸ rfl

theorem isNullAccess_of_isAt {g : Graph} (h : e.IsAt g n) : e.isNullAccess = false := by
  cases e <;> first | rfl | exact h.elim

theorem isNullAccess_of_pureValue (h : a.pureValue n = .error e) : e.isNullAccess = false := by
  by_cases hfloats : a.graph.floats n
  · exact isNullAccess_of_isAt (isAt_of_pureValue hfloats h)
  · unfold pureValue at h
    dsimp only at h
    split at h
    case h_1 => exact Except.error.inj h ▸ rfl
    case h_3 =>
      split at h
      · exact nomatch h
      · exact Except.error.inj h ▸ rfl
    case h_5 =>
      rcases Except.bind_eq_error h with h | ⟨v, -, h⟩
      · exact isNullAccess_of_get h
      · exact nomatch h
    case h_14 =>
      split at h
      · rcases Except.bind_eq_error h with h | ⟨v, -, h⟩
        · exact isNullAccess_of_get h
        · exact nomatch h
      · exact nomatch h
      · exact Except.error.inj h ▸ rfl
    case h_4 | h_15 => exact nomatch h
    all_goals simp_all [Graph.floats, Op.isFloating]

theorem isNullAccess_of_leave (h : a.leave = .error e) : e.isNullAccess = false := by
  unfold leave at h
  dsimp only at h
  split at h
  · split at h
    · exact nomatch h
    · exact Except.error.inj h ▸ rfl
  · split at h
    · split at h
      · rcases Except.bind_eq_error h with h | ⟨v, -, h⟩
        · exact isNullAccess_of_get h
        · exact nomatch h
      · exact nomatch h
    · rcases Except.bind_eq_error h with h | ⟨v, -, h⟩
      · exact isNullAccess_of_get h
      · split at h
        · exact nomatch h
        · exact Except.error.inj h ▸ rfl
    · exact Except.error.inj h ▸ rfl

theorem isNullAccess_of_takePhis (h : a.takePhis = .error e) : e.isNullAccess = false := by
  rcases Except.bind_eq_error h with h | ⟨phis, -, h⟩
  · unfold incoming at h
    dsimp only at h
    split at h
    · exact nomatch h
    · split at h
      · exact Except.error.inj h ▸ rfl
      · obtain ⟨phi, -, hphi⟩ := Except.exists_of_mapM_eq_error h
        rcases Except.bind_eq_error hphi with hphi | ⟨v, -, hphi⟩
        · exact isNullAccess_of_get hphi
        · exact nomatch hphi
  · exact nomatch h

end Activation

namespace Machine

variable {a : Activation} {n : NodeId} {e : EvalError} {m m' : Machine} {call : Caller}

theorem isNullAccess_of_slot {v : Value} {offset : Int64} (h : m.slot n v offset = .error e)
    (hv : v ≠ .ref none) : e.isNullAccess = false := by
  unfold slot at h
  split at h
  · dsimp only at h
    split_ifs at h
    exact Except.error.inj h ▸ rfl
  · exact absurd rfl hv
  · exact Except.error.inj h ▸ rfl

theorem isNullAccess_of_load (h : m.load a n = .error e)
    (hptr : ∀ v, a.get (a.graph.input n 2) = .ok v → v ≠ .ref none) : e.isNullAccess = false := by
  rcases Except.bind_eq_error h with h | ⟨obj, hobj, h⟩
  · exact Activation.isNullAccess_of_get h
  rcases Except.bind_eq_error h with h | ⟨offset, -, h⟩
  · exact Activation.isNullAccess_of_getInt h
  rcases Except.bind_eq_error h with h | ⟨slot, -, h⟩
  · exact isNullAccess_of_slot h (hptr obj hobj)
  · exact nomatch h

theorem isNullAccess_of_storeTarget (h : m.storeTarget a n = .error e)
    (hptr : ∀ v, a.get (a.graph.input n 2) = .ok v → v ≠ .ref none) : e.isNullAccess = false := by
  rcases Except.bind_eq_error h with h | ⟨obj, hobj, h⟩
  · exact Activation.isNullAccess_of_get h
  rcases Except.bind_eq_error h with h | ⟨offset, -, h⟩
  · exact Activation.isNullAccess_of_getInt h
  rcases Except.bind_eq_error h with h | ⟨value, -, h⟩
  · exact Activation.isNullAccess_of_get h
  rcases Except.bind_eq_error h with h | ⟨slot, -, h⟩
  · exact isNullAccess_of_slot h (hptr obj hobj)
  · exact nomatch h

theorem isNullAccess_of_allocSlots (h : allocSlots a n = .error e) : e.isNullAccess = false := by
  rcases Except.bind_eq_error h with h | ⟨size, -, h⟩
  · exact Activation.isNullAccess_of_getInt h
  · split_ifs at h
    · exact Except.error.inj h ▸ rfl
    · exact nomatch h

theorem isNullAccess_of_callTarget (h : callTarget a n = .error e) : e.isNullAccess = false := by
  rcases Except.bind_eq_error h with h | ⟨f, -, h⟩
  · exact Activation.isNullAccess_of_get h
  · split at h
    · rcases Except.bind_eq_error h with h | ⟨args, -, h⟩
      · rw [Array.mapM_eq_mapM_toList] at h
        cases hargs : ((a.graph.inputs n).extract 3).toList.mapM a.get with
        | ok args =>
          rw [hargs] at h
          exact nomatch h
        | error e' =>
          rw [hargs] at h
          obtain ⟨x, -, hx⟩ := Except.exists_of_mapM_eq_error hargs
          exact Except.error.inj h ▸ Activation.isNullAccess_of_get hx
      · exact nomatch h
    · exact Except.error.inj h ▸ rfl

theorem isNullAccess_of_stepNode (h : stepNode call m a n = (.error e, m'))
    (hptr : a.graph.op n = .load ∨ a.graph.op n = .store →
      ∀ v, a.get (a.graph.input n 2) = .ok v → v ≠ .ref none) :
    e.isNullAccess = false ∨ ∃ f args, a.graph.op n = .call ∧ callTarget a n = .ok (f, args) ∧
      call f args (a.depth + 1) m = (.error e, m') := by
  cases failure_of_stepNode h with
  | load hop h => exact .inl (isNullAccess_of_load h (hptr (.inl hop)))
  | store hop h => exact .inl (isNullAccess_of_storeTarget h (hptr (.inr hop)))
  | alloc _ h => exact .inl (isNullAccess_of_allocSlots h)
  | target _ h => exact .inl (isNullAccess_of_callTarget h)
  | callee hop htarget h => exact .inr ⟨_, _, hop, htarget, h⟩
  | pure h => exact .inl (Activation.isNullAccess_of_pureValue h)

theorem isNullAccess_of_enter {rs : Routines} {i depth : Nat} {args : Array Value}
    (h : enter rs i args depth = .error e) : e.isNullAccess = false := by
  unfold enter at h
  split_ifs at h
  · exact Except.error.inj h ▸ rfl
  · split at h
    · exact Except.error.inj h ▸ rfl
    · split_ifs at h
      exact Except.error.inj h ▸ rfl

end Machine

namespace Point

variable {rs : Routines} {p q r : Point} {g : Graph} {s : Schedule} {e : EvalError} {m' : Machine}

/-- A run from `p` comes to `q`, in its own function or in one that it calls. -/
inductive Visits (rs : Routines) : Point → Point → Prop where
  | refl (p : Point) : Visits rs p p
  | next {p q r : Point} {k : Nat} (hnext : p.next rs k = some q) (hrest : Visits rs q r) :
      Visits rs p r
  | call {p r : Point} {n : NodeId} {rest : List NodeId} {f : Nat} {args : Array Value}
      {a : Activation} (hrest : p.rest = n :: rest) (hop : p.act.graph.op n = .call)
      (htarget : Machine.callTarget p.act n = .ok (f, args))
      (henter : Machine.enter rs f args (p.act.depth + 1) = .ok a)
      (hbody : Visits rs (.ofEntered a { p.machine with steps := p.machine.steps + 1 }) r) :
      Visits rs p r

theorem Visits.trans (h : Visits rs p q) (h' : Visits rs q r) : Visits rs p r := by
  induction h with
  | refl => exact h'
  | next hnext _ ih => exact .next hnext (ih h')
  | call hrest hop htarget henter _ ih => exact .call hrest hop htarget henter (ih h')

theorem visits_of_reaches (h : Reaches rs p q) : Visits rs p q := by
  induction h using Relation.ReflTransGen.head_induction_on with
  | refl => exact .refl q
  | head hstep _ ih =>
    obtain ⟨k, hnext⟩ := hstep
    exact .next hnext ih

/-- All moves of a run, and of the runs that it calls, accept what they take. -/
def Keeps (rs : Routines) (p : Point) : Prop :=
  ∀ q q' k, Visits rs p q → q.next rs k = some q' → q.Accepts q'

theorem Keeps.visits (h : Keeps rs p) (hq : Visits rs p q) : Keeps rs q :=
  fun r r' k hr hnext => h r r' k (hq.trans hr) hnext

theorem Keeps.accepted (h : Keeps rs p) (hq : Reaches rs p q) : Accepted rs p q := by
  induction hq with
  | refl => exact .refl
  | tail hreach hstep ih =>
    obtain ⟨k, hnext⟩ := hstep
    exact .tail ih ⟨⟨k, hnext⟩, h _ _ k (visits_of_reaches hreach) hnext⟩

end Point

/-- Functions whose types describe their runs, and which access memory through references that are
not null. -/
def Routines.NullChecked (rs : Routines) : Prop :=
  ∀ (i : Nat) (r : Routine) (arity : Nat), rs.table[i]? = some (r, arity) →
    r.schedule.WellTyped r.graph ∧ r.graph.AccessesNotNull

namespace Point

/-- A run within the types does not end with a null access, nor does any that it calls. -/
theorem Typed.isNullAccess_of_ends (hrs : rs.NullChecked) (h : p.Typed g s) (hs : s.WellTyped g)
    (hptr : g.AccessesNotNull) (hkeeps : Keeps rs p) (hends : p.Ends rs (.error e, m')) :
    e.isNullAccess = false := by
  induction hk : Machine.maxDepth - p.act.depth using Nat.strong_induction_on
    generalizing p g s e m' with
  | _ k ih =>
  cases hends with
  | leave hleave => exact Activation.isNullAccess_of_leave hleave
  | phis hleave htake => exact Activation.isNullAccess_of_takePhis htake
  | fuel => rfl
  | @node a m _ n rest k' _ hnode =>
    have hnotNull (hop : a.graph.op n = .load ∨ a.graph.op n = .store) (v : Value)
        (hget : a.get (a.graph.input n 2) = .ok v) : v ≠ .ref none := by
      rw [h.graph] at hop hget
      have hcode : (g.op n).isCode := by rcases hop with hop | hop <;> rw [hop] <;> rfl
      have hlive := ((h.listed rfl hcode).live hs.covers.runnable).1
      have hhas := h.has_of_get hs hlive 2 hget
      have hty := hptr n hlive hop
      rintro rfl
      generalize g.ty (g.input n 2) = t at hhas hty
      cases t with
      | ptr o nullness =>
        obtain rfl : nullness = .notNull := Option.some.inj hty
        exact nomatch hhas
      | _ => exact nomatch hty
    rcases Machine.isNullAccess_of_stepNode hnode hnotNull with hother | ⟨f, args, hop, htarget, hcall⟩
    · exact hother
    · unfold Machine.caller at hcall
      split at hcall
      case h_2 henter => exact Except.error.inj (Prod.mk.inj hcall).1 ▸ Machine.isNullAccess_of_enter henter
      case h_1 a' henter =>
        obtain ⟨hdepth, r, arity, hr, rfl⟩ := Machine.enter_spec henter
        obtain ⟨q, hreach, hq⟩ := exists_reaches_exec rs k' { m with steps := m.steps + 1 }
          (Activation.takePhis_of_first (a := .ofCall r args (a.depth + 1)) rfl)
        rw [hcall] at hq
        obtain ⟨hwell, hcallee⟩ := hrs f r arity hr
        have hbody : Keeps rs (ofEntered (.ofCall r args (a.depth + 1))
            { m with steps := m.steps + 1 }) :=
          hkeeps.visits (.call rfl hop htarget henter (.refl _))
        have htyped := (Typed.ofCall hwell args (a.depth + 1)
          { m with steps := m.steps + 1 }).accepted hwell (hbody.accepted hreach)
        refine ih _ ?_ htyped hwell hcallee (hbody.visits (visits_of_reaches hreach)) hq rfl
        rw [depth_of_reaches hreach, ← hk]
        show Machine.maxDepth - (a.depth + 1) < Machine.maxDepth - a.depth
        omega

end Point

/-- In an accepted program, a null access has a cause: on the way to it an argument, a loaded value or
the result of a call was not as declared, or a cast gave a value outside its own type. -/
theorem exists_not_accepts_of_nullAccess {p : Program} {cfg : OptConfig} {fs : List Scheduled}
    {ctx : Context} (hp : p.schedule cfg = .ok (fs, ctx))
    (hfs : ∀ f ∈ fs, f.graph.WellFormed ∧ f.graph.Shaped ∧ f.schedule.verify f.graph = .ok ())
    {m m' : Machine} {i : Nat} {args : Array Value} {n : NodeId}
    (hcall : m.call (Scheduled.routines fs) i args = (.error (.nullAccess n), m')) :
    ∃ (f : Scheduled) (q q' : Point) (k : Nat), fs[i]? = some f ∧
      Point.Visits (Scheduled.routines fs) (.ofCall f.toRoutine args 0 m) q ∧
      q.next (Scheduled.routines fs) k = some q' ∧ ¬ q.Accepts q' := by
  have hentry (i : Nat) (r : Routine) (arity : Nat)
      (h : (Scheduled.routines fs).table[i]? = some (r, arity)) :
      ∃ f ∈ fs, fs[i]? = some f ∧ f.toRoutine = r := by
    simp only [Scheduled.routines, Routines.ofList, List.getElem?_toArray, List.map_map,
      List.getElem?_map, Option.map_eq_some_iff] at h
    obtain ⟨f, hf, heq⟩ := h
    exact ⟨f, List.mem_of_getElem? hf, hf, (Prod.mk.inj heq).1⟩
  have hrs : (Scheduled.routines fs).NullChecked := by
    intro i r arity h
    obtain ⟨f, hf, -, rfl⟩ := hentry i r arity h
    obtain ⟨hg, hshape, hverify⟩ := hfs f hf
    have haccepted := Program.accepted_of_schedule hp hf
    obtain ⟨ctx', name, hcheck⟩ := haccepted.checked
    exact ⟨haccepted.wellTyped hg hshape hverify, Graph.accessesNotNull_of_typeCheck hcheck⟩
  unfold Machine.call at hcall
  split at hcall
  case h_2 henter =>
    obtain rfl := Except.error.inj (Prod.mk.inj hcall).1
    exact nomatch Machine.isNullAccess_of_enter henter
  case h_1 a henter =>
    obtain ⟨-, r, arity, hr, rfl⟩ := Machine.enter_spec henter
    obtain ⟨f, -, hget, rfl⟩ := hentry i r arity hr
    obtain ⟨q, hreach, hends⟩ := Point.exists_reaches_exec (Scheduled.routines fs) (m.fuel + 2) m
      (Activation.takePhis_of_first (a := .ofCall f.toRoutine args 0) rfl)
    rw [hcall] at hends
    obtain ⟨hwell, hptr⟩ := hrs i f.toRoutine arity hr
    by_contra hnone
    have hkeeps : Point.Keeps (Scheduled.routines fs) (.ofCall f.toRoutine args 0 m) := by
      intro q q' k hq hnext
      by_contra haccepts
      exact hnone ⟨f, q, q', k, hget, hq, hnext, haccepts⟩
    have htyped := (Point.Typed.ofCall hwell args 0 m).accepted hwell (hkeeps.accepted hreach)
    exact nomatch htyped.isNullAccess_of_ends hrs hwell hptr
      (hkeeps.visits (Point.visits_of_reaches hreach)) hends

/-- `get` ends without a return, though its result is declared not null, and `f` reads a field of the
result. -/
def unsetResult : Program where
  structs := [{ name := "T", fields := [("x", .int)] }]
  functions := [
    { name := "get", params := [], ret := .ref "T" false, body := [] },
    { name := "f", params := [], ret := .int, body := [.ret (.field (.call "get" []) "x")] }]

theorem exists_schedule_unsetResult : ∃ (fs : List Scheduled) (ctx : Context),
    unsetResult.schedule {} = .ok (fs, ctx) ∧
    (∀ f ∈ fs, f.graph.WellFormed ∧ f.graph.Shaped ∧ f.schedule.verify f.graph = .ok ()) ∧
    (({ fuel := 20 } : Machine).call (Scheduled.routines fs) 1 #[]).1 = .error (.nullAccess 12) := by
  obtain ⟨p, hp, hall⟩ := Except.exists_of_any (x := unsetResult.schedule {}) (p := fun p =>
    (∀ f ∈ p.1, f.graph.WellFormed ∧ f.graph.Shaped ∧ f.schedule.verify f.graph = .ok ()) ∧
    (({ fuel := 20 } : Machine).call (Scheduled.routines p.1) 1 #[]).1 = .error (.nullAccess 12))
    (by decide +kernel)
  exact ⟨p.1, p.2, hp, hall⟩

/-- The program is accepted and its call has no arguments, but it accesses null. -/
theorem unsetResult_nullAccess : ∃ (fs : List Scheduled) (ctx : Context),
    unsetResult.schedule {} = .ok (fs, ctx) ∧
    (({ fuel := 20 } : Machine).call (Scheduled.routines fs) 1 #[]).1 = .error (.nullAccess 12) := by
  obtain ⟨fs, ctx, hp, -, hcall⟩ := exists_schedule_unsetResult
  exact ⟨fs, ctx, hp, hcall⟩

/-- The cause is the result of `get`. -/
theorem unsetResult_not_accepts : ∃ (fs : List Scheduled) (f : Scheduled) (q q' : Point) (k : Nat),
    (unsetResult.schedule {}).toOption.map (·.1) = some fs ∧ fs[1]? = some f ∧
    Point.Visits (Scheduled.routines fs) (.ofCall f.toRoutine #[] 0 { fuel := 20 }) q ∧
    q.next (Scheduled.routines fs) k = some q' ∧ ¬ q.Accepts q' := by
  obtain ⟨fs, ctx, hp, hfs, hcall⟩ := exists_schedule_unsetResult
  obtain ⟨f, q, q', k, hf, hq, hnext, haccepts⟩ :=
    exists_not_accepts_of_nullAccess hp hfs (Prod.ext hcall rfl)
  exact ⟨fs, f, q, q', k, by rw [hp]; rfl, hf, hq, hnext, haccepts⟩

end SeaNodes
