import SeaNodes.Proofs.Schedule.Rivals
import SeaNodes.Scheduled

namespace SeaNodes

namespace Schedule

variable {g : Graph} {s s' : Schedule} {a a' : Activation} {b : BlockId} {v : Value}

theorem Runnable.runsPure (hs : s.Runnable g) (hg : g.IsPure) (hroutine : a.routine = ⟨g, s⟩)
    (hlt : ∀ a₁, a.takePhis = .ok a₁ → a.block < s.cfg.size) : a.RunsPure := by
  intro a₁ htake n hn
  have hsame := Activation.sameCall_takePhis htake
  have hgraph : a₁.graph = g := congrArg Routine.graph (hsame.routine.trans hroutine)
  rw [hsame.routine, hroutine, hsame.block] at hn
  rw [hgraph]
  rw [Bool.eq_false_iff]
  intro heffect
  have hlive := ((hs.lists.mem _ (hlt a₁ htake) n (Op.isCode_of_hasEffect heffect)).mp hn).1
  exact absurd (hg n hlive) (by simp [Op.isStateful_of_hasEffect heffect])

theorem lt_of_takePhis_goTo {a₁ : Activation} (hroutine : a.routine = ⟨g, s⟩)
    (htake : (a.goTo b).takePhis = .ok a₁) : b < s.cfg.size := by
  obtain ⟨j, hj, -⟩ := Activation.takePhis_spec (a := a.goTo b) rfl htake
  rw [show (a.goTo b).routine = ⟨g, s⟩ from hroutine] at hj
  exact Cfg.lt_size_of_mem_preds (List.mem_of_getElem? (Activation.getElem?_of_idxOf? hj))

theorem Starting.runsPure (hr : Rivals g s s') (h : Starting g s s' a a') :
    a.RunsPure ∧ a'.RunsPure := by
  cases h with
  | entry args depth =>
    exact ⟨hr.runnable.runsPure hr.isPure rfl fun _ _ => hr.runnable.entry,
      hr.runnable'.runsPure hr.isPure rfl fun _ _ => hr.runnable'.entry⟩
  | @next a a' h b =>
    have hroutine := h.agree.settled.routine
    have hroutine' := h.agree.settled'.routine
    exact ⟨hr.runnable.runsPure hr.isPure hroutine fun _ => lt_of_takePhis_goTo hroutine,
      hr.runnable'.runsPure hr.isPure hroutine' fun _ => lt_of_takePhis_goTo hroutine'⟩

/-- How a run ends where a run under the other schedule returned `v`. -/
def Transparent (g : Graph) (s s' : Schedule) (v : Value) (r : Except EvalError Value) : Prop :=
  r = .ok v ∨ ∃ n e, r = .error e ∧ s.Hoists s' g n ∧ e.IsAt g n

/-- A run that returns has a partner that comes through the same blocks; the sum of their lengths is
fuel enough for it. -/
theorem Starting.exec (rs : Routines) (hr : Rivals g s s') {rs' : Routines} (k : Nat) {m' : Machine}
    (h : Starting g s s' a a') (hv : (Machine.exec rs' k a' m').1 = .ok v) :
    ∃ blocks nodes, ∀ l ≥ blocks, ∀ m : Machine, m.steps + nodes ≤ m.fuel →
      Transparent g s s' v (Machine.exec rs l a m).1 := by
  induction k generalizing a a' m' with
  | zero => exact nomatch hv
  | succ k ih =>
    -- block by block, as long as this run comes through them without an error
    obtain ⟨hpure, hpure'⟩ := h.runsPure hr
    obtain ⟨k', a₁', hk, hrun', hleave'⟩ := Machine.runBlock_of_exec hpure' hv
    obtain rfl : k = k' := Nat.succ.inj hk
    have hsucc (l : Nat) (hl : l ≥ 1) : ∃ l', l = l' + 1 := ⟨l - 1, by omega⟩
    rcases h.runBlock hr hrun' with ⟨a₁, hrun, hfinished⟩ | ⟨n, e, hrun, hhoists, hat⟩
    · obtain ⟨rest, hwalk⟩ := hfinished.walk
      have hleave {x : BlockId ⊕ Value} (hx : a₁'.leave = .ok x) : a₁.leave = .ok x :=
        hfinished.agree.leave hr hwalk rfl hfinished.block hx
      rcases hleave' with hreturn | ⟨b, m₁, hjump, hrest⟩
      · refine ⟨1, (a.routine.schedule.nodes a.block).length, fun l hl m hfuel => ?_⟩
        obtain ⟨l, rfl⟩ := hsucc l hl
        exact .inl (((Machine.exec_of_fuel rs l hpure hfuel).2 a₁ hrun).1 v (hleave hreturn))
      · obtain ⟨blocks, nodes, hih⟩ := ih (.next hfinished b) hrest
        refine ⟨blocks + 1, (a.routine.schedule.nodes a.block).length + nodes,
          fun l hl m hfuel => ?_⟩
        obtain ⟨l, rfl⟩ := hsucc l (by omega)
        obtain ⟨steps, hsteps, heq⟩ := ((Machine.exec_of_fuel rs l hpure
          (show m.steps + (a.routine.schedule.nodes a.block).length ≤ m.fuel by omega)).2 a₁
            hrun).2 b (hleave hjump)
        rw [heq]
        exact hih l (by omega) { m with steps } (by dsimp only; omega)
    · refine ⟨1, (a.routine.schedule.nodes a.block).length, fun l hl m hfuel => ?_⟩
      obtain ⟨l, rfl⟩ := hsucc l hl
      exact .inr ⟨n, e, (Machine.exec_of_fuel rs l hpure hfuel).1 e hrun, hhoists, hat⟩

/-- Another schedule over the same blocks: pinned nodes are in the same places, floating nodes may be
elsewhere, and it passes the check. -/
structure IsRival (s s' : Schedule) (g : Graph) : Prop where
  cfg : s'.cfg = s.cfg
  dom : s'.dom = s.dom
  pinned : ∀ n ∈ g.live, g.floats n = false → s'.blockOf.get n = s.blockOf.get n
  lists : s'.Lists g
  verify : s'.verify g = .ok ()

theorem isCfg_of_terminator (h : s.cfg.Built g) {t : NodeId}
    (ht : t ∈ (s.cfg.block b).terminator) : (g.op t).isCfg ∧ g.op t ≠ .stop ∧ g.op t ≠ .dead := by
  rcases (h.chained.terminator b t ht).2 with hop | hop <;> simp [hop, Op.isCfg]

theorem runnable_of_schedule (hg : g.WellFormed) (hs : g.schedule = .ok s)
    (hverify : s.verify g = .ok ()) : s.Runnable g := by
  obtain ⟨c, hc, hof⟩ := ofGraph_of_schedule hs
  have hbuilt := hof.built hg hc
  refine ⟨hverify, hof.lists hg hbuilt, fun _ _ => hof.dominates hg hc, hbuilt.entry_lt,
    fun b t ht => ?_⟩
  have hlast := (hbuilt.chained.terminator b t ht).1
  have hlive := hbuilt.chained.live b t (List.mem_of_getLast? hlast)
  obtain ⟨hcfg, hstop, hdead⟩ := isCfg_of_terminator hbuilt ht
  exact ⟨hlive, by rw [(hof.pinned.ctrl t hlive hcfg hstop hdead).2, hbuilt.blockOf_terminator ht]⟩

theorem IsRival.runnable (hs' : s.IsRival s' g) (h : s.Runnable g) (hbuilt : s.cfg.Built g) :
    s'.Runnable g := by
  refine ⟨hs'.verify, hs'.lists, ?_, hs'.cfg ▸ h.entry, fun b t ht => ?_⟩
  · rw [hs'.cfg, hs'.dom]
    exact h.dom
  · rw [hs'.cfg] at ht
    obtain ⟨hlive, hplaced⟩ := h.terminator b t ht
    have hfloats := floats_eq_false_of_isCfg (isCfg_of_terminator hbuilt ht).1
    exact ⟨hlive, (hs'.pinned t hlive hfloats).trans hplaced⟩

theorem rivals_of_schedule (hg : g.WellFormed) (hpure : g.IsPure) (hs : g.schedule = .ok s)
    (hverify : s.verify g = .ok ()) (hs' : s.IsRival s' g) : Rivals g s s' := by
  obtain ⟨c, hc, hof⟩ := ofGraph_of_schedule hs
  have hrunnable := runnable_of_schedule hg hs hverify
  exact ⟨hpure, hrunnable, hs'.runnable hrunnable (hof.built hg hc), hs'.cfg, hs'.dom, hs'.pinned,
    hof.floats⟩

end Schedule

/-- Entering the only function of a program fails in the same way whatever its schedule is. -/
theorem Machine.call_singleton (g : Graph) (s : Schedule) (m : Machine) (args : Array Value) :
    m.call (.ofList [⟨g, s⟩]) 0 args =
      if args.size < g.arity then (.error (.arity 0 g.arity args.size), m)
      else exec (.ofList [⟨g, s⟩]) (m.fuel + 2) (.ofCall ⟨g, s⟩ args 0) m := by
  have hentry : (Routines.ofList [⟨g, s⟩]).table[0]? = some (⟨g, s⟩, g.arity) := rfl
  unfold call enter
  rw [if_neg (by decide), hentry]
  dsimp only
  split_ifs <;> rfl

/-- If a run under another schedule returns, then with enough fuel so does a run under the schedule of
the graph, unless it stops at a node that was hoisted above the branch that guards it. -/
theorem transparent_of_schedule {g : Graph} {s s' : Schedule} (hg : g.WellFormed) (hpure : g.IsPure)
    (hs : g.schedule = .ok s) (hverify : s.verify g = .ok ()) (hs' : s.IsRival s' g)
    (args : Array Value) (v : Value) (fuel' : Nat)
    (hv : (({ fuel := fuel' } : Machine).call (.ofList [⟨g, s'⟩]) 0 args).1 = .ok v) :
    ∃ enough, ∀ fuel ≥ enough,
      s.Transparent g s' v (({ fuel } : Machine).call (.ofList [⟨g, s⟩]) 0 args).1 := by
  rw [Machine.call_singleton] at hv
  split_ifs at hv with harity
  obtain ⟨blocks, nodes, hexec⟩ :=
    Schedule.Starting.exec (.ofList [⟨g, s⟩]) (Schedule.rivals_of_schedule hg hpure hs hverify hs') _
      (.entry args 0) hv
  refine ⟨max blocks nodes, fun fuel hfuel => ?_⟩
  rw [Machine.call_singleton, if_neg harity]
  have hnodes : ({ fuel } : Machine).steps + nodes ≤ ({ fuel } : Machine).fuel := by
    show 0 + nodes ≤ fuel
    omega
  exact hexec (fuel + 2) (by omega) _ hnodes

/-- While `n` is not zero, it is set to `a / d`. -/
def loopDivision : FunctionDecl where
  name := "f"
  params := [("a", .int), ("d", .int), ("n", .int)]
  ret := .int
  body := [.loop (.var "n") [.assign "n" (.binary .div (.var "a") (.var "d"))], .ret (.var "n")]

theorem Scheduled.exists_ofDecl {cfg : OptConfig} {ctx ctx' : Context} {ds : List FunctionDecl}
    {fs : List Scheduled} {f : Scheduled} (h : ofDecls cfg ctx ds = .ok (fs, ctx')) (hf : f ∈ fs) :
    ∃ ctx d ctx', ofDecl cfg ctx d = .ok (f, ctx') := by
  induction ds generalizing ctx ctx' fs with
  | nil =>
    obtain ⟨rfl, -⟩ := Prod.mk.inj (Except.ok.inj h)
    exact absurd hf List.not_mem_nil
  | cons d ds ih =>
    obtain ⟨⟨f₁, ctx₁⟩, hdecl, h⟩ := Except.bind_eq_ok h
    obtain ⟨⟨rest, ctx₂⟩, hrest, h⟩ := Except.bind_eq_ok h
    obtain ⟨rfl, -⟩ := Prod.mk.inj (Except.ok.inj h)
    rcases List.mem_cons.mp hf with rfl | hf
    · exact ⟨ctx, d, ctx₁, hdecl⟩
    · exact ih hrest hf

theorem Scheduled.ofDecl_spec {cfg : OptConfig} {ctx ctx' : Context} {d : FunctionDecl}
    {f : Scheduled} (h : ofDecl cfg ctx d = .ok (f, ctx')) :
    ∃ g, (ctx.buildFunction d).1 = .ok g ∧ (g.optimize cfg).1 = .ok () ∧
      f.graph = (g.optimize cfg).2.graph ∧ f.graph.typeCheck ctx' d.name = .ok () ∧
      f.graph.schedule = .ok f.schedule := by
  unfold ofDecl at h
  obtain ⟨g, hg, h⟩ := Except.bind_eq_ok h
  obtain ⟨⟨⟩, hsettled, h⟩ := Except.bind_eq_ok h
  obtain ⟨⟨⟩, hcheck, h⟩ := Except.bind_eq_ok h
  obtain ⟨s, hs, h⟩ := Except.bind_eq_ok h
  split at h
  · obtain ⟨rfl, rfl⟩ := Prod.mk.inj (Except.ok.inj h)
    exact ⟨g, hg, hsettled, rfl, hcheck, hs⟩
  · exact nomatch h

theorem Scheduled.schedule_of_ofDecls {cfg : OptConfig} {ctx ctx' : Context}
    {ds : List FunctionDecl} {fs : List Scheduled} {f : Scheduled}
    (h : ofDecls cfg ctx ds = .ok (fs, ctx')) (hf : f ∈ fs) : f.graph.schedule = .ok f.schedule := by
  obtain ⟨ctx, d, ctx', hdecl⟩ := exists_ofDecl h hf
  obtain ⟨g, -, -, -, -, hs⟩ := ofDecl_spec hdecl
  exact hs

def Schedule.sink (s : Schedule) (n : NodeId) (b d : BlockId) : Schedule :=
  { s with
    blockOf := s.blockOf.set n (some d)
    order := (s.order.set b ((s.nodes b).erase n)).set d (s.nodes d ++ [n]) }

/-- A schedule that divides before the loop, and another that divides in it. -/
def Scheduled.DividesEarly (f : Scheduled) : Prop :=
  let s' := f.schedule.sink 17 0 2
  (f.graph.WellFormed ∧ f.graph.IsPure ∧ f.schedule.verify f.graph = .ok ()) ∧
  ((∀ n ∈ f.graph.live, f.graph.floats n = false → s'.blockOf.get n = f.schedule.blockOf.get n) ∧
    s'.Lists f.graph ∧ s'.verify f.graph = .ok ()) ∧
  (({ fuel := 10 } : Machine).call (.ofList [⟨f.graph, s'⟩]) 0 #[.int 6, .int 0, .int 0]).1 =
    .ok (.int 0) ∧
  (f.schedule.nodes Cfg.entry).length = 6 ∧
  (Activation.ofCall f.toRoutine #[.int 6, .int 0, .int 0] 0).runBlock.map (fun _ => ()) =
    .error (.divisionByZero 17)

instance (f : Scheduled) : Decidable f.DividesEarly :=
  inferInstanceAs (Decidable ((_ ∧ _ ∧ _) ∧ (_ ∧ _ ∧ _) ∧ _ ∧ _ ∧ _))

theorem exists_dividesEarly : ∃ (f : Scheduled) (ctx : Context),
    ({ functions := [loopDivision] } : Program).schedule {} = .ok ([f], ctx) ∧
      f.graph.schedule = .ok f.schedule ∧ f.DividesEarly := by
  have hall : (({ functions := [loopDivision] } : Program).schedule {}).toOption.any (fun p =>
      p.1.length = 1 ∧ ∀ f ∈ p.1, f.DividesEarly) = true := by
    decide +kernel
  cases hp : ({ functions := [loopDivision] } : Program).schedule {} with
  | error e =>
    rw [hp] at hall
    exact nomatch hall
  | ok p =>
    rw [hp] at hall
    obtain ⟨hlength, hf⟩ := of_decide_eq_true (p := _ ∧ _) hall
    obtain ⟨f, hfs⟩ := List.length_eq_one_iff.mp hlength
    have hmem : f ∈ p.1 := hfs ▸ List.mem_singleton_self f
    obtain ⟨ctx, -, hdecls⟩ := Except.bind_eq_ok hp
    exact ⟨f, p.2, congrArg Except.ok (Prod.ext hfs rfl), Scheduled.schedule_of_ofDecls hdecls hmem,
      hf f hmem⟩

theorem Scheduled.DividesEarly.isRival {f : Scheduled} (h : f.DividesEarly) :
    f.schedule.IsRival (f.schedule.sink 17 0 2) f.graph := by
  obtain ⟨-, ⟨hpinned, hlists, hverify⟩, -⟩ := h
  exact ⟨rfl, rfl, hpinned, hlists, hverify⟩

/-- The program is accepted, and its graph has no effects. Another schedule returns where the schedule
of the graph divides by zero. -/
theorem loopDivision_not_transparent : ∃ (f : Scheduled) (ctx : Context) (s' : Schedule),
    ({ functions := [loopDivision] } : Program).schedule {} = .ok ([f], ctx) ∧
    f.graph.IsPure ∧ f.graph.schedule = .ok f.schedule ∧
    f.schedule.verify f.graph = .ok () ∧ f.schedule.IsRival s' f.graph ∧
    (({ fuel := 10 } : Machine).call (.ofList [⟨f.graph, s'⟩]) 0 #[.int 6, .int 0, .int 0]).1 =
      .ok (.int 0) ∧
    ∀ fuel ≥ 6, (({ fuel } : Machine).call (.ofList [⟨f.graph, f.schedule⟩]) 0
      #[.int 6, .int 0, .int 0]).1 = .error (.divisionByZero 17) := by
  obtain ⟨f, ctx, hp, hs, hf⟩ := exists_dividesEarly
  obtain ⟨⟨hg, hpure, hverify⟩, -, hreturns, hlength, hstops⟩ := id hf
  refine ⟨f, ctx, f.schedule.sink 17 0 2, hp, hpure, hs, hverify, hf.isRival, hreturns,
    fun fuel hfuel => ?_⟩
  rw [Machine.call_singleton] at hreturns ⊢
  split_ifs at hreturns ⊢
  have hrun : (Activation.ofCall ⟨f.graph, f.schedule⟩ #[.int 6, .int 0, .int 0] 0).RunsPure :=
    (Schedule.Starting.runsPure (Schedule.rivals_of_schedule hg hpure hs hverify hf.isRival)
      (.entry _ 0)).1
  refine (Machine.exec_of_fuel _ (fuel + 1) hrun ?_).1 _ ?_
  · show 0 + (f.schedule.nodes Cfg.entry).length ≤ fuel
    omega
  · cases hblock : (Activation.ofCall f.toRoutine #[.int 6, .int 0, .int 0] 0).runBlock with
    | error e =>
      rw [hblock] at hstops
      exact congrArg Except.error (Except.error.inj hstops)
    | ok a =>
      rw [hblock] at hstops
      exact nomatch hstops

/-- The division by zero is at a node that was hoisted. -/
theorem loopDivision_transparent : ∃ (f : Scheduled) (enough : Nat),
    f.graph.schedule = .ok f.schedule ∧ ∀ fuel ≥ enough,
      f.schedule.Transparent f.graph (f.schedule.sink 17 0 2) (.int 0)
        (({ fuel } : Machine).call (.ofList [⟨f.graph, f.schedule⟩]) 0
          #[.int 6, .int 0, .int 0]).1 := by
  obtain ⟨f, ctx, hp, hs, hf⟩ := exists_dividesEarly
  obtain ⟨⟨hg, hpure, hverify⟩, -, hreturns, -⟩ := id hf
  obtain ⟨enough, h⟩ := transparent_of_schedule hg hpure hs hverify hf.isRival _ _ _ hreturns
  exact ⟨f, enough, hs, h⟩

end SeaNodes
