import SeaNodes.Graph.Check
import SeaNodes.Proofs.Eval.TypedRun

namespace SeaNodes

namespace Schedule

variable {g : Graph} {s : Schedule}

theorem isRival_self (hg : g.WellFormed) (hs : g.schedule = .ok s) (hverify : s.verify g = .ok ()) :
    s.IsRival s g where
  cfg := rfl
  dom := rfl
  pinned _ _ _ := rfl
  lists := (covers_of_schedule hg hs hverify).runnable.lists
  verify := hverify

end Schedule

namespace Point

/-- The point after `j` moves, as long as what comes from outside or from a cast is as declared. -/
def conformsFor (rs : Routines) : Nat → Point → Option Point
  | 0, p => some p
  | j + 1, p => (p.next rs 0).bind fun q => if p.Declares q then conformsFor rs j q else none

theorem conforms_of_conformsFor {rs : Routines} {p q : Point} (j : Nat)
    (h : p.conformsFor rs j = some q) : Conforms rs p q := by
  induction j generalizing p with
  | zero => exact Option.some.inj h ▸ .refl
  | succ j ih =>
    obtain ⟨r, hnext, hr⟩ := Option.bind_eq_some_iff.mp h
    split_ifs at hr with hdeclares
    exact .head ⟨⟨0, hnext⟩, hdeclares⟩ (ih hr)

end Point

theorem exists_conforms {g : Graph} (args : Array Value) (j : Nat) (test : Schedule → Point → Bool)
    (h : g.schedule.toOption.any (fun s => s.verify g = .ok () ∧
      ((Point.ofCall ⟨g, s⟩ args 0 {}).conformsFor (.ofList [⟨g, s⟩]) j).any (test s)) = true) :
    ∃ s p, g.schedule = .ok s ∧ s.verify g = .ok () ∧
      Point.Conforms (.ofList [⟨g, s⟩]) (.ofCall ⟨g, s⟩ args 0 {}) p ∧ test s p = true := by
  obtain ⟨s, hs, hverify, hany⟩ := Except.exists_of_any h
  obtain ⟨p, hp, htest⟩ := (Option.any_eq_true _ _).mp hany
  exact ⟨s, p, hs, hverify, Point.conforms_of_conformsFor j hp, htest⟩

/-- Runs of an analyzed function keep to its types. -/
theorem analysis_sound {g : Graph} (hg : g.WellFormed) (hshape : g.Shaped) (cfg : OptConfig)
    (hoperands : (g.analyze cfg).graph.OperandsFit) (hcasts : (g.analyze cfg).graph.CastsFit)
    {s s' : Schedule}
    (hs : (g.analyze cfg).graph.schedule = .ok s)
    (hverify : s.verify (g.analyze cfg).graph = .ok ())
    (hs' : s.IsRival s' (g.analyze cfg).graph) {rs : Routines} {args : Array Value} {depth : Nat}
    {m : Machine} {p : Point}
    (hrun : Point.Conforms rs (.ofCall ⟨(g.analyze cfg).graph, s'⟩ args depth m) p) :
    (g.analyze cfg).graph.ty (some (s'.cfg.block p.act.block).head) = .ctrl ∧
    (∀ t v, (s'.cfg.block p.act.block).terminator = some t → (g.analyze cfg).graph.op t = .fork →
      p.act.get ((g.analyze cfg).graph.input t 1) = .ok v →
        ((g.analyze cfg).graph.ty (some t)).permits v.isTruthy) ∧
    ∀ n v, p.act.value n = some v → ((g.analyze cfg).graph.ty (some n)).has v := by
  have hretyped := g.retyped_analyze cfg
  have hanalyzed := Graph.analyzed_analyze hg hshape.phisOnRegions cfg
  have hstart := Graph.ty_start_analyze hg.start_op hg.start_live hshape.start cfg
  have hg' := hg.retyped hretyped
  have hs'' : s'.WellTyped (g.analyze cfg).graph :=
    ⟨(Schedule.covers_of_schedule hg' hs hverify).rival hs', hg',
      hshape.retyped hretyped hstart, hanalyzed, hoperands⟩
  have hsettled (n : NodeId) (hn : n ∈ (g.analyze cfg).graph.live) :=
    Graph.isSettled_analyze hg hshape.phisOnRegions cfg (hretyped.live ▸ hn)
  have htyped := (Point.Typed.ofCall hs'' args depth m).conforms hs'' hcasts hsettled hrun
  exact ⟨htyped.live, fun t v ht hop hget => htyped.permits_of_get hs'' ht hop hget, htyped.has⟩

/-- Counts from 0 up to the argument. -/
def countUp : Graph :=
  let (n, g) := Graph.empty.add (.param 0) #[some Graph.start] .anyInt
  let (first, g) := g.const (.ofInt 0)
  let (one, g) := g.const (.ofInt 1)
  let (loop, g) := g.add .loop #[none, some Graph.start]
  let (i, g) := g.add .phi #[some loop, some first] .anyInt
  let (less, g) := g.add (.cmp .lt) #[none, some i, some n]
  let (sum, g) := g.add (.arith .add) #[none, some i, some one]
  let (fork, g) := g.add .fork #[some loop, some less]
  let (body, g) := g.add (.ctrlProj 0) #[some fork]
  let (done, g) := g.add (.ctrlProj 1) #[some fork]
  let (ret, g) := g.add .ret #[some done, none, some i]
  ((g.pushInput loop (some body)).pushInput i (some sum)).pushInput Graph.stop (some ret)

/-- In the second turn of the loop, with the range of its counter widened, the counter is 1 and the
loop goes on. -/
theorem countUp_sound : ∃ (s : Schedule) (p : Point),
    (countUp.WellFormed ∧ countUp.Shaped ∧ (countUp.analyze {}).graph.OperandsFit ∧
      (countUp.analyze {}).graph.CastsFit) ∧
    (countUp.analyze {}).graph.schedule = .ok s ∧ s.verify (countUp.analyze {}).graph = .ok () ∧
    Point.Conforms (.ofList [⟨(countUp.analyze {}).graph, s⟩])
      (.ofCall ⟨(countUp.analyze {}).graph, s⟩ #[.int 2] 0 {}) p ∧
    (p.act.value 7 = some (.int 1) ∧ (countUp.analyze {}).graph.ty (some 7) = .anyInt) ∧
    ((countUp.analyze {}).graph.ty (some 7)).has (.int 1) ∧
    (countUp.analyze {}).graph.ty (some (s.cfg.block p.act.block).head) = .ctrl := by
  have hcheck : countUp.WellFormed ∧ countUp.Shaped ∧
      (countUp.analyze {}).graph.OperandsFit ∧ (countUp.analyze {}).graph.CastsFit ∧
      (countUp.analyze {}).graph.WellFormed ∧
      (countUp.analyze {}).graph.ty (some 7) = .anyInt := by
    decide +kernel
  obtain ⟨hg, hshape, hoperands, hcasts, hg', hty⟩ := hcheck
  obtain ⟨s, p, hs, hverify, hrun, hvalue⟩ :=
    exists_conforms (g := (countUp.analyze {}).graph) #[.int 2] 16
      (fun _ p => p.act.value 7 = some (.int 1)) (by decide +kernel)
  have hvalue' := of_decide_eq_true hvalue
  obtain ⟨hlive, -, hhas⟩ := analysis_sound hg hshape {} hoperands hcasts hs hverify
    (Schedule.isRival_self hg' hs hverify) hrun
  exact ⟨s, p, ⟨hg, hshape, hoperands, hcasts⟩, hs, hverify, hrun, ⟨hvalue', hty⟩,
    hhas 7 _ hvalue', hlive⟩

/-- A branch on a phi that hangs on a side of another branch. -/
def phiOnSide : Graph :=
  let (x, g) := Graph.empty.add (.param 0) #[some Graph.start] .anyInt
  let (fork, g) := g.add .fork #[some Graph.start, some x]
  let (onTrue, g) := g.add (.ctrlProj 0) #[some fork]
  let (onFalse, g) := g.add (.ctrlProj 1) #[some fork]
  let (phi, g) := g.add .phi #[some onTrue, some x] .anyInt
  let (inner, g) := g.add .fork #[some onTrue, some phi]
  let (innerTrue, g) := g.add (.ctrlProj 0) #[some inner]
  let (innerFalse, g) := g.add (.ctrlProj 1) #[some inner]
  [onFalse, innerTrue, innerFalse].foldl (fun g c =>
    let (ret, g) := g.add .ret #[some c, none, some x]
    g.pushInput Graph.stop (some ret)) g

/-- The use lists are in order, and there are neither casts nor open loops. Still the run enters a block
whose control is not typed live, and the phi has a value though its type has none. -/
theorem exists_run_outside_types : ∃ (s : Schedule) (p : Point),
    (phiOnSide.verify = .ok () ∧
      (∀ n ∈ phiOnSide.live, phiOnSide.op n ≠ .cast ∧ (phiOnSide.node n).inProgress = false) ∧
      (phiOnSide.analyze {}).graph.OperandsFit) ∧
    (phiOnSide.analyze {}).graph.schedule = .ok s ∧
    s.verify (phiOnSide.analyze {}).graph = .ok () ∧
    Point.Conforms (.ofList [⟨(phiOnSide.analyze {}).graph, s⟩])
      (.ofCall ⟨(phiOnSide.analyze {}).graph, s⟩ #[.int 2] 0 {}) p ∧
    (phiOnSide.analyze {}).graph.ty (some (s.cfg.block p.act.block).head) ≠ .ctrl ∧
    p.act.value 7 = some (.int 2) ∧
    ((phiOnSide.analyze {}).graph.ty (some 7)).has (.int 2) = false := by
  have hcheck : phiOnSide.verify = .ok () ∧
      (∀ n ∈ phiOnSide.live, phiOnSide.op n ≠ .cast ∧ (phiOnSide.node n).inProgress = false) ∧
      (phiOnSide.analyze {}).graph.OperandsFit := by
    decide +kernel
  obtain ⟨s, p, hs, hverify, hrun, htest⟩ :=
    exists_conforms (g := (phiOnSide.analyze {}).graph) #[.int 2] 8
      (fun s p =>
        (phiOnSide.analyze {}).graph.ty (some (s.cfg.block p.act.block).head) ≠ .ctrl ∧
        p.act.value 7 = some (.int 2) ∧
        ((phiOnSide.analyze {}).graph.ty (some 7)).has (.int 2) = false) (by decide +kernel)
  exact ⟨s, p, hcheck, hs, hverify, hrun, of_decide_eq_true htest⟩

namespace Ty

variable {t : Ty} {v : Value}

/-- All floats count as true at run time, so a known zero takes the side that its type rules out. -/
theorem permits_branchOn_double (x : Double) :
    (float (some x)).branchOn.permits (Value.float x).isTruthy = !x.isZero := rfl

/-- A branch takes a side that the type of its condition permits, unless the type is that of a zero
float. What a negation gives is a member of its type, so it is what the type says if that is constant. -/
theorem truth_agrees_iff (h : t.has v) :
    (t.branchOn.permits v.isTruthy = true ↔ ¬ ∃ x, t = .float (some x) ∧ x.isZero = true) ∧
      t.not.has (Activation.boolValue !v.isTruthy) = true ∧
      ∀ y, t.not.int? = some y → Activation.boolValue (!v.isTruthy) = .int y := by
  have hnot := has_not h
  refine ⟨?_, hnot, fun y hy => eq_of_int? hy hnot⟩
  cases hdouble : t.double? with
  | none =>
    apply iff_of_true (permits_branchOn h hdouble)
    rintro ⟨x, rfl, -⟩
    cases hdouble
  | some x =>
    obtain rfl : t = .float (some x) := by
      cases t with
      | float y => exact congrArg float hdouble
      | _ => cases hdouble
    obtain rfl : v = .float x := by
      cases v with
      | float y => simpa [has, eq_comm] using h
      | _ => cases h
    rw [permits_branchOn_double]
    simp

/-- A negative number is true, both by the range it is in and when it is run. -/
theorem truth_agrees_iff_negative :
    (int (-8) (-1)).has (.int (-3)) = true ∧
      (int (-8) (-1)).branchOn = .branch true false ∧ (Value.int (-3)).isTruthy = true ∧
      (int (-8) (-1)).branchOn.permits (Value.int (-3)).isTruthy = true ∧
      Activation.boolValue (!(Value.int (-3)).isTruthy) = .int 0 := by
  have hmem : (int (-8) (-1)).has (.int (-3)) = true := by decide
  obtain ⟨hpermits, -, hconst⟩ := truth_agrees_iff hmem
  refine ⟨hmem, by decide, by decide, hpermits.mpr ?_, hconst 0 (by decide)⟩
  rintro ⟨x, hx, -⟩
  cases hx

end Ty

/-- A branch on the float `x`, of which the true side returns one and the false side two. -/
def branchOnFloat (x : Double) : Graph :=
  let (cond, g) := Graph.empty.const (.ofDouble x)
  let (fork, g) := g.add .fork #[some Graph.start, some cond]
  let (onTrue, g) := g.add (.ctrlProj 0) #[some fork]
  let (onFalse, g) := g.add (.ctrlProj 1) #[some fork]
  let (one, g) := g.const (.ofInt 1)
  let (two, g) := g.const (.ofInt 2)
  let (retTrue, g) := g.add .ret #[some onTrue, none, some one]
  let (retFalse, g) := g.add .ret #[some onFalse, none, some two]
  (g.pushInput Graph.stop (some retTrue)).pushInput Graph.stop (some retFalse)

/-- The type of a zero leaves the false side only, and the true side runs. -/
theorem branchOnFloat_zero_takes_true :
    (Ty.float (some Double.zero)).has (.float Double.zero) = true ∧
      (Ty.float (some Double.zero)).branchOn = .branch false true ∧
      (Ty.float (some Double.zero)).branchOn.permits (Value.float Double.zero).isTruthy = false ∧
      ∃ s : Schedule, (branchOnFloat .zero).verify = .ok () ∧
        (branchOnFloat .zero).schedule = .ok s ∧ s.verify (branchOnFloat .zero) = .ok () ∧
        (({ fuel := 20 } : Machine).call (.ofList [⟨branchOnFloat .zero, s⟩]) 0 #[]).1 =
          .ok (.int 1) := by
  have hrun : ((branchOnFloat .zero).schedule.toOption.any fun s =>
      decide (s.verify (branchOnFloat .zero) = .ok () ∧
        (({ fuel := 20 } : Machine).call (.ofList [⟨branchOnFloat .zero, s⟩]) 0 #[]).1 =
          .ok (.int 1))) = true := by
    decide +kernel
  obtain ⟨s, hs, hcheck, hresult⟩ := Except.exists_of_any hrun
  exact ⟨by decide, by decide, by decide, s, by decide +kernel, hs, hcheck, hresult⟩

end SeaNodes
