import SeaNodes.Proofs.Lattice.Order
import SeaNodes.Proofs.Opt.PostFixpoint

namespace SeaNodes

namespace RoundTrace

/-- The types that one node went through never went up. -/
def Falls (seq : Array Ty) : Prop := seq.toList.IsChain fun a b => b.le a

variable {t : RoundTrace} {n m : NodeId} {old new : Ty}

theorem any_zip_drop_eq_false {l : List Ty} (h : l.IsChain fun a b => b.le a) :
    ((l.zip (l.drop 1)).any fun (a, b) => !b.le a) = false := by
  induction l with
  | nil => rfl
  | cons a l ih =>
    cases l with
    | nil => rfl
    | cons b l =>
      rw [List.isChain_cons_cons] at h
      rw [List.drop_one, List.tail_cons, List.zip_cons_cons, List.any_cons]
      dsimp only
      rw [h.1]
      exact ih h.2

theorem regressed_eq_false (h : ∀ n, Falls (t.get n)) : t.regressed = false := by
  rw [regressed, Array.any_eq_false']
  intro seq hseq
  obtain ⟨i, hi, rfl⟩ := Array.mem_iff_getElem.mp hseq
  have hfalls := h i
  rw [SideTable.get, Array.getD_eq_getD_getElem?, Array.getElem?_eq_getElem hi,
    Option.getD_some] at hfalls
  rw [any_zip_drop_eq_false hfalls]
  exact Bool.false_ne_true

theorem get_record : (t.record n old new).get m =
    if n = m then
      if (t.get m).isEmpty then #[old, new] else (t.get m).push new
    else t.get m :=
  SideTable.get_modify ..

theorem Falls.record {seq : Array Ty} (h : Falls seq) (hlast : ∀ t ∈ seq.back?, t = old)
    (hle : new ≤ old) : Falls (if seq.isEmpty then #[old, new] else seq.push new) := by
  split_ifs with hempty
  · exact List.isChain_cons_cons.mpr ⟨hle, List.isChain_singleton _⟩
  · rw [Falls, Array.toList_push]
    refine List.isChain_append.mpr ⟨h, List.isChain_singleton _, fun x hx y hy => ?_⟩
    rw [Array.getLast?_toList] at hx
    rw [hlast x hx]
    obtain rfl : new = y := by simpa using hy
    exact hle

end RoundTrace

namespace Analysis

variable {cfg : OptConfig} {g : Graph} {a : Analysis} {n m : NodeId} {t : Ty} {w : Worklist}

/-- Visits the next waiting node. -/
def step (cfg : OptConfig) (a : Analysis) : Analysis :=
  match a.work.pop? with
  | none => a
  | some (n, work) => { a with work }.visit cfg n

theorem run_eq_iterate (cfg : OptConfig) (k : Nat) (a : Analysis) :
    run cfg k a = (step cfg)^[k] a := by
  induction k generalizing a with
  | zero => rfl
  | succ k ih =>
    rw [run, Function.iterate_succ_apply]
    cases hpop : a.work.pop? with
    | none =>
      have hstep : step cfg a = a := by rw [step, hpop]
      rw [hstep, Function.iterate_fixed hstep]
    | some p =>
      have hstep : step cfg a = { a with work := p.2 }.visit cfg p.1 := by rw [step, hpop]
      rw [hstep]
      exact ih _

theorem run_succ (cfg : OptConfig) (k : Nat) (a : Analysis) :
    run cfg (k + 1) a = step cfg (run cfg k a) := by
  rw [run_eq_iterate, run_eq_iterate, Function.iterate_succ_apply']

theorem run_add_of_empty (h : (run cfg m a).work.pop? = none) (k : Nat) :
    run cfg (m + k) a = run cfg m a := by
  induction k with
  | zero => rfl
  | succ k ih => rw [← Nat.add_assoc, run_succ, ih, step, h]

theorem run_eq_of_empty (h : (run cfg m a).work.pop? = none) {k : Nat} (hk : m ≤ k) :
    run cfg k a = run cfg m a := by
  rw [← Nat.add_sub_cancel' hk]
  exact run_add_of_empty h _

theorem Lowers.le (h : Lowers g n t) : t ≤ g.ty (some n) := by
  cases h with
  | meet => exact inf_le_left
  | widen hphi hint => exact (Ty.anyInt_le hint).trans inf_le_left

theorem ty_visit_le (cfg : OptConfig) (a : Analysis) (n m : NodeId) :
    (a.visit cfg n).graph.ty (some m) ≤ a.graph.ty (some m) := by
  rcases visit_cases cfg a n with ⟨hsame, -⟩ | ⟨t, -, -, hlowers, hgraph, -, -⟩
  · rw [hsame]
  · rw [hgraph, Graph.ty, Graph.node_setTy]
    split_ifs with hmn
    · rw [← hmn.1]
      exact hlowers.le
    · exact le_rfl

theorem ty_step_le (cfg : OptConfig) (a : Analysis) (n : NodeId) :
    (a.step cfg).graph.ty (some n) ≤ a.graph.ty (some n) := by
  unfold step
  split
  · exact le_rfl
  · exact ty_visit_le ..

/-- The recorded types of a node never went up, and the last one is that of the node. -/
def Tracked (cfg : OptConfig) (a : Analysis) : Prop :=
  ∀ n, RoundTrace.Falls (a.trace.get n) ∧
    (cfg.traceTypes → ∀ t ∈ (a.trace.get n).back?, t = a.graph.ty (some n))

theorem Tracked.visit (h : a.Tracked cfg) (hn : n < a.graph.size) : (a.visit cfg n).Tracked cfg := by
  rcases visit_cases cfg a n with ⟨hsame, -⟩ | ⟨t, -, -, hlowers, hgraph, -, htrace⟩
  · rwa [hsame]
  · intro m
    rw [hgraph, htrace]
    by_cases hcfg : cfg.traceTypes
    · rw [if_pos hcfg, RoundTrace.get_record]
      by_cases hnm : n = m
      · subst hnm
        rw [if_pos rfl, Graph.ty_setTy_self hn]
        refine ⟨(h n).1.record ((h n).2 hcfg) hlowers.le, fun _ t' ht' => ?_⟩
        split_ifs at ht'
        · simpa using ht'.symm
        · simpa using ht'.symm
      · rw [if_neg hnm, Graph.ty_setTy_of_ne fun heq => hnm (Option.some.inj heq).symm]
        exact h m
    · rw [if_neg hcfg]
      exact ⟨(h m).1, fun htrue => absurd htrue hcfg⟩

end Analysis

namespace Graph

variable {g : Graph} {n : NodeId}

theorem tracked_start (g : Graph) (cfg : OptConfig) : g.analysisStart.Tracked cfg := by
  intro n
  have hempty : g.analysisStart.trace.get n = #[] := rfl
  rw [hempty]
  exact ⟨List.isChain_nil, fun _ t ht => nomatch ht⟩

/-- Along the whole analysis, nodes that do not wait are at rest and the trace is that of the
types. -/
theorem Analyzable.settling_run (hg : g.Analyzable) (cfg : OptConfig) (k : Nat) :
    (Analysis.run cfg k g.analysisStart).Settling g ∧
      (Analysis.run cfg k g.analysisStart).Tracked cfg := by
  induction k with
  | zero => exact ⟨g.settling_start, g.tracked_start cfg⟩
  | succ k ih =>
    rw [Analysis.run_succ]
    unfold Analysis.step
    split
    case h_1 => exact ih
    case h_2 n w hpop =>
      obtain ⟨hlist, -⟩ := ih.1.work.pop? hpop
      have hn : n < (Analysis.run cfg k g.analysisStart).graph.size := by
        rw [ih.1.retyped.size]
        exact ih.1.waiting n (by rw [hlist]; exact List.mem_cons_self)
      have htracked : Analysis.Tracked cfg
          { Analysis.run cfg k g.analysisStart with work := w } := ih.2
      exact ⟨(ih.1.visit cfg hg hpop).1, htracked.visit hn⟩

/-- The analysis ends: more visits change nothing. Until then types only go down, also the recorded
ones, and in the end no visit of a live node would change its type. -/
theorem analyze_reaches_fixedPoint (hg : g.Analyzable) (cfg : OptConfig) :
    (g.analyze cfg).work.toList = [] ∧
      (∀ k, Analysis.fuel g.resetTypes ≤ k → Analysis.run cfg k g.analysisStart = g.analyze cfg) ∧
      (∀ k n, ((Analysis.run cfg (k + 1) g.analysisStart).graph.ty (some n)).le
        ((Analysis.run cfg k g.analysisStart).graph.ty (some n))) ∧
      (g.analyze cfg).trace.regressed = false ∧
      ∀ n ∈ g.live, ((g.analyze cfg).graph.ty (some n)).meet ((g.analyze cfg).graph.settledType n) =
        (g.analyze cfg).graph.ty (some n) := by
  obtain ⟨hend, hempty⟩ := hg.analyze cfg
  refine ⟨hempty, fun k hk => ?_, fun k n => ?_, ?_, fun n hn => ?_⟩
  · refine Analysis.run_eq_of_empty ?_ hk
    cases hpop : (Analysis.run cfg (Analysis.fuel g.resetTypes) g.analysisStart).work.pop? with
    | none => rfl
    | some p =>
      obtain ⟨hlist, -⟩ := hend.work.pop? hpop
      rw [hempty] at hlist
      exact nomatch hlist
  · rw [Analysis.run_succ]
    exact Analysis.ty_step_le ..
  · exact RoundTrace.regressed_eq_false fun n => ((hg.settling_run cfg _).2 n).1
  · refine hend.atRest n hn ?_
    rw [hempty]
    exact List.not_mem_nil

def counting : Graph :=
  let (low, g) := empty.const (.ofInt 0)
  let (one, g) := g.const (.ofInt 1)
  let (ten, g) := g.const (.ofInt 10)
  let (loop, g) := g.add .loop #[none, some start]
  let (count, g) := g.add .phi #[some loop, some low] .anyInt
  let (below, g) := g.add (.cmp .lt) #[none, some count, some ten]
  let (fork, g) := g.add .fork #[some loop, some below]
  let (again, g) := g.add (.ctrlProj 0) #[some fork]
  let (done, g) := g.add (.ctrlProj 1) #[some fork]
  let (next, g) := g.add (.arith .add) #[none, some count, some one]
  let (ret, g) := g.add .ret #[some done, none, some count]
  ((g.pushInput loop (some again)).pushInput count (some next)).pushInput stop (some ret)

/-- The counter takes two ranges before it is widened. -/
theorem analyze_reaches_fixedPoint_counting :
    (counting.analyze { traceTypes := true }).trace.get 7 =
        #[.top, .ofInt 0, .int 0 1, .anyInt] ∧
      (counting.analyze { traceTypes := true }).work.toList = [] ∧
      (counting.analyze { traceTypes := true }).trace.regressed = false ∧
      ∀ n ∈ counting.live, ((counting.analyze { traceTypes := true }).graph.ty (some n)).meet
          ((counting.analyze { traceTypes := true }).graph.settledType n) =
        (counting.analyze { traceTypes := true }).graph.ty (some n) := by
  have hwf : counting.WellFormed := by decide +kernel
  have hg : counting.Analyzable := ⟨hwf.verified, hwf.dead_inputs, by decide +kernel⟩
  obtain ⟨hempty, -, -, htrace, hrest⟩ := analyze_reaches_fixedPoint hg { traceTypes := true }
  have hrun : Analysis.run { traceTypes := true } (Analysis.fuel counting.resetTypes)
      counting.analysisStart = Analysis.run { traceTypes := true } 60 counting.analysisStart :=
    Analysis.run_eq_of_empty (by decide +kernel) (by decide +kernel)
  refine ⟨?_, hempty, htrace, hrest⟩
  rw [analyze_eq_run, hrun]
  decide +kernel

/-- A phi on a call: the later of the call's inputs gets its control after the phi was visited. -/
def strayPhi : Graph :=
  let (call, g) := empty.add .call #[some start, some start, some start, none]
  let (low, g) := g.const (.ofInt 0)
  let (one, g) := g.const (.ofInt 1)
  let (two, g) := g.const (.ofInt 2)
  let (phi, g) := g.add .phi #[some call, some low, some one, some two] .anyInt
  let (late, g) := g.add .call #[some start]
  let g := g.setInput call 3 (some late)
  let (ret, g) := g.add .ret #[some late, none, some phi]
  g.pushInput stop (some ret)

/-- Calls do not pass changes on to phis, so that a visit would still change this one. -/
theorem strayPhi_pending : strayPhi.WellFormed ∧ 7 ∈ strayPhi.live ∧
    (strayPhi.analyze {}).graph.ty (some 7) = .int 0 1 ∧
    ((strayPhi.analyze {}).graph.ty (some 7)).meet ((strayPhi.analyze {}).graph.settledType 7) =
      .int 0 2 := by
  have hrun : Analysis.run {} (Analysis.fuel strayPhi.resetTypes) strayPhi.analysisStart =
      Analysis.run {} 30 strayPhi.analysisStart :=
    Analysis.run_eq_of_empty (by decide +kernel) (by decide +kernel)
  rw [analyze_eq_run, hrun]
  exact ⟨by decide +kernel, by decide +kernel, by decide +kernel, by decide +kernel⟩

end Graph

end SeaNodes
