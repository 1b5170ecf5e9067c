import SeaNodes.Proofs.Eval.TypedRun
import SeaNodes.Proofs.Opt.LastRound

namespace SeaNodes

variable {g : Graph} {s : Schedule} {n : NodeId}

/-- What makes a function accepted. -/
structure Scheduled.Accepted (f : Scheduled) : Prop where
  optimal : f.graph.Optimal
  checked : ∃ ctx name, f.graph.typeCheck ctx name = .ok ()
  schedule : f.graph.schedule = .ok f.schedule

theorem Graph.optimal_of_optimize {cfg : OptConfig} (h : (g.optimize cfg).1 = .ok ()) :
    (g.optimize cfg).2.graph.Optimal := by
  have hsettled : (Optimized.rounds cfg cfg.maxRounds { graph := g }).1 = true := by
    unfold optimize at h
    dsimp only at h
    split_ifs at h with hsettled
    exact hsettled
  exact optimal_of_rounds cfg cfg.maxRounds { graph := g } hsettled

theorem Program.accepted_of_schedule {p : Program} {cfg : OptConfig} {fs : List Scheduled}
    {ctx : Context} (h : p.schedule cfg = .ok (fs, ctx)) {f : Scheduled} (hf : f ∈ fs) :
    f.Accepted := by
  obtain ⟨ctx₀, -, hdecls⟩ := Except.bind_eq_ok h
  obtain ⟨ctx₁, d, ctx₂, hdecl⟩ := Scheduled.exists_ofDecl hdecls hf
  obtain ⟨g, -, hsettled, hgraph, hcheck, hs⟩ := Scheduled.ofDecl_spec hdecl
  refine ⟨?_, ⟨ctx₂, d.name, hcheck⟩, hs⟩
  rw [hgraph]
  exact Graph.optimal_of_optimize hsettled

namespace Graph

theorem nodeFault?_of_typeCheck {ctx : Context} {name : String}
    (h : g.typeCheck ctx name = .ok ()) :
    (g.inputs stop).isEmpty = false ∧ ∀ n ∈ g.live, g.nodeFault? ctx n = none := by
  unfold typeCheck at h
  split_ifs at h with hreturns
  refine ⟨Bool.eq_false_of_not_eq_true hreturns, ?_⟩
  split at h
  · exact nomatch h
  · rename_i hnone
    exact List.findSome?_eq_none_iff.mp hnone

theorem Optimal.analyzed_of_wellFormed (h : g.Optimal) (hg : g.WellFormed) (hshape : g.Shaped) :
    g.Analyzed := by
  obtain ⟨g₀, cfg, hr⟩ := h.analyzed
  have hretyped := ((g₀.retyped_analyze cfg).trans hr.retyped).symm
  refine hr.analyzed (analyzed_analyze (hg.retyped hretyped) (fun n hn hop => ?_) cfg)
  rw [hretyped.live] at hn
  rw [hretyped.op] at hop
  obtain ⟨r, hr, hregion⟩ := hshape.phisOnRegions n hn hop
  exact ⟨r, (hretyped.input n 0).trans hr, by rwa [hretyped.op]⟩

/-- Neither side of an optimal branch is decided, if a known float chooses between them. -/
theorem Optimal.branch_of_double (h : g.Optimal) (hg : g.WellFormed) (hanalyzed : g.Analyzed)
    (hs : s.Covers g) (hn : n ∈ g.live) (hop : g.op n = .fork)
    (hctrl : g.ty (g.input n 0) = .ctrl) {x : Double}
    (hfloat : (g.ty (g.input n 1)).double? = some x) : g.ty (some n) = .branch true true := by
  have htype : g.typeOf n = .branch (!x.isZero) x.isZero := by
    have hty : g.ty (g.input n 1) = .float (some x) := by
      cases hty : g.ty (g.input n 1) with
      | float y =>
        rw [hty] at hfloat
        exact congrArg Ty.float hfloat
      | _ =>
        rw [hty] at hfloat
        cases hfloat
    simp only [typeOf, hop, hctrl, hty, if_true, Ty.branchOn]
  have hsides : ∀ i < 2, ∃ u ∈ g.live, g.op u = .ctrlProj i ∧ g.input u 0 = some n := by
    obtain ⟨hplaced, hblock⟩ := hs.pinned.ctrl n hn (by simp [hop, Op.isCfg]) (by simp [hop])
      (by simp [hop])
    obtain ⟨b, hb⟩ := Option.isSome_iff_exists.mp (hblock ▸ hplaced)
    have hmem := (hs.built.chained.blockOf n b).mp hb
    obtain ⟨last, hlast, hends⟩ := hs.built.followed b (Cfg.lt_of_mem_ctrl hmem)
    obtain rfl := Option.some.inj (hlast.symm.trans (hs.built.getLast?_of_fork hmem hop))
    intro i hi
    generalize (s.cfg.block b).terminator = t at hends
    cases hends with
    | ret hret => cases hop.symm.trans hret
    | jump hfork => exact absurd hop hfork
    | fork _ hsides =>
      obtain ⟨u, hu, -⟩ := hsides i hi
      exact ⟨u, hg.of_side? hn hu⟩
  have hsettled := hanalyzed.settled n hn (by simp [hop])
  have hbranch := hanalyzed.kinds.fork n hn hop
  rw [IsSettled, htype] at hsettled
  obtain ⟨u₀, hu₀, hop₀, hin₀⟩ := hsides 0 (by omega)
  obtain ⟨u₁, hu₁, hop₁, hin₁⟩ := hsides 1 (by omega)
  have hunimproved {u : NodeId} {i : Nat} (hu : u ∈ g.live) (hop : g.op u = .ctrlProj i) :
      g.Unimproved u := h.unimproved u hu (by simp [hop])
  cases hty : g.ty (some n) with
  | branch p q =>
    have h₀ := (hunimproved hu₀ hop₀).undecided hop₀ hin₀ hop hty
    have h₁ := (hunimproved hu₁ hop₁).undecided hop₁ hin₁ hop hty
    rw [hty] at hsettled
    -- a known float permits a side, so with neither decided both are permitted
    cases p <;> cases q <;> cases hx : x.isZero <;> simp_all [Ty.meet]
  | top =>
    rw [hty] at hsettled
    cases hsettled
  | _ =>
    rw [hty] at hbranch
    cases hbranch

def AccessesNotNull (g : Graph) : Prop :=
  ∀ n ∈ g.live, g.op n = .load ∨ g.op n = .store → (g.ty (g.input n 2)).nullness? = some .notNull

theorem accessesNotNull_of_typeCheck {ctx : Context} {name : String}
    (h : g.typeCheck ctx name = .ok ()) : g.AccessesNotNull := by
  intro n hn hop
  have hfault := (nodeFault?_of_typeCheck h).2 n hn
  unfold nodeFault? at hfault
  rcases hop with hop | hop <;> rw [hop] at hfault <;> dsimp only at hfault <;> split at hfault <;>
    first | assumption | exact nomatch hfault

theorem isInt_of_typeCheck {ctx : Context} {name : String} (h : g.typeCheck ctx name = .ok ())
    (hn : n ∈ g.live) (hop : g.op n = .neg) : (g.ty (g.input n 1)).isInt := by
  have hfault := (nodeFault?_of_typeCheck h).2 n hn
  unfold nodeFault? at hfault
  rw [hop] at hfault
  dsimp only at hfault
  split_ifs at hfault with hint
  exact hint

end Graph

theorem Scheduled.Accepted.wellTyped {f : Scheduled} (h : f.Accepted) (hg : f.graph.WellFormed)
    (hshape : f.graph.Shaped) (hverify : f.schedule.verify f.graph = .ok ()) :
    f.schedule.WellTyped f.graph := by
  obtain ⟨ctx, name, hcheck⟩ := h.checked
  have hcovers := Schedule.covers_of_schedule hg h.schedule hverify
  have hanalyzed := h.optimal.analyzed_of_wellFormed hg hshape
  refine ⟨hcovers, hg, hshape, hanalyzed,
    fun n hn hop => .inr (Graph.isInt_of_typeCheck hcheck hn hop), fun n hn hop hctrl => ?_⟩
  cases hfloat : (f.graph.ty (f.graph.input n 1)).double? with
  | none => exact .inl rfl
  | some x => exact .inr (h.optimal.branch_of_double hg hanalyzed hcovers hn hop hctrl hfloat)

end SeaNodes
