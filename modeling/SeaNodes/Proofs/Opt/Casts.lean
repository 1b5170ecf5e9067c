import SeaNodes.Proofs.Opt.Evolves
import SeaNodes.Proofs.Opt.PostFixpoint
import SeaNodes.Scheduled

namespace SeaNodes

namespace Ty

theorem null_of_meet_ptr {a : Ty} {o : Pointee} {nil : Nullness} (ha : a.isConstant)
    (h : a.meet (.ptr o nil) = a) : nil = .null := by
  cases a with
  | ptr o' nil' =>
    obtain rfl : nil' = .null := beq_iff_eq.mp ha
    unfold meet at h
    split_ifs at h with heq
    · exact (Ty.ptr.inj heq).2.symm
    · cases nil with
      | null => rfl
      | _ => cases (Ty.ptr.inj h).2
  | _ => simp_all [meet, isConstant]

/-- What an operand and a declared reference type have in common is above a constant only if the operand
is null, or if there is nothing. -/
theorem join_ref_of_isConstant {a t : Ty} {s : StructId} {nullable : Bool} (ha : a.isConstant)
    (h : a.meet (t.join (.ref s nullable)) = a) :
    t.join (.ref s nullable) = .top ∨ t.nullness? = some .null ∧ nullable := by
  have hdecl : a.meet (.ref s nullable) ≠ a := by
    intro heq
    have hnil := null_of_meet_ptr ha heq
    cases nullable <;> cases hnil
  cases t with
  | bottom => exact absurd h hdecl
  | ptr o nil =>
    unfold join at h ⊢
    split_ifs at h with heq
    · exact absurd (heq ▸ h) hdecl
    · rw [if_neg heq]
      dsimp only [ref] at h ⊢
      cases hobj : o.join? (.layout s) with
      | none => exact .inl rfl
      | some o' =>
        cases hnil : nil.join? (if nullable then .maybe else .notNull) with
        | none => exact .inl rfl
        | some nil' =>
          rw [hobj, hnil] at h
          obtain rfl := null_of_meet_ptr ha h
          cases nil <;> cases nullable <;> first | exact .inr ⟨rfl, rfl⟩ | cases hnil
  | _ => exact .inl rfl

end Ty

namespace Graph

variable {old : Nat} {g : Graph} {n : NodeId} {e : Edge}

/-- What a cast may be replaced by. -/
inductive CastGone (g : Graph) (n : NodeId) (e : Edge) : Prop where
  /-- An equal cast. -/
  | merged (m : NodeId) (hedge : e = some m) (hop : g.op m = .cast) (hdecl : g.decl m = g.decl n)
      (hinputs : g.inputs m = g.inputs n)
  /-- Its operand, which has the declared type. -/
  | proven (hedge : e = g.input n 1) (hknown : g.ty (g.input n 1) ≠ .top)
      (hisA : (g.ty (g.input n 1)).isA (g.decl n))
  /-- The constant that its type leaves. -/
  | folded (hconst : (g.ty (some n)).isConstant) (hedge : e = (g.constEdge (g.ty (some n))).1)

theorem castGone_of_mergeEqual {numbering edited : Bool} (hg : g.Numbered) (hop : g.op n = .cast)
    (hne : (g.mergeEqual numbering n edited).edge ≠ some n) :
    CastGone g n (g.mergeEqual numbering n edited).edge := by
  unfold mergeEqual at hne ⊢
  split_ifs at hne ⊢
  · exact absurd rfl hne
  · split at hne
    case h_1 m hequal =>
      obtain ⟨-, -, hkey⟩ := hg.equal?_spec hequal
      exact .merged m rfl ((congrArg NodeKey.op hkey).trans hop) (congrArg NodeKey.decl hkey)
        (congrArg NodeKey.inputs hkey)
    case h_2 => exact absurd rfl hne

theorem castGone_of_improveAll {simp : Simplifier} {numbering : Bool} (hg : g.Numbered)
    (hn : n < g.size) (hop : g.op n = .cast) (k : Nat) (edited : Bool)
    (hne : (improveAll simp numbering n k edited g).edge ≠ some n) :
    CastGone g n (improveAll simp numbering n k edited g).edge := by
  induction k generalizing edited with
  | zero => exact castGone_of_mergeEqual hg hop hne
  | succ k ih =>
    have hcontrol : g.isDeadControl n = false := by
      simp only [isDeadControl, hop]
      rfl
    have hrule : g.applyRule simp n = g.ruleCast n := by
      simp only [applyRule, hop]
      rfl
    have himprove : g.improve? simp n =
        if g.isFoldable n then some (g.constEdge (g.ty (some n))) else g.ruleCast n := by
      rw [improve?, hcontrol, hrule]
      rfl
    rw [improveAll, himprove] at hne ⊢
    by_cases hfold : g.isFoldable n
    · have hconst : (g.ty (some n)).isConstant := by
        simp only [isFoldable, Bool.and_eq_true] at hfold
        exact hfold.1.2
      rw [if_pos hfold]
      dsimp only
      rw [if_neg (constEdge_ne hg hn (by rw [hop]; rfl) _)]
      exact .folded hconst rfl
    · rw [if_neg hfold] at hne ⊢
      unfold ruleCast at hne ⊢
      dsimp only at hne ⊢
      by_cases hproven : g.ty (g.input n 1) ≠ .top ∧ (g.ty (g.input n 1)).isA (g.decl n)
      · rw [if_pos hproven] at hne ⊢
        dsimp only at hne ⊢
        split_ifs at hne ⊢
        · exact ih true hne
        · exact .proven rfl hproven.1 hproven.2
      · rw [if_neg hproven] at hne ⊢
        exact castGone_of_mergeEqual hg hop hne

theorem castGone_of_rewrite {numbering : Bool} (hg : g.Numbered) (hn : n < g.size)
    (hop : g.op n = .cast) (hne : (g.rewrite n numbering).edge ≠ some n) :
    CastGone g n (g.rewrite n numbering).edge :=
  castGone_of_improveAll hg hn hop maxLocalSteps false hne

theorem rewrite_of_size_le {numbering : Bool} (hn : g.size ≤ n) :
    (g.rewrite n numbering).graph = g := by
  have hop : g.op n = .start := congrArg Node.op (node_of_size_le hn)
  have himprove (simp : Simplifier) : g.improve? simp n = none := by
    simp only [improve?, isFoldable, isDeadControl, applyRule, hop]
    rfl
  have hmerge : (g.mergeEqual numbering n false).graph = g := by
    unfold mergeEqual
    split_ifs
    · rfl
    · simp only [equal?, number, hop]
      rfl
  rw [rewrite, maxLocalSteps, improveAll, himprove]
  exact hmerge

end Graph

namespace Transform

variable {old : Nat} {cfg : OptConfig}

/-- The state in which a transformation visits its first node. -/
def ofGraph (g : Graph) : Transform :=
  let t := g.live.foldl dropDead { graph := g }
  { t with work := .ofList t.graph.live }

theorem evolves_foldl_dropDead (ns : List NodeId) (t : Transform) :
    Graph.Evolves old t.graph (ns.foldl dropDead t).graph := by
  induction ns generalizing t with
  | nil => exact .refl old _
  | cons n ns ih =>
    refine .trans ?_ (ih _)
    unfold dropDead
    split_ifs
    · exact .subsume _ _ _
    · exact .refl old _

theorem evolves_ofGraph (g : Graph) : Graph.Evolves old g (ofGraph g).graph :=
  evolves_foldl_dropDead g.live { graph := g }

theorem evolves_visit {t : Transform} (hold : old ≤ t.graph.size) (n : NodeId) :
    Graph.Evolves old t.graph (t.visit cfg n).graph := by
  unfold visit
  split_ifs with hskip
  · exact .refl old _
  rw [Bool.or_eq_true, not_or, beq_iff_eq] at hskip
  have hrewrite : Graph.Evolves old t.graph (t.graph.rewrite n cfg.numbering).graph := by
    rcases Nat.lt_or_ge n t.graph.size with hlt | hge
    · exact (Graph.yields_rewrite hold (Graph.leads_some.mpr ⟨hlt, hskip.2⟩) _).evolves
    · rw [Graph.rewrite_of_size_le hge]
      exact .refl old _
  dsimp only
  split_ifs
  · exact hrewrite
  · exact hrewrite

theorem evolves_run (cfg : OptConfig) (k : Nat) (t : Transform) (hold : old ≤ t.graph.size) :
    Graph.Evolves old t.graph (run cfg k t).graph := by
  induction k generalizing t with
  | zero => exact .refl old _
  | succ k ih =>
    rw [run]
    split
    · exact .refl old _
    · rename_i n work _
      have hvisit := @evolves_visit old cfg { t with work } hold n
      exact hvisit.trans (ih _ (hold.trans hvisit.size))

end Transform

theorem Graph.analyze_induction {P : Graph → Prop} {g : Graph}
    (hstep : ∀ g n t, P g → P (g.setTy n t)) (cfg : OptConfig) (h : P g) :
    P (g.analyze cfg).graph := by
  refine Analysis.run_induction (fun g n t h _ _ => hstep g n t h) _ ?_
  refine List.foldlRecOn (motive := P) g.live _ h fun g' h n _ => ?_
  split_ifs
  · exact h
  · exact hstep g' n .top h

theorem Graph.meet_join_analyze {g : Graph} {n : NodeId} (hg : g.WellFormed)
    (hphis : g.PhisOnRegions) (cfg : OptConfig) (hn : n ∈ g.live) (hop : g.op n = .cast)
    (hfree : g.input n 0 = none) (hknown : (g.analyze cfg).graph.ty (g.input n 1) ≠ .top) :
    ((g.analyze cfg).graph.ty (some n)).meet
      (((g.analyze cfg).graph.ty (g.input n 1)).join (g.decl n)) =
        (g.analyze cfg).graph.ty (some n) := by
  have hr := g.retyped_analyze cfg
  have hsettled := isSettled_analyze hg hphis cfg hn
  have htype : (g.analyze cfg).graph.typeOf n =
      ((g.analyze cfg).graph.ty (g.input n 1)).join (g.decl n) := by
    simp only [typeOf, ctrlLive, hr.op, hr.input, hr.decl, hop, hfree, hknown]
    rfl
  rw [IsSettled, htype] at hsettled
  exact hsettled

theorem Graph.castGone_of_evolves {g a t : Graph} {n : NodeId} (hr : g.Retyped a)
    (hevolves : Evolves a.size a t) (hnumbered : a.Numbered) (numbering : Bool) (hn : n < g.size)
    (hop : g.op n = .cast) :
    (t.op n = .cast ∧ t.decl n = g.decl n ∧ ∀ m < g.size, t.ty (some m) = a.ty (some m)) ∧
    ((t.rewrite n numbering).edge ≠ some n → t.CastGone n (t.rewrite n numbering).edge) := by
  have hlt : n < a.size := hr.size ▸ hn
  have hcast : t.op n = .cast := by
    have hopA : a.op n = .cast := (hr.op n).trans hop
    rcases hevolves.op n with hsame | ⟨hloop, -⟩ | ⟨hbig, -⟩
    · exact hsame.trans hopA
    · cases hloop.symm.trans hopA
    · exact absurd hlt (Nat.not_lt_of_le hbig)
  exact ⟨⟨hcast, (hevolves.decl n hlt).trans (hr.decl n), fun m hm => hevolves.ty m (hr.size ▸ hm)⟩,
    castGone_of_rewrite (hevolves.numbered hnumbered) (hlt.trans_le hevolves.size) hcast⟩

/-- How a cast without control goes in a round. When it is simplified, at whatever point, the nodes
have the types that the analysis computed. If it is replaced, then by an equal cast, by an operand of
the declared type, or by the constant that its own type is; and that type is at or below what operand
and declaration have in common. Where the declared type is that of a reference, this means that the
operand is null, or that it has nothing in common with the declaration. -/
theorem castGone_of_transform {g : Graph} {n : NodeId} (hg : g.WellFormed)
    (hphis : g.PhisOnRegions) (hnumbered : g.Numbered) (cfg : OptConfig) (k : Nat)
    (hn : n ∈ g.live) (hop : g.op n = .cast) (hfree : g.input n 0 = none) :
    let a := (g.analyze cfg).graph
    let t := (Transform.run cfg k (.ofGraph a)).graph
    let operand := a.ty (g.input n 1)
    (t.op n = .cast ∧ t.decl n = g.decl n ∧ ∀ m < g.size, t.ty (some m) = a.ty (some m)) ∧
    ((t.rewrite n cfg.numbering).edge ≠ some n →
      t.CastGone n (t.rewrite n cfg.numbering).edge) ∧
    (operand ≠ .top → (a.ty (some n)).meet (operand.join (g.decl n)) = a.ty (some n) ∧
      ∀ s nullable, g.decl n = .ref s nullable → (a.ty (some n)).isConstant →
        operand.join (g.decl n) = .top ∨ operand.nullness? = some .null ∧ nullable) := by
  intro a t operand
  have hstart := @Transform.evolves_ofGraph a.size a
  have hevolves := hstart.trans (Transform.evolves_run cfg k (.ofGraph a) hstart.size)
  have hnumberedA := Graph.analyze_induction
    (fun g n t h => h.modifyNode (f := ({ · with ty := t })) (fun _ => rfl) (fun _ => rfl) n)
    cfg hnumbered
  obtain ⟨hkept, hgone⟩ := Graph.castGone_of_evolves (g.retyped_analyze cfg) hevolves hnumberedA
    cfg.numbering (Graph.mem_live.mp hn).1 hop
  refine ⟨hkept, hgone, fun hknown => ?_⟩
  have hcommon := Graph.meet_join_analyze hg hphis cfg hn hop hfree hknown
  refine ⟨hcommon, fun s nullable hdecl hconst => ?_⟩
  rw [hdecl] at hcommon ⊢
  exact Ty.join_ref_of_isConstant hconst hcommon

def upcast : Graph :=
  let g := (Graph.empty.add (.param 0) #[some Graph.start] (.ref 0 false)).2
  (g.add .cast #[none, some 3] (.ref 0 true)).2

theorem castGone_upcast : upcast.WellFormed ∧ upcast.PhisOnRegions ∧ upcast.Numbered ∧
    4 ∈ upcast.live ∧ upcast.op 4 = .cast ∧ upcast.input 4 0 = none ∧
    (Transform.run {} 4 (.ofGraph (upcast.analyze {}).graph)).graph.CastGone 4 (some 3) := by
  have hg : upcast.WellFormed := by decide +kernel
  have hphis : upcast.PhisOnRegions := by
    have hnone : ∀ n ∈ upcast.live, upcast.op n ≠ .phi := by decide +kernel
    exact fun n hn hop => absurd hop (hnone n hn)
  have hnumbered : upcast.Numbered := (Graph.numbered_empty.add _ _ _).add _ _ _
  have hedge : ((Transform.run {} 4 (.ofGraph (upcast.analyze {}).graph)).graph.rewrite 4
      true).edge = some 3 := by decide +kernel
  obtain ⟨-, hgone, -⟩ := castGone_of_transform hg hphis hnumbered {} 4 (n := 4) (by decide)
    (by decide) (by decide)
  refine ⟨hg, hphis, hnumbered, by decide, by decide, by decide, ?_⟩
  rw [show ({} : OptConfig).numbering = true from rfl, hedge] at hgone
  exact hgone (by decide)

/-- In a round on `g`, a cast without control goes only for an equal cast, or if the analysis shows that
its operand has the declared type. -/
def Graph.CastsProven (g : Graph) (cfg : OptConfig) : Prop :=
  ∀ k, ∀ n ∈ g.live, g.op n = .cast → g.input n 0 = none →
    let a := (g.analyze cfg).graph
    let t := (Transform.run cfg k (.ofGraph a)).graph
    ∀ e, (t.rewrite n cfg.numbering).edge = e → e ≠ some n →
      (∃ m ∈ e, t.op m = .cast ∧ t.decl m = t.decl n ∧ t.inputs m = t.inputs n) ∨
      (a.ty (t.input n 1)).isA (g.decl n)

/-- The variable is null when the loop is analyzed first. Then the cast is known to give null, and it
keeps that type when the variable turns out to be of the other struct. -/
def staleCast : Program where
  structs := [⟨"S", [("x", .int)], true⟩, ⟨"T", [("y", .int)], true⟩]
  functions := [{
    name := "f"
    params := [("n", .int), ("s", .ref "S" false)]
    ret := .ref "T" true
    body := [
      .declare "x" (.ref "S" true) .null,
      .loop (.var "n") [.assign "x" (.var "s"), .assign "n" (.int 0)],
      .ret (.cast (.ref "T" true) (.var "x"))] }]

/-- The graph of the first function. -/
def Program.firstGraph? (p : Program) : Option Graph := do
  let ctx ← (Context.ofProgram p).toOption
  (ctx.buildFunction (← p.functions.head?)).1.toOption

/-- The program is accepted although its cast was not proven. -/
theorem staleCast_not_castsProven : (staleCast.schedule {}).isOk ∧
    ∃ g, staleCast.firstGraph? = some g ∧ g.WellFormed ∧ ¬ g.CastsProven {} := by
  have hcomputed : staleCast.firstGraph?.map (fun g =>
      let a := (g.analyze {}).graph
      let t := (Transform.run {} 14 (.ofGraph a)).graph
      (decide g.WellFormed, decide (18 ∈ g.live ∧ g.op 18 = .cast ∧ g.input 18 0 = none),
        (t.rewrite 18 true).edge, decide (t.op 7 = .cast), (a.ty (t.input 18 1)).isA (g.decl 18))) =
      some (true, true, some 7, false, false) := by
    decide +kernel
  obtain ⟨g, hg, hvalue⟩ := Option.map_eq_some_iff.mp hcomputed
  simp only [Prod.mk.injEq, decide_eq_true_eq, decide_eq_false_iff_not] at hvalue
  obtain ⟨hwf, ⟨hlive, hop, hfree⟩, hedge, hconst, hisA⟩ := hvalue
  refine ⟨by decide +kernel, g, hg, hwf, fun h => ?_⟩
  rcases h 14 18 hlive hop hfree (some 7) hedge (by decide) with ⟨m, hm, hcast, -⟩ | hproven
  · rw [← Option.some.inj hm] at hcast
    exact hconst hcast
  · rw [hisA] at hproven
    cases hproven

end SeaNodes
