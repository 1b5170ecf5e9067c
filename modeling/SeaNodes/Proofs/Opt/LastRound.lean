import SeaNodes.Proofs.Opt.PostFixpoint
import SeaNodes.Scheduled

namespace SeaNodes

namespace Graph

variable {g g' : Graph} {n : NodeId} {e : Edge}

/-- The same graph and types with other value numbers. -/
structure Renumbered (g g' : Graph) : Prop where
  retyped : g.Retyped g'
  ty : ∀ e, g'.ty e = g.ty e

namespace Renumbered

theorem refl (g : Graph) : g.Renumbered g := ⟨.refl g, fun _ => rfl⟩

theorem trans {g'' : Graph} (h : g.Renumbered g') (h' : g'.Renumbered g'') : g.Renumbered g'' :=
  ⟨h.retyped.trans h'.retyped, fun e => (h'.ty e).trans (h.ty e)⟩

theorem symm (h : g.Renumbered g') : g'.Renumbered g := ⟨h.retyped.symm, fun e => (h.ty e).symm⟩

theorem op? (h : g.Renumbered g') (e : Edge) : g'.op? e = g.op? e := by
  cases e with
  | none => rfl
  | some n => exact congrArg some (h.retyped.op n)

theorem inputOf (h : g.Renumbered g') (e : Edge) (i : Nat) : g'.inputOf e i = g.inputOf e i := by
  cases e with
  | none => rfl
  | some n => exact h.retyped.input n i

theorem isOpen (h : g.Renumbered g') (e : Edge) : g'.isOpen e = g.isOpen e := by
  cases e with
  | none => rfl
  | some n => exact h.retyped.inProgress n

theorem typeOf (h : g.Renumbered g') (n : NodeId) : g'.typeOf n = g.typeOf n := by
  have hregion : g'.regionType n = g.regionType n := by
    simp only [regionType, h.retyped.inputs, h.ty]
  have hphi : g'.phiType n = g.phiType n := by
    simp only [phiType, h.retyped.input, h.retyped.inputs, h.retyped.decl, h.ty, h.isOpen, h.inputOf]
  unfold Graph.typeOf ctrlLive
  simp only [hregion, hphi, h.retyped.op, h.retyped.input, h.retyped.decl, h.ty, h.op?]

theorem analyzed (h : g.Renumbered g') (hg : g.Analyzed) : g'.Analyzed := by
  refine ⟨fun n hn hcast => ?_, fun n hn hop => ?_, fun n hn hop => ?_, fun n hn hop => ?_⟩
  all_goals rw [h.retyped.live] at hn
  · rw [h.retyped.op] at hcast
    rw [IsSettled, h.ty, h.typeOf]
    exact hg.settled n hn hcast
  all_goals rw [h.retyped.op] at hop
  all_goals rw [h.ty]
  · exact hg.kinds.ctrl n hn hop
  · exact hg.kinds.fork n hn hop
  · exact hg.kinds.float n hn hop

end Renumbered

theorem renumbered_number (g : Graph) (n : NodeId) : g.Renumbered (g.number n) := by
  unfold number
  split_ifs
  case neg => exact .refl g
  have hnode (m : NodeId) : ∃ b, (modifyNode { g with numbers := g.numbers.insert (g.node n).key n } n
      ({ · with numbered := true })).node m = { g.node m with numbered := b } := by
    rw [node, modifyNode, getD_modify]
    split_ifs
    · exact ⟨true, rfl⟩
    · exact ⟨(g.node m).numbered, rfl⟩
  refine ⟨⟨Array.size_modify .., fun m => ?_, fun _ => rfl⟩, fun e => ?_⟩
  · obtain ⟨b, hb⟩ := hnode m
    exact ⟨(g.node m).ty, b, hb⟩
  · cases e with
    | none => rfl
    | some m =>
      obtain ⟨b, hb⟩ := hnode m
      rw [ty, hb, ty]

/-- The same graph and types, in which more nodes may be numbered. -/
structure Marks (g g' : Graph) : Prop where
  renumbered : g.Renumbered g'
  kept : ∀ n, (g.node n).numbered → (g'.node n).numbered

namespace Marks

theorem refl (g : Graph) : g.Marks g := ⟨.refl g, fun _ => id⟩

theorem trans {g'' : Graph} (h : g.Marks g') (h' : g'.Marks g'') : g.Marks g'' :=
  ⟨h.renumbered.trans h'.renumbered, fun n => h'.kept n ∘ h.kept n⟩

end Marks

theorem marks_number (g : Graph) (n : NodeId) : g.Marks (g.number n) := by
  refine ⟨g.renumbered_number n, fun m hm => ?_⟩
  unfold number
  dsimp only
  split_ifs
  · rw [node, modifyNode, getD_modify]
    split_ifs
    · rfl
    · exact hm
  · exact hm

def Held (g : Graph) (numbering : Bool) (n : NodeId) : Prop :=
  numbering → (g.op n).isNumbered → g.isOpenPhi n = false → (g.node n).numbered

theorem Held.marks {numbering : Bool} (h : g.Held numbering n) (hmarks : g.Marks g') :
    g'.Held numbering n := by
  have hr := hmarks.renumbered
  intro hnumbering hop hopen
  rw [hr.retyped.op] at hop
  simp only [isOpenPhi, hr.retyped.op, hr.retyped.input, hr.isOpen] at hopen
  exact hmarks.kept n (h hnumbering hop hopen)

theorem held_number {numbering : Bool} (hequal : g.equal? n = none) :
    (g.number n).Held numbering n := by
  intro _ hop _
  rw [(g.renumbered_number n).retyped.op] at hop
  have hlt : n < g.size := by
    by_contra hbig
    rw [op, node, Array.getD_eq_getD_getElem?,
      Array.getElem?_eq_none (Nat.le_of_not_lt hbig)] at hop
    cases hop
  unfold number
  dsimp only
  split_ifs with hnew
  · rw [node, modifyNode, getD_modify, if_pos ⟨rfl, hlt⟩]
  · rw [hop, hequal, Option.isNone_none, Bool.true_and, Bool.and_true] at hnew
    simpa using hnew

section

variable {simp : Simplifier} {numbering edited : Bool} {k : Nat}

theorem edited_improveAll (k : Nat) (g : Graph) :
    (improveAll simp numbering n k true g).edited = true := by
  have hmerge (g : Graph) : (g.mergeEqual numbering n true).edited = true := by
    unfold mergeEqual
    split_ifs
    · rfl
    · split <;> rfl
  induction k generalizing g with
  | zero => exact hmerge g
  | succ k ih =>
    rw [improveAll]
    split
    · split_ifs
      · exact ih _
      · rfl
    · exact hmerge g

theorem improve?_of_unedited
    (h : (improveAll simp numbering n (k + 1) false g).edited = false) :
    let r := improveAll simp numbering n (k + 1) false g
    g.improve? simp n = none ∧ g.Marks r.graph ∧ r.graph.Held numbering n := by
  dsimp only
  rw [improveAll] at h ⊢
  split at h
  case h_1 e g' himprove =>
    split_ifs at h
    rw [edited_improveAll] at h
    exact nomatch h
  case h_2 himprove =>
    refine ⟨himprove, ?_⟩
    unfold mergeEqual at h ⊢
    split_ifs at h ⊢ with hskip
    · refine ⟨.refl g, fun hnumbering _ hopen => ?_⟩
      simp [hnumbering, hopen] at hskip
    · split at h
      · exact nomatch h
      case h_2 hequal => exact ⟨g.marks_number n, held_number hequal⟩

end

/-- Nothing improves node `n`, in this graph or in one that differs in value numbers. -/
def Unimproved (g : Graph) (n : NodeId) : Prop :=
  ∃ g' simp, g.Renumbered g' ∧ g'.improve? simp n = none

namespace Unimproved

theorem of_renumbered (h : g'.Unimproved n) (hr : g.Renumbered g') : g.Unimproved n := by
  obtain ⟨g'', simp, hr', himprove⟩ := h
  exact ⟨g'', simp, hr.trans hr', himprove⟩

theorem isDeadControl (h : g.Unimproved n) : g.isDeadControl n = false := by
  obtain ⟨g', simp, hr, himprove⟩ := h
  have hsame : g'.isDeadControl n = g.isDeadControl n := by
    simp only [Graph.isDeadControl, hr.retyped.op, hr.ty]
  unfold improve? at himprove
  split_ifs at himprove with hfold hdead
  rw [← hsame]
  exact Bool.eq_false_of_not_eq_true hdead

theorem applyRule (h : g.Unimproved n) :
    ∃ g' simp, g.Renumbered g' ∧ g'.applyRule simp n = none := by
  obtain ⟨g', simp, hr, himprove⟩ := h
  unfold improve? at himprove
  split_ifs at himprove
  exact ⟨g', simp, hr, himprove⟩

theorem undecided {i : Nat} {t : NodeId} {x y : Bool} (h : g.Unimproved n)
    (hop : g.op n = .ctrlProj i) (hinput : g.input n 0 = some t) (hfork : g.op t = .fork)
    (hty : g.ty (some t) = .branch x y) : ¬ ((i = 0 ∧ x ∧ !y) ∨ (i = 1 ∧ y ∧ !x)) := by
  obtain ⟨g', simp, hr, hrule⟩ := h.applyRule
  have hop' : g'.op n = .ctrlProj i := (hr.retyped.op n).trans hop
  have hinput' : g'.input n 0 = some t := (hr.retyped.input n 0).trans hinput
  have hisFork : g'.isOp (some t) .fork = true := by
    rw [isOp, hr.op?, Graph.op?, hfork]
    rfl
  unfold Graph.applyRule at hrule
  rw [hop'] at hrule
  simp only [Op.isCommutative, Bool.false_and, Bool.false_eq_true, if_false] at hrule
  unfold ruleCtrlProj at hrule
  rw [hinput'] at hrule
  dsimp only at hrule
  rw [if_pos hisFork, hr.ty, hty] at hrule
  dsimp only at hrule
  intro hdecided
  rw [if_pos hdecided] at hrule
  exact nomatch hrule

theorem ty_of_mem_stop (h : g.Unimproved n) (hop : g.op n = .stop) (he : e ∈ g.inputs n) :
    g.ty e = .ctrl := by
  obtain ⟨g', simp, hr, hrule⟩ := h.applyRule
  have hop' : g'.op n = .stop := (hr.retyped.op n).trans hop
  unfold Graph.applyRule at hrule
  rw [hop'] at hrule
  simp only [Op.isCommutative, Bool.false_and, Bool.false_eq_true, if_false] at hrule
  unfold ruleStop at hrule
  rw [Option.map_eq_none_iff, List.find?_eq_none] at hrule
  rw [← hr.retyped.inputs, ← Array.mem_toList_iff] at he
  obtain ⟨j, hj⟩ := List.getElem?_of_mem he
  have hlive := hrule (e, j) (List.mem_reverse.mpr (List.mk_mem_zipIdx_iff_getElem?.mpr hj))
  rw [← hr.ty]
  simpa using hlive

end Unimproved

end Graph

namespace Transform

variable {cfg : OptConfig} {t : Transform} {n : NodeId}

theorem visit_cases (cfg : OptConfig) (t : Transform) (n : NodeId) :
    (t.visit cfg n).rewrites = t.rewrites + 1 ∨
    (t.visit cfg n).rewrites = t.rewrites ∧ (t.visit cfg n).work = t.work ∧
      t.graph.Marks (t.visit cfg n).graph ∧
      (t.graph.isDead n = false → t.graph.op n ≠ .scope →
        t.graph.Unimproved n ∧ (t.visit cfg n).graph.Held cfg.numbering n) := by
  unfold visit
  split_ifs with hskip
  · refine .inr ⟨rfl, rfl, .refl _, fun hlive hscope => ?_⟩
    rw [hlive, Bool.false_or, beq_iff_eq] at hskip
    exact absurd hskip hscope
  · dsimp only
    cases hedited : (t.graph.rewrite n cfg.numbering).edited with
    | true =>
      left
      rw [if_pos rfl]
    | false =>
      right
      obtain ⟨himprove, hmarks, hheld⟩ := Graph.improve?_of_unedited hedited
      rw [if_neg Bool.false_ne_true]
      exact ⟨rfl, rfl, hmarks, fun _ _ => ⟨⟨_, _, .refl _, himprove⟩, hheld⟩⟩

theorem rewrites_le_visit (cfg : OptConfig) (t : Transform) (n : NodeId) :
    t.rewrites ≤ (t.visit cfg n).rewrites := by
  rcases visit_cases cfg t n with h | ⟨h, -⟩ <;> omega

theorem rewrites_le_run (cfg : OptConfig) (k : Nat) (t : Transform) :
    t.rewrites ≤ (t.run cfg k).rewrites := by
  induction k generalizing t with
  | zero => exact le_rfl
  | succ k ih =>
    rw [run]
    split
    · exact le_rfl
    · rename_i n w _
      exact (rewrites_le_visit cfg { t with work := w } n).trans (ih _)

/-- A run without edits has looked at all waiting nodes in vain. -/
theorem unimproved_of_run (cfg : OptConfig) (k : Nat) (t : Transform) (hwork : t.work.Consistent)
    (hk : t.work.toList.length ≤ k) (h : (t.run cfg k).rewrites = t.rewrites) :
    t.graph.Marks (t.run cfg k).graph ∧ ∀ n ∈ t.work.toList, t.graph.isDead n = false →
      t.graph.op n ≠ .scope →
        t.graph.Unimproved n ∧ (t.run cfg k).graph.Held cfg.numbering n := by
  induction k generalizing t with
  | zero =>
    refine ⟨.refl _, fun n hn => ?_⟩
    rw [List.length_eq_zero_iff.mp (Nat.le_zero.mp hk)] at hn
    exact absurd hn List.not_mem_nil
  | succ k ih =>
    rw [run] at h ⊢
    split at h
    case h_1 hpop =>
      refine ⟨.refl _, fun n hn => ?_⟩
      rw [Worklist.toList_of_pop? hpop] at hn
      exact absurd hn List.not_mem_nil
    case h_2 m w hpop =>
      obtain ⟨hlist, hw⟩ := hwork.pop? hpop
      rw [hlist, List.length_cons] at hk
      -- an edit would show in the count of all
      have hle := rewrites_le_run cfg k ({ t with work := w }.visit cfg m)
      rcases visit_cases cfg { t with work := w } m with hedit | ⟨hsame, hsameWork, hm, himprove⟩
      · rw [h, hedit] at hle
        exact absurd hle (Nat.not_succ_le_self _)
      · have hsameList := congrArg Worklist.toList hsameWork
        obtain ⟨hm', hrest⟩ := ih ({ t with work := w }.visit cfg m) (hsameWork ▸ hw)
          (by rw [hsameList]; exact Nat.le_of_succ_le_succ hk) (h.trans hsame.symm)
        have hr := hm.renumbered
        refine ⟨hm.trans hm', fun n hn hlive hscope => ?_⟩
        rw [hlist, List.mem_cons] at hn
        rcases hn with rfl | hn
        · obtain ⟨hunimproved, hheld⟩ := himprove hlive hscope
          exact ⟨hunimproved, hheld.marks hm'⟩
        · obtain ⟨hunimproved, hheld⟩ := hrest n (hsameList ▸ hn)
            ((hr.retyped.isDead n).trans hlive) (hr.retyped.op n ▸ hscope)
          exact ⟨hunimproved.of_renumbered hr, hheld⟩

theorem rewrites_le_dropDead (ns : List NodeId) (t : Transform) :
    t.rewrites ≤ (ns.foldl dropDead t).rewrites := by
  induction ns generalizing t with
  | nil => exact le_rfl
  | cons n ns ih =>
    refine le_trans ?_ (ih _)
    unfold dropDead
    split_ifs
    · exact Nat.le_succ _
    · exact le_rfl

theorem foldl_dropDead_eq (ns : List NodeId) (t : Transform)
    (h : (ns.foldl dropDead t).rewrites = t.rewrites) : ns.foldl dropDead t = t := by
  induction ns generalizing t with
  | nil => rfl
  | cons n ns ih =>
    rw [List.foldl_cons] at h ⊢
    have hle := rewrites_le_dropDead ns (t.dropDead n)
    rw [h] at hle
    have hsame : t.dropDead n = t := by
      unfold dropDead at hle ⊢
      split_ifs at hle ⊢
      · exact absurd hle (Nat.not_succ_le_self _)
      · rfl
    rw [hsame] at h ⊢
    exact ih t h

end Transform

namespace Graph

variable {g : Graph} {cfg : OptConfig}

theorem unimproved_of_transform (h : (g.transform cfg).rewrites = 0) :
    g.Marks (g.transform cfg).graph ∧ ∀ n ∈ g.live, g.op n ≠ .scope →
      g.Unimproved n ∧ (g.transform cfg).graph.Held cfg.numbering n := by
  -- the number of visits stays a variable: it is far too large to be counted down
  obtain ⟨k, hk, htransform⟩ : ∃ k, g.size ≤ k ∧ g.transform cfg = Transform.run cfg k
      { g.live.foldl Transform.dropDead { graph := g } with
        work := .ofList (g.live.foldl Transform.dropDead { graph := g }).graph.live } :=
    ⟨Transform.fuel g, Nat.le_add_right _ _, by rw [transform]⟩
  rw [htransform] at h ⊢
  have hdrop : g.live.foldl Transform.dropDead { graph := g } = { graph := g } := by
    refine Transform.foldl_dropDead_eq _ _ (Nat.le_zero.mp ?_)
    have hle := Transform.rewrites_le_run cfg k
      { g.live.foldl Transform.dropDead { graph := g } with
        work := .ofList (g.live.foldl Transform.dropDead { graph := g }).graph.live }
    rw [h] at hle
    exact hle
  rw [hdrop] at h ⊢
  obtain ⟨hcons, hmem⟩ := Worklist.pushAll_spec Worklist.consistent_empty g.live
  have hlength : (Worklist.ofList g.live).toList.length ≤ k := by
    have hsub := (List.subperm_of_subset hcons.nodup fun n hn =>
      ((hmem n).mp hn).resolve_left List.not_mem_nil).length_le
    have hsize : g.live.length ≤ g.size := (List.length_filter_le _ _).trans_eq List.length_range
    exact (hsub.trans hsize).trans hk
  obtain ⟨hmarks, himprove⟩ := Transform.unimproved_of_run cfg k
    { graph := g, work := .ofList g.live } hcons hlength h
  refine ⟨hmarks, fun n hn hscope => himprove n ?_ (mem_live.mp hn).2 hscope⟩
  exact (hmem n).mpr (.inr hn)

theorem sweep_of_unreachable (h : g.sweep.1 = 0) : g.unreachable = [] ∧ g.sweep.2 = g := by
  have hnone : g.unreachable = [] := List.length_eq_zero_iff.mp h
  refine ⟨hnone, ?_⟩
  unfold sweep
  rw [hnone]
  rfl

end Graph

theorem Optimized.round_spec (cfg : OptConfig) (o : Optimized) :
    (o.round cfg).graph = ((o.graph.analyze cfg).graph.transform cfg).graph.sweep.2 ∧
    (o.round cfg).stats.rewrites =
      o.stats.rewrites + ((o.graph.analyze cfg).graph.transform cfg).rewrites ∧
    (o.round cfg).stats.swept =
      o.stats.swept + ((o.graph.analyze cfg).graph.transform cfg).graph.sweep.1 := by
  unfold Optimized.round
  dsimp only
  exact ⟨rfl, rfl, rfl⟩

namespace Graph

variable {g : Graph} {cfg : OptConfig}

/-- What the last round leaves behind. -/
structure Optimal (g : Graph) : Prop where
  /-- An analysis left its types, up to the value numbers. -/
  analyzed : ∃ g₀ cfg, (Graph.analyze g₀ cfg).graph.Renumbered g
  unimproved : ∀ n ∈ g.live, g.op n ≠ .scope → g.Unimproved n
  reached : g.unreachable = []

theorem optimal_of_rounds (cfg : OptConfig) (k : Nat) (o : Optimized)
    (h : (Optimized.rounds cfg k o).1 = true) : (Optimized.rounds cfg k o).2.graph.Optimal := by
  induction k generalizing o with
  | zero => exact nomatch h
  | succ k ih =>
    rw [Optimized.rounds] at h ⊢
    split_ifs at h ⊢ with hlast
    · obtain ⟨hgraph, hrewrites, hswept⟩ := o.round_spec cfg
      rw [hrewrites, hswept, Nat.add_eq_left, Nat.add_eq_left] at hlast
      obtain ⟨⟨hr, -⟩, himprove⟩ := unimproved_of_transform hlast.1
      obtain ⟨hreached, hsweep⟩ := sweep_of_unreachable hlast.2
      rw [hgraph, hsweep]
      refine ⟨⟨o.graph, cfg, hr⟩, fun n hn hscope => ?_, hreached⟩
      rw [hr.retyped.live] at hn
      rw [hr.retyped.op] at hscope
      obtain ⟨⟨g', simp, hr', himprove'⟩, -⟩ := himprove n hn hscope
      exact ⟨g', simp, hr.symm.trans hr', himprove'⟩
    · exact ih _ h

end Graph

end SeaNodes
