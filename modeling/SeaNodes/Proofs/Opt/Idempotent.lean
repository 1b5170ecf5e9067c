import SeaNodes.Proofs.Opt.Casts
import SeaNodes.Proofs.Opt.LastRound
import SeaNodes.Proofs.Opt.Renumbered

namespace SeaNodes

/-- The type of a node that is not a matter of analysis. -/
def Op.ownType? : Op → Option Ty
  | .start | .stop => some .ctrl
  | .dead => some .deadCtrl
  | .const t => some t
  | _ => none

namespace Graph

variable {g g' : Graph} {n m : NodeId}

/-- No scope is live, and live nodes with a type of their own carry it. -/
def OwnTypes (g : Graph) : Prop :=
  ∀ n ∈ g.live, g.op n ≠ .scope ∧ ∀ t ∈ (g.op n).ownType?, g.ty (some n) = t

instance (g : Graph) : Decidable g.OwnTypes := List.decidableBAll _ _

theorem typeOf_of_ownType? {t : Ty} (h : (g.op n).ownType? = some t) : g.typeOf n = t := by
  unfold typeOf
  cases hop : g.op n <;> simp_all [Op.ownType?]

theorem isSome_ownType? (h : g.hasFixedType n) (hscope : g.op n ≠ .scope) :
    ∃ t, (g.op n).ownType? = some t := by
  unfold hasFixedType at h
  cases hop : g.op n <;> simp_all [Op.ownType?]

theorem hasFixedType_of_ownType? {t : Ty} (h : (g.op n).ownType? = some t) : g.hasFixedType n := by
  unfold hasFixedType
  cases hop : g.op n <;> simp_all [Op.ownType?]

theorem Updated.isDead {f : Node → Node} (h : Updated m f g g') (hf : ∀ x, x.dead → (f x).dead)
    (hn : g.isDead n) : g'.isDead n := by
  obtain ⟨b, hb, -⟩ := g.node_unnumber m n
  rw [Graph.isDead, h.node, node_modifyNode, hb]
  split_ifs
  · exact hf _ hn
  · exact hn

theorem isDead_reapAll (keep : Edge) (k : Nat) (work : List NodeId) (hn : g.isDead n) :
    (reapAll keep k work g).isDead n := by
  induction k generalizing work g with
  | zero => exact hn
  | succ k ih =>
    rw [reapAll]
    split
    · exact hn
    · exact ih _ ((g.updated_bury _).isDead (fun _ _ => rfl) hn)

theorem lt_of_isDead (hn : g.isDead n) : n < g.size := by
  by_contra hbig
  rw [Graph.isDead, node_of_size_le (Nat.le_of_not_lt hbig)] at hn
  cases hn

theorem Simplifies.isDead (h : Simplifies g g') (hn : g.isDead n) : g'.isDead n := by
  cases h with
  | setInput m i e =>
    rcases g.setInput_eq_or_updated m i e with hsame | ⟨hu, -⟩
    · rwa [hsame]
    · exact hu.isDead (fun _ h => h) hn
  | removeInput m i => exact (g.updated_removeInput m i).isDead (fun _ h => h) hn
  | swapInputs m i j => exact (g.updated_modifyNode m _).isDead (fun _ h => h) hn
  | reap m keep => exact isDead_reapAll keep _ [m] hn
  | subsume m e =>
    unfold Graph.subsume
    split_ifs with hne
    · exact hn
    · exact isDead_reapAll e _ [m] (((replaceAllUses_spec hne).2.1 n).trans hn)
  | number m => exact ((SameLinks.number g m).isDead n).trans hn
  | setOp => exact (g.updated_modifyNode _ _).isDead (fun _ h => h) hn
  | setTy m =>
    exact (field_modifyNode (f := ({ · with ty := g.settledType m })) (fun _ => rfl) g m n).trans hn
  | add _ _ xs decl =>
    rw [Graph.isDead, (g.add_spec _ xs decl).2.1, if_neg (lt_of_isDead hn).ne']
    exact hn
  | const t =>
    rcases g.const_cases t with ⟨m, -, -, hsame⟩ | ⟨-, -, hnode, -⟩
    · rwa [hsame]
    · rw [Graph.isDead, hnode, if_neg (lt_of_isDead hn).ne']
      exact hn

theorem Simplifies.filed (h : Simplifies g g') (hg : g.Filed) : g'.Filed := by
  cases h with
  | setInput n i e => exact hg.setInput n i e
  | removeInput n i => exact hg.updated (g.updated_removeInput n i) fun _ => rfl
  | swapInputs n i j => exact hg.updated (g.updated_modifyNode n _) fun _ => rfl
  | reap n keep => exact hg.reapAll keep _ [n]
  | subsume n e => exact hg.subsume n e
  | number n => exact hg.number n
  | setOp => exact hg.updated (g.updated_modifyNode _ _) fun _ => rfl
  | setTy n =>
    exact hg.modifyNode (f := ({ · with ty := g.settledType n })) (fun _ => rfl) (fun _ => rfl)
      (fun _ => rfl) n
  | add _ _ xs decl => exact hg.add _ xs decl
  | const t => exact hg.const t

/-- Live nodes are as they were. -/
theorem OwnTypes.of_sameBodies (hg : g.OwnTypes) (h : g.SameBodies g')
    (hdead : ∀ n, g.isDead n → g'.isDead n) : g'.OwnTypes := by
  intro n hn
  obtain ⟨hlt, hlive⟩ := mem_live.mp hn
  rw [h.op, h.ty]
  refine hg n (mem_live.mpr ⟨h.size ▸ hlt, ?_⟩)
  by_contra hnot
  rw [hdead n (Bool.eq_true_of_not_eq_false hnot)] at hlive
  cases hlive

theorem OwnTypes.setTy (hg : g.OwnTypes) {t : Ty}
    (ht : ∀ own ∈ (g.op n).ownType?, n ∈ g.live → t = own) : (g.setTy n t).OwnTypes := by
  have hr := g.retyped_setTy n t
  intro m hm
  rw [hr.live] at hm
  rw [hr.op]
  refine ⟨(hg m hm).1, fun own hown => ?_⟩
  by_cases hmn : m = n
  · subst hmn
    rw [ty_setTy_self (mem_live.mp hm).1]
    exact ht own hown hm
  · rw [ty_setTy_of_ne fun heq => hmn (Option.some.inj heq)]
    exact (hg m hm).2 own hown

theorem Simplifies.ownTypes (h : Simplifies g g') (hg : g.OwnTypes) : g'.OwnTypes := by
  have hdead (n : NodeId) (hn : g.isDead n) : g'.isDead n := h.isDead hn
  cases h with
  | setInput n i e => exact hg.of_sameBodies (.setInput g n i e) hdead
  | removeInput n i =>
    exact hg.of_sameBodies (.of_updated (g.updated_removeInput n i) fun _ => rfl) hdead
  | swapInputs n i j =>
    exact hg.of_sameBodies (.of_updated (g.updated_modifyNode n
      fun x => { x with inputs := x.inputs.swapIfInBounds i j }) fun _ => rfl) hdead
  | reap n keep => exact hg.of_sameBodies (.reapAll keep _ [n] g) hdead
  | subsume n e => exact hg.of_sameBodies (.subsume g n e) hdead
  | number n => exact hg.of_sameBodies (.number g n) hdead
  | @setOp n hloop =>
    have hu := g.updated_modifyNode n ({ · with op := .region })
    intro m hm
    have hlive : m ∈ g.live := by
      rw [mem_live] at hm ⊢
      exact ⟨hu.size ▸ hm.1,
        (hu.field Node.dead (fun _ => rfl) (fun _ _ => rfl) m).symm.trans hm.2⟩
    by_cases hmn : n = m
    · subst hmn
      have hop : (g.setOp n .region).op n = .region := by
        rw [op, Graph.setOp, node_modifyNode, (SameLinks.unnumber g n).size,
          if_pos ⟨rfl, (mem_live.mp hlive).1⟩]
      rw [hop]
      exact ⟨Op.noConfusion, fun t ht => by cases ht⟩
    · have hnode : (g.setOp n .region).node m = g.node m := hu.of_ne hmn
      rw [op, ty, hnode]
      exact hg m hlive
  | setTy n =>
    refine hg.setTy fun own hown _ => ?_
    rw [settledType_of_not_cast fun hop => by simp [hop, Op.ownType?] at hown]
    exact typeOf_of_ownType? hown
  | @add op hop hconst xs decl =>
    obtain ⟨hsize, hnode, -⟩ := g.add_spec op xs decl
    intro m hm
    rw [mem_live, hsize, Graph.isDead, hnode] at hm
    rw [Graph.op, ty, hnode]
    split_ifs at hm ⊢ with hnew
    · cases op <;> simp_all [Op.isMade, Op.isConst, Op.ownType?]
    · exact hg m (mem_live.mpr ⟨Nat.lt_of_le_of_ne (Nat.le_of_lt_succ hm.1) (Ne.symm hnew), hm.2⟩)
  | const t =>
    rcases g.const_cases t with ⟨m, -, -, hsame⟩ | ⟨-, hsize, hnode, -⟩
    · rwa [hsame]
    intro m hm
    rw [mem_live, hsize, Graph.isDead, hnode] at hm
    rw [Graph.op, ty, hnode]
    split_ifs at hm ⊢ with hnew
    · exact ⟨Op.noConfusion, fun own hown => Option.some.inj hown⟩
    · exact hg m (mem_live.mpr ⟨Nat.lt_of_le_of_ne (Nat.le_of_lt_succ hm.1) (Ne.symm hnew), hm.2⟩)

/-- What a round starts from. -/
structure Steady (g : Graph) : Prop where
  filed : g.Filed
  ownTypes : g.OwnTypes

namespace Steady

theorem analyze (hg : g.Steady) (cfg : OptConfig) : (g.analyze cfg).graph.Steady := by
  have htyped (g : Graph) (n : NodeId) (t : Ty) (h : g.Filed) : (g.setTy n t).Filed :=
    h.modifyNode (f := ({ · with ty := t })) (fun _ => rfl) (fun _ => rfl) (fun _ => rfl) n
  refine ⟨analyze_induction (fun g n t h => htyped g n t h) cfg hg.filed, ?_⟩
  refine Analysis.run_induction (P := OwnTypes) (fun g n t h _ hlowers => h.setTy ?_) _ ?_
  · intro own hown hlive
    rw [hlowers.eq_meet (fun hop => by simp [hop, Op.ownType?] at hown)
      (fun hop => by simp [hop, Op.ownType?] at hown), typeOf_of_ownType? hown,
      (h n hlive).2 own hown, Ty.meet_self]
  · obtain ⟨hr, hty⟩ := g.resetTypes_spec
    intro n hn
    rw [hr.live] at hn
    rw [hr.op, hty n hn]
    refine ⟨(hg.ownTypes n hn).1, fun own hown => ?_⟩
    rw [if_pos (hasFixedType_of_ownType? hown)]
    exact (hg.ownTypes n hn).2 own hown

theorem transform (hg : g.Steady) (cfg : OptConfig) : (g.transform cfg).graph.Steady := by
  -- the number of visits stays a variable: it is far too large to be counted down
  obtain ⟨k, htransform⟩ : ∃ k, g.transform cfg = Transform.run cfg k (.ofGraph g) :=
    ⟨Transform.fuel g, by rw [Graph.transform, Transform.ofGraph]⟩
  have hevolves := (@Transform.evolves_ofGraph 0 g).trans
    (Transform.evolves_run cfg k (.ofGraph g) (Nat.zero_le _))
  rw [htransform]
  exact ⟨hevolves.keeps (fun _ _ h => h.filed) hg.filed,
    hevolves.keeps (fun _ _ h => h.ownTypes) hg.ownTypes⟩

theorem sweep (hg : g.Steady) : g.sweep.2.Steady := by
  refine ⟨hg.filed.sweep, fun n hn => ?_⟩
  have hsame := SameBodies.sweep g
  rw [hsame.op, hsame.ty]
  exact hg.ownTypes n ((g.sweep_spec.1 n).mp hn).1

end Steady

end Graph

theorem Optimized.exists_last_round (cfg : OptConfig) (k : Nat) (o : Optimized)
    (hg : o.graph.Steady) (h : (Optimized.rounds cfg k o).1 = true) :
    ∃ g, Graph.Steady g ∧ ((g.analyze cfg).graph.transform cfg).rewrites = 0 ∧
      ((g.analyze cfg).graph.transform cfg).graph.unreachable = [] ∧
      (Optimized.rounds cfg k o).2.graph = ((g.analyze cfg).graph.transform cfg).graph := by
  induction k generalizing o with
  | zero => exact nomatch h
  | succ k ih =>
    obtain ⟨hgraph, hrewrites, hswept⟩ := o.round_spec cfg
    rw [Optimized.rounds] at h ⊢
    split_ifs at h ⊢ with hlast
    · rw [hrewrites, hswept, Nat.add_eq_left, Nat.add_eq_left] at hlast
      obtain ⟨hreached, hsweep⟩ := Graph.sweep_of_unreachable hlast.2
      exact ⟨o.graph, hg, hlast.1, hreached, hgraph.trans hsweep⟩
    · refine ih _ ?_ h
      rw [hgraph]
      exact ((hg.analyze cfg).transform cfg).sweep

namespace Graph

variable {g g' : Graph} {n : NodeId} {cfg : OptConfig}

theorem ty_resetTypes (g : Graph) (hn : n ∉ g.live) : g.resetTypes.ty (some n) = g.ty (some n) := by
  have hkeep (ns : List NodeId) (hns : n ∉ ns) (g' : Graph) :
      (ns.foldl (fun g n => if g.hasFixedType n then g else g.setTy n .top) g').ty (some n) =
        g'.ty (some n) := by
    induction ns generalizing g' with
    | nil => rfl
    | cons m ns ih =>
      rw [List.mem_cons, not_or] at hns
      rw [List.foldl_cons, ih hns.2]
      split_ifs
      · rfl
      · exact ty_setTy_of_ne fun heq => hns.1 (Option.some.inj heq)
  exact hkeep g.live hn g

theorem ty_analyze_of_not_live (cfg : OptConfig) (hn : n ∉ g.live) :
    (g.analyze cfg).graph.ty (some n) = g.ty (some n) := by
  refine (Analysis.run_induction (P := fun g' => g.Retyped g' ∧ g'.ty (some n) = g.ty (some n))
    (fun g' m t h hlive _ => ⟨h.1.trans (g'.retyped_setTy m t), ?_⟩) _
    ⟨g.resetTypes_spec.1, g.ty_resetTypes hn⟩).2
  by_cases hm : m = n
  · subst hm
    have hbig : ¬ m < g'.size := fun hlt =>
      hn (h.1.live ▸ mem_live.mpr ⟨hlt, hlive⟩)
    rw [ty, node_setTy, if_neg fun hc => hbig hc.2]
    exact h.2
  · rw [ty_setTy_of_ne fun heq => hm (Option.some.inj heq).symm]
    exact h.2

theorem renumbered_resetTypes (hg : g.OwnTypes) (ha : (g.analyze cfg).graph.OwnTypes)
    (h : (g.analyze cfg).graph.Renumbered g') : g.resetTypes.Renumbered g'.resetTypes := by
  have hretyped := g.retyped_analyze cfg
  have hdead (n : NodeId) (hn : n ∉ g.live) := ty_analyze_of_not_live cfg hn
  generalize (g.analyze cfg).graph = a at ha h hretyped hdead
  have hr := hretyped.trans h.retyped
  obtain ⟨hreset, hty⟩ := g.resetTypes_spec
  obtain ⟨hreset', hty'⟩ := g'.resetTypes_spec
  refine ⟨hreset.symm.trans (hr.trans hreset'), fun e => ?_⟩
  cases e with
  | none => rfl
  | some n =>
    by_cases hn : n ∈ g.live
    · have hfixed : g'.hasFixedType n = g.hasFixedType n := by simp only [hasFixedType, hr.op]
      rw [hty n hn, hty' n (hr.live ▸ hn), hfixed]
      split_ifs with hkept
      · obtain ⟨t, ht⟩ := isSome_ownType? hkept (hg n hn).1
        have hta : (a.op n).ownType? = some t := by rw [hretyped.op, ht]
        rw [h.ty, (hg n hn).2 t ht, (ha n (hretyped.live ▸ hn)).2 t hta]
      · rfl
    · rw [ty_resetTypes g hn, ty_resetTypes g' (hr.live ▸ hn), h.ty, hdead n hn]

theorem numbered_analyze (g : Graph) (cfg : OptConfig) (hn : (g.node n).numbered) :
    ((g.analyze cfg).graph.node n).numbered := by
  have htyped (g : Graph) (m : NodeId) (t : Ty) :
      ((g.setTy m t).node n).numbered = (g.node n).numbered :=
    field_modifyNode (f := ({ · with ty := t })) (fun _ => rfl) g m n
  exact analyze_induction (P := fun g => (g.node n).numbered)
    (fun g m t h => (htyped g m t).trans h) cfg hn

theorem Filed.equal?_eq_none (hg : g.Filed) (hlive : g.isDead n = false)
    (hnumbered : (g.node n).numbered) : g.equal? n = none := by
  unfold equal?
  rw [hg.marked n hlive hnumbered]
  dsimp only
  split_ifs with _ hother
  · exact absurd rfl hother.1
  · rfl
  · rfl

theorem number_of_numbered (hnumbered : (g.node n).numbered) : g.number n = g := by
  unfold number
  rw [hnumbered, Bool.not_true, Bool.and_false, Bool.false_and, if_neg Bool.false_ne_true]

theorem mergeEqual_of_held {numbering edited : Bool} (hg : g.Filed) (hlive : g.isDead n = false)
    (hheld : g.Held numbering n) : g.mergeEqual numbering n edited = ⟨some n, edited, g⟩ := by
  unfold mergeEqual
  split_ifs with hskip
  · rfl
  rw [Bool.or_eq_true, Bool.not_eq_true', not_or, Bool.not_eq_false, Bool.not_eq_true] at hskip
  by_cases hop : (g.op n).isNumbered
  · have hnumbered := hheld hskip.1 hop hskip.2
    rw [hg.equal?_eq_none hlive hnumbered, number_of_numbered hnumbered]
  · have hequal : g.equal? n = none := by
      unfold equal?
      rw [if_neg hop]
    have hsame : g.number n = g := by
      unfold number
      rw [Bool.eq_false_of_not_eq_true hop, Bool.false_and, Bool.false_and,
        if_neg Bool.false_ne_true]
    rw [hequal, hsame]

/-- Nothing can be done about the live nodes. -/
structure Final (g : Graph) (numbering : Bool) : Prop where
  filed : g.Filed
  unimproved : ∀ n ∈ g.live, g.Unimproved n
  held : ∀ n ∈ g.live, g.Held numbering n

theorem Final.rewrite {numbering : Bool} (h : g.Final numbering) (hn : n ∈ g.live) :
    g.rewrite n numbering = ⟨some n, false, g⟩ := by
  rw [Graph.rewrite, maxLocalSteps, improveAll, (h.unimproved n hn).improve?]
  exact mergeEqual_of_held h.filed (mem_live.mp hn).2 (h.held n hn)

end Graph

namespace Transform

variable {cfg : OptConfig} {t : Transform} {n : NodeId}

theorem visit_final (h : t.graph.Final cfg.numbering) (hn : n ∈ t.graph.live) :
    t.visit cfg n = t := by
  unfold visit
  split_ifs
  · rfl
  · dsimp only
    rw [h.rewrite hn, if_neg Bool.false_ne_true]

theorem run_final (cfg : OptConfig) (k : Nat) (t : Transform) (h : t.graph.Final cfg.numbering)
    (hwork : t.work.Consistent) (hlive : ∀ n ∈ t.work.toList, n ∈ t.graph.live) :
    (t.run cfg k).graph = t.graph ∧ (t.run cfg k).rewrites = t.rewrites := by
  induction k generalizing t with
  | zero => exact ⟨rfl, rfl⟩
  | succ k ih =>
    rw [run]
    split
    case h_1 => exact ⟨rfl, rfl⟩
    case h_2 n w hpop =>
      obtain ⟨hlist, hw⟩ := hwork.pop? hpop
      rw [visit_final (t := { t with work := w }) h (hlive n (hlist ▸ List.mem_cons_self))]
      exact ih { t with work := w } h hw fun m hm => hlive m (hlist ▸ List.mem_cons_of_mem n hm)

end Transform

namespace Graph

variable {g g' : Graph} {n : NodeId} {cfg : OptConfig}

theorem foldl_dropDead_final (t : Transform) (ns : List NodeId)
    (h : ∀ n ∈ ns, t.graph.Unimproved n) : ns.foldl Transform.dropDead t = t := by
  induction ns with
  | nil => rfl
  | cons n ns ih =>
    rw [List.forall_mem_cons] at h
    have hsame : t.dropDead n = t := by
      unfold Transform.dropDead
      rw [h.1.isDeadControl, Bool.and_false, if_neg Bool.false_ne_true]
    rw [List.foldl_cons, hsame]
    exact ih h.2

theorem Final.transform (h : g.Final cfg.numbering) :
    (g.transform cfg).graph = g ∧ (g.transform cfg).rewrites = 0 := by
  -- the number of visits stays a variable: it is far too large to be counted down
  obtain ⟨k, htransform⟩ : ∃ k, g.transform cfg = Transform.run cfg k
      { g.live.foldl Transform.dropDead { graph := g } with
        work := .ofList (g.live.foldl Transform.dropDead { graph := g }).graph.live } :=
    ⟨Transform.fuel g, by rw [Graph.transform]⟩
  rw [htransform, foldl_dropDead_final _ _ h.unimproved]
  obtain ⟨hcons, hmem⟩ := Worklist.pushAll_spec Worklist.consistent_empty g.live
  exact Transform.run_final cfg k { graph := g, work := .ofList g.live } h hcons
    fun n hn => ((hmem n).mp hn).resolve_left List.not_mem_nil

theorem Steady.again (hg : g.Steady)
    (hrewrites : ((g.analyze cfg).graph.transform cfg).rewrites = 0) :
    let left := ((g.analyze cfg).graph.transform cfg).graph
    left.Renumbered (left.analyze cfg).graph ∧ (left.analyze cfg).graph.Final cfg.numbering := by
  dsimp only
  obtain ⟨⟨hr, -⟩, hdone⟩ := unimproved_of_transform hrewrites
  have ha := hg.analyze cfg
  have hleft := ha.transform cfg
  generalize ((g.analyze cfg).graph.transform cfg).graph = left at hr hdone hleft ⊢
  have hagain : left.Renumbered (left.analyze cfg).graph :=
    hr.symm.trans ((renumbered_resetTypes hg.ownTypes ha.ownTypes hr).analyze cfg)
  have hsame := hr.trans hagain
  refine ⟨hagain, (hleft.analyze cfg).filed, fun n hn => ?_, fun n hn => ?_⟩
  all_goals
    rw [hsame.retyped.live] at hn
    obtain ⟨himprove, hheld⟩ := hdone n hn (ha.ownTypes n hn).1
  · exact himprove.of_renumbered hsame.symm
  · exact hheld.marks ⟨hagain, fun m => left.numbered_analyze cfg⟩

theorem Retyped.unreachable (h : g.Retyped g') : g'.unreachable = g.unreachable := by
  have hreachable (k : Nat) (work : List NodeId) (seen : BitSet) :
      g'.reachable k work seen = g.reachable k work seen := by
    induction k generalizing work seen with
    | zero => rfl
    | succ k ih => simp only [reachable, h.inputs, ih]
  simp only [Graph.unreachable, h.size, h.live, hreachable]

end Graph

theorem Optimized.rounds_of_round {cfg : OptConfig} {o : Optimized} (k : Nat)
    (hrewrites : (o.round cfg).stats.rewrites = o.stats.rewrites)
    (hswept : (o.round cfg).stats.swept = o.stats.swept) :
    Optimized.rounds cfg (k + 1) o = (true, o.round cfg) := by
  rw [Optimized.rounds]
  exact if_pos ⟨hrewrites, hswept⟩

/-- Optimizing an optimized graph again takes one round, which changes nothing. -/
theorem optimize_idempotent {g : Graph} {cfg : OptConfig} (hfiled : g.Filed)
    (hown : g.OwnTypes) (h : (g.optimize cfg).1 = .ok ()) :
    let once := (g.optimize cfg).2.graph
    let twice := once.optimize cfg
    twice.1 = .ok () ∧
      twice.2.stats.rounds = 1 ∧ twice.2.stats.rewrites = 0 ∧ twice.2.stats.swept = 0 ∧
      twice.2.graph.size = once.size ∧
      ∀ n, twice.2.graph.op n = once.op n ∧ twice.2.graph.inputs n = once.inputs n ∧
        twice.2.graph.usesOf n = once.usesOf n ∧ twice.2.graph.isDead n = once.isDead n ∧
        twice.2.graph.ty (some n) = once.ty (some n) := by
  have hsettled : (Optimized.rounds cfg cfg.maxRounds { graph := g }).1 = true := by
    unfold Graph.optimize at h
    dsimp only at h
    split_ifs at h with hsettled
    exact hsettled
  obtain ⟨k, hk⟩ : ∃ k, cfg.maxRounds = k + 1 := by
    refine Nat.exists_eq_succ_of_ne_zero fun hzero => ?_
    rw [hzero] at hsettled
    exact nomatch hsettled
  obtain ⟨g', hsteady, hrewrites, hreached, honce⟩ :=
    Optimized.exists_last_round cfg cfg.maxRounds { graph := g } ⟨hfiled, hown⟩ hsettled
  have honce : (g.optimize cfg).2.graph = ((g'.analyze cfg).graph.transform cfg).graph := honce
  -- the last round changed nothing, so the graph is final for one more round
  obtain ⟨hr, hfinal⟩ := hsteady.again hrewrites
  rw [← honce] at hr hfinal hreached
  generalize (g.optimize cfg).2.graph = once at hr hfinal hreached ⊢
  obtain ⟨htransform, hnone⟩ := hfinal.transform
  obtain ⟨hgraph, hrewrites, hswept⟩ := Optimized.round_spec cfg { graph := once }
  have hunreachable : (once.analyze cfg).graph.unreachable = [] :=
    hr.retyped.unreachable.trans hreached
  have hsweep : (once.analyze cfg).graph.sweep = (0, (once.analyze cfg).graph) := by
    unfold Graph.sweep
    rw [hunreachable]
    rfl
  rw [htransform, hsweep] at hgraph hswept
  rw [hnone] at hrewrites
  have hrounds := Optimized.rounds_of_round k hrewrites hswept
  have htwice : once.optimize cfg = (.ok (), Optimized.round cfg { graph := once }) := by
    unfold Graph.optimize
    rw [hk, hrounds]
    rfl
  dsimp only
  rw [htwice]
  refine ⟨rfl, rfl, hrewrites, hswept, ?_⟩
  dsimp only
  rw [hgraph]
  exact ⟨hr.retyped.size, fun n => ⟨hr.retyped.op n, hr.retyped.inputs n, hr.retyped.uses n,
    hr.retyped.isDead n, hr.ty (some n)⟩⟩

def Graph.sumWithZero : Graph :=
  let g := (Graph.empty.add (.param 0) #[some Graph.start] .anyInt).2
  let g := (g.add .startMem #[some Graph.start]).2
  let g := (g.const (.ofInt 0)).2
  let g := (g.add (.arith .add) #[none, some 3, some 5]).2
  let g := (g.add .ret #[some Graph.start, some 4, some 6]).2
  g.pushInput Graph.stop (some 7)

theorem optimize_idempotent_sumWithZero : Graph.sumWithZero.Filed ∧ Graph.sumWithZero.OwnTypes ∧
    (Graph.sumWithZero.optimize {}).1 = .ok () ∧
    (Graph.sumWithZero.optimize {}).2.stats.rewrites = 1 ∧
    ((Graph.sumWithZero.optimize {}).2.graph.optimize {}).2.stats.rewrites = 0 := by
  have hfiled : Graph.sumWithZero.Filed := by
    refine Graph.Filed.updated ?_ (Graph.updated_pushInput _ Graph.stop (some 7)) fun _ => rfl
    exact ((((Graph.exact_empty.filed.add _ _ _).add _ _ _).const _).add _ _ _).add _ _ _
  have hown : Graph.sumWithZero.OwnTypes := by decide +kernel
  have hsettled : (Graph.sumWithZero.optimize {}).1 = .ok () := by decide +kernel
  obtain ⟨-, -, hrewrites, -⟩ := optimize_idempotent hfiled hown hsettled
  exact ⟨hfiled, hown, hsettled, by decide +kernel, hrewrites⟩

end SeaNodes
