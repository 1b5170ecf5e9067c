import Mathlib.Algebra.Order.BigOperators.Group.List
import SeaNodes.Opt.Fixpoint
import SeaNodes.Proofs.Graph.WellFormed
import SeaNodes.Proofs.Lattice.Descent
import SeaNodes.Proofs.Sets

namespace SeaNodes

namespace Graph

variable {g g' : Graph} {n d : NodeId} {t : Ty}

/-- The same graph with other types and value numbers. -/
structure Retyped (g g' : Graph) : Prop where
  size : g'.size = g.size
  node : ∀ n, ∃ t b, g'.node n = { g.node n with ty := t, numbered := b }
  uses : ∀ n, g'.usesOf n = g.usesOf n

namespace Retyped

theorem refl (g : Graph) : g.Retyped g :=
  ⟨rfl, fun n => ⟨(g.node n).ty, (g.node n).numbered, rfl⟩, fun _ => rfl⟩

theorem trans {g'' : Graph} (h : g.Retyped g') (h' : g'.Retyped g'') : g.Retyped g'' where
  size := h'.size.trans h.size
  node n := by
    obtain ⟨t, b, ht⟩ := h.node n
    obtain ⟨t', b', ht'⟩ := h'.node n
    exact ⟨t', b', by rw [ht', ht]⟩
  uses n := (h'.uses n).trans (h.uses n)

theorem symm (h : g.Retyped g') : g'.Retyped g where
  size := h.size.symm
  node n := by
    obtain ⟨t, b, ht⟩ := h.node n
    exact ⟨(g.node n).ty, (g.node n).numbered, by rw [ht]⟩
  uses n := (h.uses n).symm

theorem op (h : g.Retyped g') (n : NodeId) : g'.op n = g.op n := by
  obtain ⟨t, b, ht⟩ := h.node n
  rw [Graph.op, ht, Graph.op]

theorem decl (h : g.Retyped g') (n : NodeId) : g'.decl n = g.decl n := by
  obtain ⟨t, b, ht⟩ := h.node n
  rw [Graph.decl, ht, Graph.decl]

theorem inputs (h : g.Retyped g') (n : NodeId) : g'.inputs n = g.inputs n := by
  obtain ⟨t, b, ht⟩ := h.node n
  rw [Graph.inputs, ht, Graph.inputs]

theorem input (h : g.Retyped g') (n : NodeId) (i : Nat) : g'.input n i = g.input n i := by
  rw [input_eq_getElem?, input_eq_getElem?, h.inputs]

theorem isDead (h : g.Retyped g') (n : NodeId) : g'.isDead n = g.isDead n := by
  obtain ⟨t, b, ht⟩ := h.node n
  rw [Graph.isDead, ht, Graph.isDead]

theorem inProgress (h : g.Retyped g') (n : NodeId) :
    (g'.node n).inProgress = (g.node n).inProgress := by
  obtain ⟨t, b, ht⟩ := h.node n
  rw [ht]

theorem live (h : g.Retyped g') : g'.live = g.live := by
  rw [Graph.live, Graph.live, h.size]
  exact List.filter_congr fun n _ => by rw [h.isDead]

theorem dependents (h : g.Retyped g') (n : NodeId) : g'.dependents n = g.dependents n := by
  simp only [Graph.dependents, h.uses, h.op]

end Retyped

theorem node_setTy (g : Graph) (n m : NodeId) (t : Ty) : (g.setTy n t).node m =
    if n = m ∧ n < g.size then { g.node m with ty := t } else g.node m :=
  getD_modify ..

theorem retyped_setTy (g : Graph) (n : NodeId) (t : Ty) : g.Retyped (g.setTy n t) where
  size := Array.size_modify ..
  node m := by
    rw [node_setTy]
    split_ifs
    · exact ⟨t, (g.node m).numbered, rfl⟩
    · exact ⟨(g.node m).ty, (g.node m).numbered, rfl⟩
  uses _ := rfl

theorem ty_setTy_self (h : n < g.size) : (g.setTy n t).ty (some n) = t := by
  rw [ty, node_setTy, if_pos ⟨rfl, h⟩]

theorem ty_setTy_of_ne {e : Edge} (h : e ≠ some n) : (g.setTy n t).ty e = g.ty e := by
  cases e with
  | none => rfl
  | some m =>
    rw [ty, node_setTy, if_neg, ty]
    rintro ⟨rfl, -⟩
    exact h rfl

/-- The type of `n` is computed from that of `d`. -/
def DependsOn (g : Graph) (n d : NodeId) : Prop :=
  some d ∈ g.inputs n ∨ g.op n = .phi ∧ ∃ r, g.input n 0 = some r ∧ some d ∈ g.inputs r

theorem ty_input_setTy (h : ¬ g.DependsOn n d) (i : Nat) :
    (g.setTy d t).ty (g.input n i) = g.ty (g.input n i) :=
  ty_setTy_of_ne fun hi => h (.inl (mem_inputs_of_input hi))

theorem ctrlLive_setTy (h : ¬ g.DependsOn n d) : (g.setTy d t).ctrlLive n = g.ctrlLive n := by
  simp only [ctrlLive, (g.retyped_setTy d t).input, ty_input_setTy h]

/-- A type that `n` does not depend on may change. -/
theorem typeOf_setTy (h : ¬ g.DependsOn n d) : (g.setTy d t).typeOf n = g.typeOf n := by
  have hretyped := g.retyped_setTy d t
  have hty (i : Nat) : (g.setTy d t).ty (g.input n i) = g.ty (g.input n i) := ty_input_setTy h i
  have hregion : (g.setTy d t).regionType n = g.regionType n := by
    unfold regionType
    rw [hretyped.inputs]
    refine List.foldl_ext _ _ _ fun a e he => ?_
    rw [ty_setTy_of_ne]
    rintro rfl
    exact h (.inl (Array.mem_toList_iff.mp (List.mem_of_mem_drop he)))
  have hphi (hop : g.op n = .phi) : (g.setTy d t).phiType n = g.phiType n := by
    have hpred (i : Nat) : (g.setTy d t).ty ((g.setTy d t).inputOf (g.input n 0) i) =
        g.ty (g.inputOf (g.input n 0) i) := by
      have hsame : (g.setTy d t).inputOf (g.input n 0) i = g.inputOf (g.input n 0) i := by
        cases g.input n 0 with
        | none => rfl
        | some r => exact hretyped.input r i
      rw [hsame]
      refine ty_setTy_of_ne fun heq => ?_
      obtain ⟨r, hr, hri⟩ := Option.bind_eq_some_iff.mp heq
      exact h (.inr ⟨hop, r, hr, mem_inputs_of_input hri⟩)
    have hopen : (g.setTy d t).isOpen (g.input n 0) = g.isOpen (g.input n 0) := by
      cases g.input n 0 with
      | none => rfl
      | some r => exact hretyped.inProgress r
    unfold phiType
    dsimp only
    rw [hretyped.input, hty 0, hopen, hretyped.decl, hretyped.inputs]
    split_ifs
    · rfl
    · rfl
    · refine List.foldl_ext _ _ _ fun a ⟨v, i⟩ hv => ?_
      have hvd : v ≠ some d := by
        rintro rfl
        have hmem := List.mem_of_mem_drop hv
        rw [List.mem_zipIdx_iff_getElem?] at hmem
        exact h (.inl (Array.mem_toList_iff.mp (List.mem_of_getElem? hmem)))
      dsimp only
      rw [hpred, ty_setTy_of_ne hvd]
  have hop? : (g.setTy d t).op? (g.input n 0) = g.op? (g.input n 0) := by
    cases g.input n 0 with
    | none => rfl
    | some r => exact congrArg some (hretyped.op r)
  unfold typeOf
  dsimp only
  rw [hretyped.op]
  cases hop : g.op n with
  | phi => exact hphi hop
  | region | loop => exact hregion
  | _ => simp only [ctrlLive_setTy h, hretyped.input, hretyped.decl, hty, hop?]

theorem settledType_setTy (h : ¬ g.DependsOn n d) (hne : n ≠ d) :
    (g.setTy d t).settledType n = g.settledType n := by
  have hretyped := g.retyped_setTy d t
  have hself : (g.setTy d t).ty (some n) = g.ty (some n) :=
    ty_setTy_of_ne fun heq => hne (Option.some.inj heq)
  simp only [settledType, typeOf_setTy h, ctrlLive_setTy h, hretyped.op, hretyped.decl,
    hretyped.input, ty_input_setTy h, hself]

/-- A phi hangs on a region. -/
def PhisOnRegions (g : Graph) : Prop :=
  ∀ n ∈ g.live, g.op n = .phi → ∃ r, g.input n 0 = some r ∧ (g.op r).isRegion

/-- What the analysis relies on: use lists agree with inputs, a removed node has no inputs left, and
a phi that takes control takes it from a region. -/
structure Analyzable (g : Graph) : Prop where
  verified : g.verify = .ok ()
  dead_inputs : ∀ n, g.isDead n → g.inputs n = #[]
  phis : ∀ n ∈ g.live, g.op n = .phi → ∀ r ∈ g.input n 0, (g.op r).isRegion

theorem WellFormed.analyzable (hg : g.WellFormed) (hphis : g.PhisOnRegions) : g.Analyzable where
  verified := hg.verified
  dead_inputs := hg.dead_inputs
  phis n hn hop r hr := by
    obtain ⟨r', hr', hregion⟩ := hphis n hn hop
    obtain rfl := Option.some.inj (hr.symm.trans hr')
    exact hregion

theorem Analyzable.dependents_lt (hg : g.Analyzable) (hd : d ∈ g.live) (hn : n ∈ g.dependents d) :
    n < g.size := by
  obtain ⟨u, hu, hn⟩ := List.mem_flatMap.mp hn
  have hulive := (user_live_of_verify hg.verified hg.dead_inputs hd (Array.mem_toList_iff.mp hu)).2
  rcases List.mem_cons.mp hn with rfl | hn
  · exact (mem_live.mp hulive).1
  · split_ifs at hn
    · have hnu := Array.mem_toList_iff.mp (List.mem_filter.mp hn).1
      exact (mem_live.mp (user_live_of_verify hg.verified hg.dead_inputs hulive hnu).2).1
    · exact absurd hn List.not_mem_nil

theorem mem_dependents (hg : g.Analyzable) (hn : n ∈ g.live) (h : g.DependsOn n d) :
    n ∈ g.dependents d := by
  rw [dependents, List.mem_flatMap]
  have huser {u x : NodeId} (hu : u ∈ g.live) (hx : some x ∈ g.inputs u) :
      u ∈ (g.usesOf x).toList :=
    Array.mem_toList_iff.mpr ((verify_spec hg.verified hu).1 x hx).2
  rcases h with hinput | ⟨hop, r, hr, hrd⟩
  · exact ⟨n, huser hn hinput, List.mem_cons_self⟩
  · have hregion := hg.phis n hn hop r hr
    have hnr := mem_inputs_of_input hr
    have hrlive : r ∈ g.live := by
      refine mem_live.mpr ⟨?_, ((verify_spec hg.verified hn).1 r hnr).1⟩
      by_contra hbig
      rw [inputs_of_size_le (Nat.le_of_not_lt hbig)] at hrd
      exact Array.not_mem_empty _ hrd
    refine ⟨r, huser hrlive hrd, ?_⟩
    rw [if_pos hregion, List.mem_cons, List.mem_filter, beq_iff_eq]
    exact .inr ⟨huser hn hnr, hop⟩

/-- The type of `n` is at or below what follows from its inputs. -/
def IsSettled (g : Graph) (n : NodeId) : Prop :=
  (g.ty (some n)).meet (g.typeOf n) = g.ty (some n)

theorem settledType_of_not_cast (h : g.op n ≠ .cast) : g.settledType n = g.typeOf n := by
  unfold settledType
  dsimp only
  rw [if_neg fun hcast => h hcast.2.1]

theorem settledType_eq_or (g : Graph) (n : NodeId) :
    g.settledType n = g.typeOf n ∨ g.typeOf n = .top := by
  unfold settledType
  dsimp only
  split_ifs with h
  · exact .inr h.1
  · exact .inr h.1
  · exact .inl rfl

/-- A visit of `n` would change nothing. -/
def AtRest (g : Graph) (n : NodeId) : Prop :=
  (g.ty (some n)).meet (g.settledType n) = g.ty (some n)

theorem AtRest.isSettled (h : g.AtRest n) : g.IsSettled n := by
  rcases g.settledType_eq_or n with heq | htop
  · rwa [AtRest, heq] at h
  · rw [IsSettled, htop]
    exact Ty.meet_top _

end Graph

namespace Analysis

variable {cfg : OptConfig} {g : Graph} {a : Analysis} {n : NodeId} {t : Ty} {w : Worklist}

/-- How a visit changes the type of `n`. -/
inductive Lowers (g : Graph) (n : NodeId) : Ty → Prop where
  | meet : Lowers g n ((g.ty (some n)).meet (g.settledType n))
  | widen (hphi : g.op n = .phi) (hint : ((g.ty (some n)).meet (g.settledType n)).isInt) :
      Lowers g n .anyInt

theorem widen_spec (cfg : OptConfig) (a : Analysis) (n : NodeId) (t : Ty) :
    (a.widen cfg n t).2.graph = a.graph ∧ (a.widen cfg n t).2.work = a.work ∧
      (a.widen cfg n t).2.trace = a.trace ∧
      ((a.widen cfg n t).1 = t ∨
        a.graph.op n = .phi ∧ t.isInt ∧ (a.widen cfg n t).1 = .anyInt) := by
  unfold widen
  split_ifs with hphi
  · refine ⟨rfl, rfl, rfl, ?_⟩
    dsimp only
    split_ifs
    · exact .inr ⟨hphi.1, hphi.2, rfl⟩
    · exact .inl rfl
  · exact ⟨rfl, rfl, rfl, .inl rfl⟩

/-- What a visit does: nothing, or it lowers a type and queues what depends on it. -/
theorem visit_cases (cfg : OptConfig) (a : Analysis) (n : NodeId) :
    a.visit cfg n = a ∧
      (a.graph.isDead n ∨
        (a.graph.ty (some n)).meet (a.graph.settledType n) = a.graph.ty (some n)) ∨
    ∃ t, a.graph.isDead n = false ∧
      (a.graph.ty (some n)).meet (a.graph.settledType n) ≠ a.graph.ty (some n) ∧
      Lowers a.graph n t ∧ (a.visit cfg n).graph = a.graph.setTy n t ∧
      (a.visit cfg n).work = a.work.pushAll (a.graph.dependents n) ∧
      (a.visit cfg n).trace =
        if cfg.traceTypes then a.trace.record n (a.graph.ty (some n)) t else a.trace := by
  by_cases hkeep : a.graph.isDead n ∨
      (a.graph.ty (some n)).meet (a.graph.settledType n) = a.graph.ty (some n)
  · refine .inl ⟨?_, hkeep⟩
    unfold visit
    exact if_pos hkeep
  · -- widening counts its own steps, and leaves graph, worklist and trace alone
    obtain ⟨hgraph, hwork, htrace, hnew⟩ :=
      widen_spec cfg a n ((a.graph.ty (some n)).meet (a.graph.settledType n))
    have hvisit : (a.visit cfg n).graph =
          (a.widen cfg n ((a.graph.ty (some n)).meet (a.graph.settledType n))).2.graph.setTy n
            (a.widen cfg n ((a.graph.ty (some n)).meet (a.graph.settledType n))).1 ∧
        (a.visit cfg n).work =
          (a.widen cfg n ((a.graph.ty (some n)).meet (a.graph.settledType n))).2.work.pushAll
            ((a.visit cfg n).graph.dependents n) ∧
        (a.visit cfg n).trace =
          if cfg.traceTypes then
            (a.widen cfg n ((a.graph.ty (some n)).meet (a.graph.settledType n))).2.trace.record n
              (a.graph.ty (some n))
              (a.widen cfg n ((a.graph.ty (some n)).meet (a.graph.settledType n))).1
          else (a.widen cfg n ((a.graph.ty (some n)).meet (a.graph.settledType n))).2.trace := by
      unfold visit
      dsimp only
      rw [if_neg hkeep]
      exact ⟨rfl, rfl, rfl⟩
    rw [hgraph, hwork, htrace] at hvisit
    rw [not_or, Bool.not_eq_true] at hkeep
    refine .inr ⟨_, hkeep.1, hkeep.2, ?_, hvisit.1, ?_, hvisit.2.2⟩
    · rcases hnew with hnew | ⟨hphi, hint, hnew⟩ <;> rw [hnew]
      · exact .meet
      · exact .widen hphi hint
    · rw [hvisit.2.1, hvisit.1, (a.graph.retyped_setTy n _).dependents]

theorem run_induction {P : Graph → Prop}
    (hstep : ∀ g n t, P g → g.isDead n = false → Lowers g n t → P (g.setTy n t)) (k : Nat)
    (h : P a.graph) : P (run cfg k a).graph := by
  induction k generalizing a with
  | zero => exact h
  | succ k ih =>
    rw [run]
    split
    · exact h
    · rename_i n w _
      apply ih
      rcases visit_cases cfg { a with work := w } n with
        ⟨hsame, -⟩ | ⟨t, hlive, -, hlowers, hgraph, -, -⟩
      · rw [hsame]
        exact h
      · rw [hgraph]
        exact hstep _ n t h hlive hlowers

/-- How far the types of a graph can still go down. -/
def slack (g : Graph) : Nat := (g.live.map fun n => (g.ty (some n)).rank).sum

/-- The visits that are still to be made, at most: each time a type goes down, all nodes may have to
be visited again. -/
def remaining (a : Analysis) : Nat := a.graph.size * slack a.graph + a.work.toList.length

/-- Nodes that do not wait are at rest. -/
structure Settling (g : Graph) (a : Analysis) : Prop where
  retyped : g.Retyped a.graph
  work : a.work.Consistent
  waiting : ∀ n ∈ a.work.toList, n < g.size
  atRest : ∀ n ∈ g.live, n ∉ a.work.toList → a.graph.AtRest n

theorem Lowers.rank_lt (h : Lowers g n t)
    (hne : (g.ty (some n)).meet (g.settledType n) ≠ g.ty (some n)) :
    t.rank < (g.ty (some n)).rank := by
  have hlt := Ty.rank_meet_lt hne
  cases h with
  | meet => exact hlt
  | widen _ hint => exact (Ty.rank_anyInt_le hint).trans_lt hlt

theorem Lowers.meet_eq (h : Lowers g n t) : t.meet (g.typeOf n) = t := by
  rcases g.settledType_eq_or n with heq | htop
  · rw [← heq]
    cases h with
    | meet => exact Ty.meet_meet_self _ _
    | widen _ hint => exact Ty.anyInt_meet hint
  · rw [htop]
    exact Ty.meet_top t

theorem Lowers.eq_meet (h : Lowers g n t) (hphi : g.op n ≠ .phi) (hcast : g.op n ≠ .cast) :
    t = (g.ty (some n)).meet (g.typeOf n) := by
  rw [← Graph.settledType_of_not_cast hcast]
  cases h with
  | meet => rfl
  | widen hop => exact absurd hop hphi

theorem Lowers.atRest (h : Lowers g n t) (hn : n < g.size) (hself : ¬ g.DependsOn n n)
    (hne : (g.ty (some n)).meet (g.settledType n) ≠ g.ty (some n)) : (g.setTy n t).AtRest n := by
  have hretyped := g.retyped_setTy n t
  rw [Graph.AtRest, Graph.ty_setTy_self hn]
  by_cases hfrozen : g.typeOf n = .top ∧ g.op n = .cast ∧ g.ctrlLive n ∧
      g.ty (g.input n 1) ≠ .top
  · -- a cast of which nothing is left has its declared type now
    have hold : g.settledType n = if g.ty (some n) = .top then g.decl n else g.ty (some n) :=
      if_pos hfrozen
    have hnew : (g.setTy n t).settledType n = if t = .top then g.decl n else t := by
      unfold Graph.settledType
      dsimp only
      rw [Graph.typeOf_setTy hself, hretyped.op, hretyped.decl, Graph.ctrlLive_setTy hself,
        hretyped.input, Graph.ty_input_setTy hself, Graph.ty_setTy_self hn, if_pos hfrozen]
    cases h with
    | widen hphi => exact absurd (hphi.symm.trans hfrozen.2.1) nofun
    | meet =>
      by_cases htop : g.ty (some n) = .top
      · rw [hnew, hold, if_pos htop, htop, Ty.top_meet, ite_self, Ty.meet_self]
      · rw [hold, if_neg htop, Ty.meet_self] at hne
        exact absurd rfl hne
  · have hnew : (g.setTy n t).settledType n = g.typeOf n := by
      unfold Graph.settledType
      dsimp only
      rw [Graph.typeOf_setTy hself, hretyped.op, Graph.ctrlLive_setTy hself, hretyped.input,
        Graph.ty_input_setTy hself, if_neg hfrozen]
    rw [hnew]
    exact h.meet_eq

theorem slack_setTy_lt (hn : n ∈ g.live) (h : t.rank < (g.ty (some n)).rank) :
    slack (g.setTy n t) < slack g := by
  unfold slack
  rw [(g.retyped_setTy n t).live]
  have hself : (g.setTy n t).ty (some n) = t := Graph.ty_setTy_self (Graph.mem_live.mp hn).1
  refine List.sum_lt_sum _ _ (fun m _ => ?_) ⟨n, hn, ?_⟩
  · by_cases hmn : m = n
    · subst hmn
      rw [hself]
      exact h.le
    · rw [Graph.ty_setTy_of_ne fun heq => hmn (Option.some.inj heq)]
  · rw [hself]
    exact h

theorem Settling.length_le (h : Settling g a) : a.work.toList.length ≤ g.size := by
  rw [← List.length_range (n := g.size)]
  refine (List.subperm_of_subset h.work.nodup fun n hn => ?_).length_le
  exact List.mem_range.mpr (h.waiting n hn)

variable (cfg) in
/-- A visit keeps what does not wait settled, and brings the end nearer. -/
theorem Settling.visit (hg : g.Analyzable) (h : Settling g a) (hpop : a.work.pop? = some (n, w)) :
    Settling g ({ a with work := w }.visit cfg n) ∧
      remaining ({ a with work := w }.visit cfg n) < remaining a := by
  obtain ⟨hlist, hw⟩ := h.work.pop? hpop
  have hwait (m : NodeId) (hm : m ∈ w.toList) : m < g.size :=
    h.waiting m (by rw [hlist]; exact List.mem_cons_of_mem n hm)
  have hlength : a.work.toList.length = w.toList.length + 1 := by rw [hlist, List.length_cons]
  have hold (m : NodeId) (hm : m ∈ g.live) (hmw : m ∉ w.toList) (hmn : m ≠ n) :
      a.graph.AtRest m := by
    refine h.atRest m hm ?_
    rw [hlist, List.mem_cons]
    exact fun hmem => hmem.elim hmn hmw
  rcases visit_cases cfg { a with work := w } n with
    ⟨hsame, hkeep⟩ | ⟨t, hdead, hne, hlowers, hgraph, hwork, -⟩
  · rw [hsame]
    refine ⟨⟨h.retyped, hw, hwait, fun m hm hmw => ?_⟩, ?_⟩
    · by_cases hmn : m = n
      · subst hmn
        refine hkeep.resolve_left ?_
        rw [h.retyped.isDead, (Graph.mem_live.mp hm).2]
        exact Bool.false_ne_true
      · exact hold m hm hmw hmn
    · show a.graph.size * slack a.graph + w.toList.length < remaining a
      rw [remaining, hlength]
      exact Nat.lt_succ_self _
  · dsimp only at hdead hne hlowers hgraph hwork
    have hn : n ∈ g.live :=
      Graph.mem_live.mpr ⟨h.waiting n (by rw [hlist]; exact List.mem_cons_self),
        (h.retyped.isDead n).symm.trans hdead⟩
    have hretyped := h.retyped.trans (a.graph.retyped_setTy n t)
    obtain ⟨hcons, hmem⟩ := Worklist.pushAll_spec hw (a.graph.dependents n)
    rw [h.retyped.dependents] at hmem hcons hwork
    have hsettling : Settling g ({ a with work := w }.visit cfg n) := by
      refine ⟨hgraph ▸ hretyped, hwork ▸ hcons, fun m hm => ?_, fun m hm hmw => ?_⟩
      · rw [hwork, hmem m] at hm
        exact hm.elim (hwait m) (hg.dependents_lt hn)
      · rw [hwork, hmem m, not_or] at hmw
        have hindep : ¬ a.graph.DependsOn m n := by
          intro hdep
          refine hmw.2 (Graph.mem_dependents hg hm ?_)
          simpa only [Graph.DependsOn, h.retyped.inputs, h.retyped.op, h.retyped.input] using hdep
        rw [hgraph]
        by_cases hmn : m = n
        · subst hmn
          exact hlowers.atRest (h.retyped.size ▸ (Graph.mem_live.mp hm).1) hindep hne
        · rw [Graph.AtRest, Graph.settledType_setTy hindep hmn,
            Graph.ty_setTy_of_ne fun heq => hmn (Option.some.inj heq)]
          exact hold m hm hmw.1 hmn
    refine ⟨hsettling, ?_⟩
    have hslack : slack ({ a with work := w }.visit cfg n).graph < slack a.graph := by
      rw [hgraph]
      exact slack_setTy_lt (h.retyped.live ▸ hn) (hlowers.rank_lt hne)
    -- one step down pays for a whole queue
    have hqueue := hsettling.length_le
    unfold remaining
    rw [hsettling.retyped.size, h.retyped.size, hlength]
    have hmul : g.size * slack ({ a with work := w }.visit cfg n).graph + g.size ≤
        g.size * slack a.graph := by
      rw [← Nat.mul_succ]
      exact Nat.mul_le_mul_left _ hslack
    omega

variable (cfg) in
/-- With enough visits the analysis comes to its end. -/
theorem Settling.run (hg : g.Analyzable) (k : Nat) (h : Settling g a) (hk : remaining a ≤ k) :
    Settling g (run cfg k a) ∧ (Analysis.run cfg k a).work.toList = [] := by
  induction k generalizing a with
  | zero =>
    refine ⟨h, List.length_eq_zero_iff.mp ?_⟩
    have hle : (Analysis.run cfg 0 a).work.toList.length ≤ remaining a := Nat.le_add_left _ _
    omega
  | succ k ih =>
    rw [Analysis.run]
    split
    case h_1 hpop => exact ⟨h, Worklist.toList_of_pop? hpop⟩
    case h_2 n w hpop =>
      obtain ⟨hvisit, hlt⟩ := h.visit cfg hg hpop
      exact ih hvisit (by omega)

end Analysis

def Op.passesControl : Op → Bool
  | .region | .loop | .ctrlProj _ | .ret | .call | .callEnd => true
  | _ => false

def Op.makesFloat : Op → Bool
  | .floatArith _ | .toFloat => true
  | _ => false

namespace Ty

/-- What control can be typed. -/
def isCtrl : Ty → Bool
  | .top | .deadCtrl | .ctrl => true
  | _ => false

/-- What a branch can be typed. -/
def isBranch : Ty → Bool
  | .top | .branch .. => true
  | _ => false

/-- What an operation on floats can be typed. -/
def isFloatOrTop : Ty → Bool
  | .top | .float _ => true
  | _ => false

variable {a b : Ty}

theorem isCtrl_meet (ha : a.isCtrl) (hb : b.isCtrl) : (a.meet b).isCtrl := by
  cases a <;> simp only [isCtrl, Bool.false_eq_true] at ha <;> cases b <;>
    first | rfl | exact nomatch hb

theorem isCtrl_asCtrl (a : Ty) : a.asCtrl.isCtrl := by
  cases a <;> rfl

theorem isCtrl_ctrlProj (i : Nat) (a : Ty) : (a.ctrlProj i).isCtrl := by
  cases a with
  | branch t f =>
    unfold ctrlProj
    dsimp only
    split_ifs <;> rfl
  | _ => rfl

theorem isBranch_meet (ha : a.isBranch) (hb : b.isBranch) : (a.meet b).isBranch := by
  cases a with
  | branch t f =>
    cases b with
    | branch t' f' =>
      unfold meet
      split_ifs <;> rfl
    | top => rfl
    | _ => exact nomatch hb
  | top => cases b <;> first | rfl | exact nomatch hb
  | _ => exact nomatch ha

theorem isBranch_branchOn (a : Ty) : a.branchOn.isBranch := by
  unfold branchOn
  split <;> first | rfl | (split_ifs <;> rfl)

theorem isFloatOrTop_meet (ha : a.isFloatOrTop) (hb : b.isFloatOrTop) :
    (a.meet b).isFloatOrTop := by
  cases a with
  | float x =>
    cases b with
    | float y =>
      unfold meet
      split_ifs <;> rfl
    | top => rfl
    | _ => exact nomatch hb
  | top => cases b <;> first | rfl | exact nomatch hb
  | _ => exact nomatch ha

theorem eq_ctrl_of_meet (ha : a.isCtrl) (h : a.meet .ctrl = a) : a = .ctrl := by
  cases a with
  | ctrl => rfl
  | top | deadCtrl => exact nomatch h
  | _ => exact nomatch ha

end Ty

namespace Graph

variable {g : Graph} {n : NodeId}

theorem isCtrl_typeOf (h : (g.op n).passesControl) : (g.typeOf n).isCtrl := by
  have hregion : (g.regionType n).isCtrl := by
    unfold regionType
    refine List.foldlRecOn (motive := fun t : Ty => t.isCtrl) _ _ rfl fun t ht e _ => ?_
    exact Ty.isCtrl_meet ht (Ty.isCtrl_asCtrl _)
  unfold typeOf
  dsimp only
  cases hop : g.op n with
  | region | loop => exact hregion
  | ctrlProj i => exact Ty.isCtrl_ctrlProj i _
  | ret | call | callEnd => exact Ty.isCtrl_asCtrl _
  | _ =>
    rw [hop] at h
    exact nomatch h

theorem isBranch_typeOf (h : g.op n = .fork) : (g.typeOf n).isBranch := by
  unfold typeOf
  dsimp only
  rw [h]
  dsimp only
  split_ifs
  · exact Ty.isBranch_branchOn _
  · rfl

theorem isFloatOrTop_typeOf (h : (g.op n).makesFloat) : (g.typeOf n).isFloatOrTop := by
  unfold typeOf
  dsimp only
  cases hop : g.op n with
  | floatArith op =>
    dsimp only [Ty.floatArith]
    split <;> rfl
  | toFloat =>
    dsimp only [Ty.toFloat]
    split_ifs
    · rfl
    · split <;> rfl
  | _ =>
    rw [hop] at h
    exact nomatch h

/-- Control, branches and floats have types of their kinds. -/
structure Kinds (g : Graph) : Prop where
  ctrl : ∀ n ∈ g.live, (g.op n).passesControl → (g.ty (some n)).isCtrl
  fork : ∀ n ∈ g.live, g.op n = .fork → (g.ty (some n)).isBranch
  float : ∀ n ∈ g.live, (g.op n).makesFloat → (g.ty (some n)).isFloatOrTop

theorem Kinds.setTy {t : Ty} (h : g.Kinds) (hlowers : Analysis.Lowers g n t) :
    (g.setTy n t).Kinds := by
  have hretyped := g.retyped_setTy n t
  have hkept (isA : Op → Prop) (kind : Ty → Bool)
      (hg : ∀ m ∈ g.live, isA (g.op m) → kind (g.ty (some m)))
      (hphi : ¬ isA .phi) (hcast : ¬ isA .cast)
      (hkind : ∀ {a b}, kind a → kind b → kind (a.meet b))
      (htype : isA (g.op n) → kind (g.typeOf n)) :
      ∀ m ∈ (g.setTy n t).live, isA ((g.setTy n t).op m) → kind ((g.setTy n t).ty (some m)) := by
    intro m hm hop
    rw [hretyped.live] at hm
    rw [hretyped.op] at hop
    by_cases hmn : m = n
    · subst hmn
      rw [ty_setTy_self (mem_live.mp hm).1,
        hlowers.eq_meet (fun h => hphi (h ▸ hop)) (fun h => hcast (h ▸ hop))]
      exact hkind (hg m hm hop) (htype hop)
    · rw [ty_setTy_of_ne fun heq => hmn (Option.some.inj heq)]
      exact hg m hm hop
  exact ⟨hkept (·.passesControl) Ty.isCtrl h.ctrl nofun nofun Ty.isCtrl_meet isCtrl_typeOf,
    hkept (· = .fork) Ty.isBranch h.fork nofun nofun Ty.isBranch_meet isBranch_typeOf,
    hkept (·.makesFloat) Ty.isFloatOrTop h.float nofun nofun Ty.isFloatOrTop_meet
      isFloatOrTop_typeOf⟩

/-- A start that is live control stays so. -/
theorem ty_start_setTy {t : Ty} (hop : g.op start = .start) (hty : g.ty (some start) = .ctrl)
    (hlowers : Analysis.Lowers g n t) : (g.setTy n t).ty (some start) = .ctrl := by
  by_cases hn : n = start
  · subst hn
    have htype : g.typeOf start = .ctrl := by simp only [typeOf, hop]
    have ht := hlowers.eq_meet (by simp [hop]) (by simp [hop])
    rw [hty, htype] at ht
    rw [ty, node_setTy]
    split_ifs
    · exact ht
    · exact hty
  · rw [ty_setTy_of_ne fun heq => hn (Option.some.inj heq).symm]
    exact hty

theorem resetTypes_spec (g : Graph) : g.Retyped g.resetTypes ∧ ∀ n ∈ g.live,
    g.resetTypes.ty (some n) = if g.hasFixedType n then g.ty (some n) else .top := by
  -- over the nodes that are still to come, whichever were reset before
  have hgo (ns : List NodeId) (hns : ∀ n ∈ ns, n < g.size) (g' : Graph) (hg' : g.Retyped g') :
      g.Retyped (ns.foldl (fun g n => if g.hasFixedType n then g else g.setTy n .top) g') ∧
      ∀ n, (ns.foldl (fun g n => if g.hasFixedType n then g else g.setTy n .top) g').ty (some n) =
        if n ∈ ns ∧ g.hasFixedType n = false then .top else g'.ty (some n) := by
    induction ns generalizing g' with
    | nil => exact ⟨hg', fun n => (if_neg fun h => absurd h.1 List.not_mem_nil).symm⟩
    | cons m ns ih =>
      rw [List.forall_mem_cons] at hns
      have hfixed : g'.hasFixedType m = g.hasFixedType m := by
        simp only [hasFixedType, hg'.op]
      rw [List.foldl_cons, hfixed]
      by_cases hm : g.hasFixedType m
      · rw [if_pos hm]
        obtain ⟨hretyped, hty⟩ := ih hns.2 g' hg'
        refine ⟨hretyped, fun n => (hty n).trans (if_congr ?_ rfl rfl)⟩
        rw [List.mem_cons]
        refine and_congr_left fun hn => ⟨.inr, fun h => h.resolve_left fun heq => ?_⟩
        rw [heq, hm] at hn
        exact nomatch hn
      · rw [if_neg hm]
        obtain ⟨hretyped, hty⟩ := ih hns.2 (g'.setTy m .top) (hg'.trans (g'.retyped_setTy m .top))
        refine ⟨hretyped, fun n => (hty n).trans ?_⟩
        have hlt : m < g'.size := hg'.size ▸ hns.1
        by_cases hnm : n = m
        · subst hnm
          rw [ty_setTy_self hlt, ite_self, if_pos ⟨List.mem_cons_self, by simpa using hm⟩]
        · rw [ty_setTy_of_ne fun heq => hnm (Option.some.inj heq)]
          exact if_congr (by simp [hnm]) rfl rfl
  obtain ⟨hretyped, hty⟩ := hgo g.live (fun n hn => (mem_live.mp hn).1) g (.refl g)
  refine ⟨hretyped, fun n hn => (hty n).trans ?_⟩
  by_cases hfixed : g.hasFixedType n
  · rw [if_pos hfixed, if_neg fun h => by simp [hfixed] at h]
  · rw [if_neg hfixed, if_pos ⟨hn, by simpa using hfixed⟩]

theorem kinds_resetTypes (g : Graph) : g.resetTypes.Kinds := by
  obtain ⟨hretyped, htop⟩ := g.resetTypes_spec
  have hkind (isA : Op → Prop) (kind : Ty → Bool)
      (hfixed : ∀ n, isA (g.op n) → g.hasFixedType n = false) (hkind : kind .top) :
      ∀ n ∈ g.resetTypes.live, isA (g.resetTypes.op n) → kind (g.resetTypes.ty (some n)) := by
    intro n hn h
    rw [hretyped.live] at hn
    rw [hretyped.op] at h
    rw [htop n hn, hfixed n h]
    exact hkind
  refine ⟨hkind (·.passesControl) Ty.isCtrl (fun n h => ?_) rfl,
    hkind (· = .fork) Ty.isBranch (fun n h => ?_) rfl,
    hkind (·.makesFloat) Ty.isFloatOrTop (fun n h => ?_) rfl⟩
  · unfold hasFixedType
    cases hop : g.op n <;> rw [hop] at h <;> first | rfl | exact nomatch h
  · simp only [hasFixedType, h]
  · unfold hasFixedType
    cases hop : g.op n <;> rw [hop] at h <;> first | rfl | exact nomatch h

/-- The types are at or below what follows from the graph. -/
structure Analyzed (g : Graph) : Prop where
  settled : ∀ n ∈ g.live, g.op n ≠ .cast → g.IsSettled n
  kinds : g.Kinds

theorem foldr_height_le (g : Graph) (ns : List NodeId) :
    (ns.map fun n => (g.ty (some n)).rank).sum + 1 ≤
      ns.foldr (fun n k => (g.ty (some n)).height + k) 1 := by
  induction ns with
  | nil => exact le_rfl
  | cons n ns ih =>
    have := (g.ty (some n)).rank_le_height
    rw [List.map_cons, List.sum_cons, List.foldr_cons]
    omega

/-- The analysis changes nothing but types. -/
theorem retyped_analyze (g : Graph) (cfg : OptConfig) : g.Retyped (g.analyze cfg).graph :=
  Analysis.run_induction (P := g.Retyped)
    (fun _ _ _ h _ _ => h.trans (retyped_setTy ..)) _ g.resetTypes_spec.1

theorem ty_start_analyze (hop : g.op start = .start) (hlive : start ∈ g.live)
    (hty : g.ty (some start) = .ctrl) (cfg : OptConfig) :
    (g.analyze cfg).graph.ty (some start) = .ctrl := by
  obtain ⟨hretyped, htop⟩ := g.resetTypes_spec
  have hfixed : g.hasFixedType start = true := by simp only [hasFixedType, hop]
  refine (Analysis.run_induction (P := fun g => g.op start = .start ∧ g.ty (some start) = .ctrl)
    (fun g n t h _ hlowers =>
      ⟨(g.retyped_setTy n t).op _ |>.trans h.1, ty_start_setTy h.1 h.2 hlowers⟩)
    _ ⟨(hretyped.op _).trans hop, ?_⟩).2
  exact (htop start hlive).trans ((if_pos hfixed).trans hty)

/-- Where an analysis starts: all types unknown, all nodes waiting. -/
def analysisStart (g : Graph) : Analysis :=
  { graph := g.resetTypes, work := .ofList g.resetTypes.live }

theorem analyze_eq_run (g : Graph) (cfg : OptConfig) :
    g.analyze cfg = Analysis.run cfg (Analysis.fuel g.resetTypes) g.analysisStart := rfl

theorem settling_start (g : Graph) : Analysis.Settling g g.analysisStart := by
  obtain ⟨hretyped, -⟩ := g.resetTypes_spec
  obtain ⟨hcons, hmem⟩ := Worklist.pushAll_spec Worklist.consistent_empty g.resetTypes.live
  have hwait : ∀ n ∈ (Worklist.ofList g.resetTypes.live).toList, n ∈ g.live := fun n hn =>
    hretyped.live ▸ ((hmem n).mp hn).resolve_left List.not_mem_nil
  exact ⟨hretyped, hcons, fun n hn => (mem_live.mp (hwait n hn)).1,
    fun n hn hnot => absurd ((hmem n).mpr (.inr (hretyped.live ▸ hn))) hnot⟩

theorem remaining_start_le (g : Graph) :
    Analysis.remaining g.analysisStart ≤ Analysis.fuel g.resetTypes := by
  have hsum := g.resetTypes.foldr_height_le g.resetTypes.live
  have hlength := g.settling_start.length_le
  rw [← g.resetTypes_spec.1.size] at hlength
  calc Analysis.remaining g.analysisStart
      ≤ g.resetTypes.size * Analysis.slack g.resetTypes + g.resetTypes.size :=
        Nat.add_le_add_left hlength _
    _ = g.resetTypes.size * (Analysis.slack g.resetTypes + 1) := (Nat.mul_succ _ _).symm
    _ ≤ Analysis.fuel g.resetTypes := Nat.mul_le_mul_left _ hsum

theorem Analyzable.analyze (hg : g.Analyzable) (cfg : OptConfig) :
    Analysis.Settling g (g.analyze cfg) ∧ (g.analyze cfg).work.toList = [] :=
  g.settling_start.run cfg hg (Analysis.fuel g.resetTypes) g.remaining_start_le

theorem isSettled_analyze (hg : g.WellFormed) (hphis : g.PhisOnRegions) (cfg : OptConfig)
    (hn : n ∈ g.live) : (g.analyze cfg).graph.IsSettled n := by
  obtain ⟨hend, hempty⟩ := (hg.analyzable hphis).analyze cfg
  refine (hend.atRest n hn ?_).isSettled
  rw [hempty]
  exact List.not_mem_nil

theorem analyzed_analyze (hg : g.WellFormed) (hphis : g.PhisOnRegions) (cfg : OptConfig) :
    (g.analyze cfg).graph.Analyzed :=
  ⟨fun _ hn _ => isSettled_analyze hg hphis cfg ((g.retyped_analyze cfg).live ▸ hn),
    Analysis.run_induction (P := Kinds) (fun _ _ _ h _ hlowers => h.setTy hlowers) _
      g.kinds_resetTypes⟩

end Graph

end SeaNodes
