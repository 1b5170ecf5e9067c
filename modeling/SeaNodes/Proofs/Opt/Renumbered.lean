import SeaNodes.Proofs.Opt.LastRound

namespace SeaNodes

namespace Graph

variable {g g' : Graph} {n : NodeId} {t : Ty}

namespace Renumbered

theorem setTy (h : g.Renumbered g') (n : NodeId) (t : Ty) :
    (g.setTy n t).Renumbered (g'.setTy n t) := by
  refine ⟨(g.retyped_setTy n t).symm.trans (h.retyped.trans (g'.retyped_setTy n t)), fun e => ?_⟩
  by_cases he : e = some n
  · subst he
    simp only [Graph.ty, node_setTy, h.retyped.size]
    split_ifs
    · rfl
    · exact h.ty (some n)
  · rw [ty_setTy_of_ne he, ty_setTy_of_ne he, h.ty]

theorem settledType (h : g.Renumbered g') (n : NodeId) : g'.settledType n = g.settledType n := by
  unfold Graph.settledType ctrlLive
  simp only [h.typeOf, h.retyped.op, h.retyped.input, h.retyped.decl, h.ty]

end Renumbered

end Graph

namespace Analysis

variable {cfg : OptConfig} {a a' : Analysis}

/-- The states of two analyses that take the same course. -/
structure Abreast (a a' : Analysis) : Prop where
  graph : a.graph.Renumbered a'.graph
  work : a'.work = a.work
  phiChanges : a'.phiChanges = a.phiChanges

theorem Abreast.widen (h : Abreast a a') (cfg : OptConfig) (n : NodeId) (t : Ty) :
    (a'.widen cfg n t).1 = (a.widen cfg n t).1 ∧
      Abreast (a.widen cfg n t).2 (a'.widen cfg n t).2 := by
  unfold Analysis.widen
  rw [h.graph.retyped.op]
  split_ifs
  · dsimp only
    rw [h.phiChanges]
    exact ⟨rfl, ⟨h.graph, h.work, rfl⟩⟩
  · exact ⟨rfl, h⟩

theorem Abreast.visit (h : Abreast a a') (cfg : OptConfig) (n : NodeId) :
    Abreast (a.visit cfg n) (a'.visit cfg n) := by
  unfold Analysis.visit
  dsimp only
  rw [h.graph.ty, h.graph.settledType, h.graph.retyped.isDead]
  split_ifs
  · exact h
  all_goals
    obtain ⟨hnew, hwiden⟩ :=
      h.widen cfg n ((a.graph.ty (some n)).meet (a.graph.settledType n))
    have hgraph := hwiden.graph.setTy n
      (a.widen cfg n ((a.graph.ty (some n)).meet (a.graph.settledType n))).1
    rw [hnew, hgraph.retyped.dependents, hwiden.work]
    exact ⟨hgraph, rfl, hwiden.phiChanges⟩

theorem Abreast.run (h : Abreast a a') (cfg : OptConfig) (k : Nat) :
    Abreast (a.run cfg k) (a'.run cfg k) := by
  induction k generalizing a a' with
  | zero => exact h
  | succ k ih =>
    rw [Analysis.run, Analysis.run, h.work]
    split
    · exact h
    · apply ih
      apply Abreast.visit
      exact ⟨h.graph, rfl, h.phiChanges⟩

end Analysis

namespace Graph

variable {g g' : Graph} {n : NodeId} {e : Edge}

theorem Renumbered.analyze (h : g.resetTypes.Renumbered g'.resetTypes) (cfg : OptConfig) :
    (g.analyze cfg).graph.Renumbered (g'.analyze cfg).graph := by
  have hfuel : Analysis.fuel g'.resetTypes = Analysis.fuel g.resetTypes := by
    simp only [Analysis.fuel, h.retyped.size, h.retyped.live, h.ty]
  unfold Graph.analyze
  dsimp only
  rw [hfuel, h.retyped.live]
  have hstart : Analysis.Abreast { graph := g.resetTypes, work := .ofList g.resetTypes.live }
      { graph := g'.resetTypes, work := .ofList g.resetTypes.live } := ⟨h, rfl, rfl⟩
  exact (hstart.run cfg _).graph

namespace Renumbered

theorem isConst (h : g.Renumbered g') (e : Edge) : g'.isConst e = g.isConst e := by
  simp only [Graph.isConst, h.op?]

theorem constInt? (h : g.Renumbered g') (e : Edge) : g'.constInt? e = g.constInt? e := by
  simp only [Graph.constInt?, h.op?]

theorem isOp (h : g.Renumbered g') (e : Edge) (op : Op) : g'.isOp e op = g.isOp e op := by
  simp only [Graph.isOp, h.op?]

theorem isOpenPhi (h : g.Renumbered g') (n : NodeId) : g'.isOpenPhi n = g.isOpenPhi n := by
  simp only [Graph.isOpenPhi, h.retyped.op, h.retyped.input, h.isOpen]

theorem misordered (h : g.Renumbered g') (n : NodeId) : g'.misordered n = g.misordered n := by
  simp only [Graph.misordered, h.retyped.input, h.isConst]

theorem disjoint (h : g.Renumbered g') (p₁ o₁ p₂ o₂ : Edge) :
    g'.disjoint p₁ o₁ p₂ o₂ = g.disjoint p₁ o₁ p₂ o₂ := by
  simp only [Graph.disjoint, h.constInt?, h.isOp, h.ty]

theorem phiSources (h : g.Renumbered g') (n : NodeId) : g'.phiSources n = g.phiSources n := by
  simp only [Graph.phiSources, h.retyped.input, h.retyped.inputs, h.inputOf, h.ty]

theorem deadPreds (h : g.Renumbered g') (n : NodeId) : g'.deadPreds n = g.deadPreds n := by
  simp only [Graph.deadPreds, h.retyped.inputs, h.ty]

theorem useCount (h : g.Renumbered g') (n : NodeId) : g'.useCount n = g.useCount n := by
  simp only [Graph.useCount, h.retyped.uses]

theorem isFoldable (h : g.Renumbered g') (n : NodeId) : g'.isFoldable n = g.isFoldable n := by
  simp only [Graph.isFoldable, h.retyped.op, h.ty, h.isOpenPhi]

theorem isDeadControl (h : g.Renumbered g') (n : NodeId) :
    g'.isDeadControl n = g.isDeadControl n := by
  simp only [Graph.isDeadControl, h.retyped.op, h.ty]

variable {simp simp' : Simplifier}

theorem isSome_ruleArith (h : g.Renumbered g') (op : ArithOp) :
    (g'.ruleArith simp' op n).isSome = (g.ruleArith simp op n).isSome := by
  unfold ruleArith
  simp only [h.retyped.input, h.constInt?, h.isOp, h.inputOf]
  cases op with
  | add =>
    dsimp only
    split_ifs
    · rfl
    · cases g.constInt? (g.input n 2) with
      | none => rfl
      | some c =>
        cases g.isOp (g.input n 1) (.arith .add) with
        | false => rfl
        | true => cases g.constInt? (g.inputOf (g.input n 1) 2) <;> rfl
  | sub =>
    dsimp only
    split_ifs
    · rfl
    · cases g.constInt? (g.input n 2) with
      | none => rfl
      | some k => simp only [Option.bind_eq_bind, Option.bind_some]; split_ifs <;> rfl
  | mul | div => dsimp only; split_ifs <;> rfl

theorem isSome_ruleBit (h : g.Renumbered g') (op : BitOp) :
    (g'.ruleBit op n).isSome = (g.ruleBit op n).isSome := by
  unfold ruleBit
  simp only [h.retyped.input, h.constInt?]
  cases op <;> dsimp only <;> split_ifs <;> rfl

theorem isSome_ruleNeg (h : g.Renumbered g') : (g'.ruleNeg n).isSome = (g.ruleNeg n).isSome := by
  unfold ruleNeg
  simp only [h.retyped.input, h.isOp]
  split_ifs <;> rfl

theorem isSome_ruleNot (h : g.Renumbered g') :
    (g'.ruleNot simp' n).isSome = (g.ruleNot simp n).isSome := by
  unfold ruleNot
  simp only [h.retyped.input, h.op?, h.inputOf, h.ty]
  split
  · rfl
  · split_ifs <;> rfl
  · rfl

theorem isSome_ruleCmp (h : g.Renumbered g') (op : CmpOp) :
    (g'.ruleCmp op n).isSome = (g.ruleCmp op n).isSome := by
  unfold ruleCmp
  simp only [h.retyped.input]
  split_ifs <;> rfl

theorem isSome_ruleCast (h : g.Renumbered g') : (g'.ruleCast n).isSome = (g.ruleCast n).isSome := by
  unfold ruleCast
  simp only [h.retyped.input, h.retyped.decl, h.ty]
  split_ifs <;> rfl

theorem isSome_rulePhi (h : g.Renumbered g') : (g'.rulePhi n).isSome = (g.rulePhi n).isSome := by
  unfold rulePhi
  simp only [h.retyped.input, h.isOpen, h.phiSources]
  split_ifs
  · rfl
  · split
    · split_ifs <;> rfl
    · rfl

theorem isSome_ruleRegion (h : g.Renumbered g') :
    (g'.ruleRegion n).isSome = (g.ruleRegion n).isSome := by
  unfold ruleRegion
  simp only [h.isOpen, h.deadPreds, h.retyped.inputs, apply_ite Option.isSome, Option.isSome_some,
    Option.isSome_none]

theorem isSome_ruleCtrlProj (h : g.Renumbered g') (i : Nat) :
    (g'.ruleCtrlProj i n).isSome = (g.ruleCtrlProj i n).isSome := by
  unfold ruleCtrlProj
  simp only [h.retyped.input, h.isOp, h.ty]
  split_ifs
  · split
    · split_ifs <;> rfl
    · rfl
  · rfl

theorem isSome_ruleStop (h : g.Renumbered g') : (g'.ruleStop n).isSome = (g.ruleStop n).isSome := by
  unfold ruleStop
  simp only [h.retyped.inputs, h.ty, Option.isSome_map]

theorem isSome_ruleLoad (h : g.Renumbered g') : (g'.ruleLoad n).isSome = (g.ruleLoad n).isSome := by
  unfold ruleLoad
  simp only [h.retyped.input, h.op?, h.inputOf, h.isOp, h.disjoint]
  split
  · split_ifs <;> rfl
  · split_ifs <;> rfl
  · rfl

theorem isSome_ruleStore (h : g.Renumbered g') :
    (g'.ruleStore n).isSome = (g.ruleStore n).isSome := by
  unfold ruleStore
  simp only [h.retyped.input, h.retyped.op, h.useCount]
  split
  · rfl
  · split_ifs <;> rfl

theorem isSome_applyRule (h : g.Renumbered g') :
    (g'.applyRule simp' n).isSome = (g.applyRule simp n).isSome := by
  unfold Graph.applyRule
  simp only [h.retyped.op, h.misordered]
  split_ifs
  · rfl
  · split
    · exact h.isSome_ruleArith _
    · exact h.isSome_ruleBit _
    · exact h.isSome_ruleNeg
    · exact h.isSome_ruleNot
    · exact h.isSome_ruleCmp _
    · exact h.isSome_rulePhi
    · exact h.isSome_ruleRegion
    · exact h.isSome_ruleRegion
    · exact h.isSome_ruleCtrlProj _
    · exact h.isSome_ruleCast
    · exact h.isSome_ruleLoad
    · exact h.isSome_ruleStore
    · exact h.isSome_ruleStop
    · rfl

/-- A node that is improved in one graph is improved in the other, whatever simplifies new nodes. -/
theorem isSome_improve? (h : g.Renumbered g') :
    (g'.improve? simp' n).isSome = (g.improve? simp n).isSome := by
  unfold improve?
  rw [h.isFoldable, h.isDeadControl]
  split_ifs
  · rfl
  · rfl
  · exact h.isSome_applyRule

end Renumbered

theorem Unimproved.improve? (h : g.Unimproved n) (simp : Simplifier) : g.improve? simp n = none := by
  obtain ⟨g', simp', hr, hnone⟩ := h
  have hsame : (g'.improve? simp' n).isSome = (g.improve? simp n).isSome := hr.isSome_improve?
  rw [← Option.isNone_iff_eq_none, ← Option.not_isSome, ← hsame, hnone]
  rfl

end Graph

end SeaNodes
