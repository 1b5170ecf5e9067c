import SeaNodes.Build.Function
import SeaNodes.Proofs.Opt.Evolves

namespace SeaNodes

namespace Graph

variable {g g' g'' : Graph} {n : NodeId} {e : Edge}

/-- The links are in order, and what led to a node still does. -/
structure Extends (g g' : Graph) : Prop where
  linked : g'.Linked
  leads : ∀ e, g.Leads e → g'.Leads e

namespace Extends

theorem refl (h : g.Linked) : g.Extends g := ⟨h, fun _ => id⟩

theorem trans (h : g.Extends g') (h' : g'.Extends g'') : g.Extends g'' :=
  ⟨h'.linked, fun e he => h'.leads e (h.leads e he)⟩

theorem of_evolves {old : Nat} (h : Evolves old g g') (hlinked : g'.Linked) : g.Extends g' :=
  ⟨hlinked, fun _ => h.leads⟩

theorem of_sameBodies (h : g.SameBodies g') (hlinked : g'.Linked) : g.Extends g' :=
  ⟨hlinked, fun _ he => he.of_sameBodies h⟩

theorem setInput (h : g.Linked) (n : NodeId) (i : Nat) (he : g.Leads e) :
    g.Extends (g.setInput n i e) :=
  .of_sameBodies (.setInput g n i e) (h.setInput he n i)

theorem pushInput (h : g.Linked) (n : NodeId) (he : g.Leads e) : g.Extends (g.pushInput n e) :=
  .of_sameBodies (.of_updated (g.updated_pushInput n e) fun _ => rfl) (h.pushInput he n)

theorem kill (h : g.Linked) (n : NodeId) : g.Extends (g.kill n) :=
  .of_sameBodies (.reapAll none _ [n] g) (h.reapAll none _ [n])

theorem removeInput (h : g.Linked) (n : NodeId) (i : Nat) : g.Extends (g.removeInput n i) :=
  .of_sameBodies (.of_updated (g.updated_removeInput n i) fun _ => rfl) (h.removeInput n i)

theorem modifyNode {f : Node → Node} (h : g.Linked) (hop : ∀ x, (f x).op = x.op)
    (hinputs : ∀ x, (f x).inputs = x.inputs) (hdead : ∀ x, (f x).dead = x.dead) (n : NodeId) :
    g.Extends (g.modifyNode n f) := by
  refine ⟨h.modifyNode hop hinputs hdead n, fun e he m hm => ?_⟩
  obtain ⟨hlt, hscope⟩ := he m hm
  exact ⟨(size_modifyNode g n f).symm ▸ hlt,
    fun heq => hscope ((field_modifyNode hop g n m).symm.trans heq)⟩

theorem add (h : g.Linked) (op : Op) {xs : Array Edge} (hxs : ∀ e ∈ xs, g.Leads e) (decl : Ty) :
    g.Extends (g.add op xs decl).2 := by
  obtain ⟨hsize, hnode, -⟩ := g.add_spec op xs decl
  refine ⟨h.add op hxs decl, fun e he m hm => ?_⟩
  obtain ⟨hlt, hscope⟩ := he m hm
  refine ⟨hsize ▸ Nat.lt_succ_of_lt hlt, ?_⟩
  rwa [Graph.op, hnode, if_neg hlt.ne']

theorem setLabel (h : g.Linked) (n : NodeId) (text : String) : g.Extends (g.setLabel n text) :=
  ⟨h.congr ⟨rfl, fun _ => rfl, fun _ => rfl, fun _ => rfl⟩ (fun _ => id) h.entry, fun _ => id⟩

theorem dropLast (h : g.Linked) (scope : NodeId) : g.Extends (g.dropLast scope) := by
  have hremoved := removeInput h scope ((g.inputs scope).size - 1)
  unfold Graph.dropLast
  dsimp only
  split
  · split_ifs
    · exact hremoved.trans (kill hremoved.linked _)
    · exact hremoved
  · exact hremoved

theorem truncate (h : g.Linked) (scope : NodeId) (length : Nat) :
    g.Extends (g.truncate scope length) := by
  unfold Graph.truncate
  generalize (g.inputs scope).size - length = k
  induction k with
  | zero => exact .refl h
  | succ k ih => exact ih.trans (dropLast ih.linked scope)

end Extends

theorem leads_add (g : Graph) {op : Op} (hop : op ≠ .scope) (xs : Array Edge) (decl : Ty) :
    (g.add op xs decl).2.Leads (some (g.add op xs decl).1) := by
  obtain ⟨hsize, hnode, -⟩ := g.add_spec op xs decl
  refine leads_some.mpr ⟨hsize ▸ Nat.lt_succ_self g.size, ?_⟩
  show ((g.add op xs decl).2.node g.size).op ≠ .scope
  rwa [hnode, if_pos rfl]

end Graph

namespace Build

variable {α β : Type} {g₀ : Graph} {Q : Graph → α → Prop} {R : Graph → β → Prop}

/-- From any graph that extends `g₀` the action comes to one that extends it, and its result, if there
is one, is as `Q` says. -/
def Keeps (g₀ : Graph) (m : Build α) (Q : Graph → α → Prop) : Prop :=
  ∀ b : Builder, g₀.Extends b.graph →
    b.graph.Extends (m.run b).2.graph ∧ ∀ a, (m.run b).1 = .ok a → Q (m.run b).2.graph a

/-- Any result will do. -/
def any (_ : Graph) (_ : α) : Prop := True

theorem run_bind (m : Build α) (f : α → Build β) (b : Builder) :
    (m >>= f).run b = ExceptT.bindCont f (m.run b).1 (m.run b).2 := rfl

namespace Keeps

theorem bind {m : Build α} {f : α → Build β} (hm : Keeps g₀ m Q)
    (hf : ∀ a g, g₀.Extends g → Q g a → Keeps g (f a) R) : Keeps g₀ (m >>= f) R := by
  intro b hb
  obtain ⟨hext, hq⟩ := hm b hb
  rcases hres : m.run b with ⟨_ | a, b'⟩ <;> rw [hres] at hext hq
  · rw [run_bind, hres]
    exact ⟨hext, fun a ha => by cases ha⟩
  · obtain ⟨hext', hr⟩ := hf a b'.graph (hb.trans hext) (hq a rfl) b' (.refl hext.linked)
    rw [run_bind, hres]
    exact ⟨hext.trans hext', hr⟩

theorem pure {a : α} (h : ∀ g, g₀.Extends g → Q g a) : Keeps g₀ (pure a) Q :=
  fun b hb => ⟨.refl hb.linked, fun _ ha => Except.ok.inj ha ▸ h b.graph hb⟩

theorem throw (e : Fault) : Keeps g₀ (throw e : Build α) Q :=
  fun b hb => ⟨.refl hb.linked, fun a ha => by cases ha⟩

theorem get : Keeps g₀ (get : Build Builder) fun g b => b.graph = g :=
  fun b hb => ⟨.refl hb.linked, fun a ha => by cases ha; rfl⟩

theorem modifyGet {f : Builder → α × Builder}
    (h : ∀ b : Builder, g₀.Extends b.graph →
      b.graph.Extends (f b).2.graph ∧ Q (f b).2.graph (f b).1) :
    Keeps g₀ (modifyGet f : Build α) Q :=
  fun b hb => ⟨(h b hb).1, fun a ha => by cases ha; exact (h b hb).2⟩

theorem modify {f : Builder → Builder}
    (h : ∀ b : Builder, g₀.Extends b.graph → b.graph.Extends (f b).graph) :
    Keeps g₀ (modify f : Build Unit) any :=
  fun b hb => ⟨h b hb, fun _ _ => trivial⟩

theorem ite {c : Prop} [Decidable c] {m m' : Build α} (hm : c → Keeps g₀ m Q)
    (hm' : ¬ c → Keeps g₀ m' Q) : Keeps g₀ (if c then m else m') Q := by
  split_ifs with h
  · exact hm h
  · exact hm' h

theorem throwIf {c : Prop} [Decidable c] {e : Fault} {rest : PUnit → Build α}
    (h : ¬ c → Keeps g₀ (rest ⟨⟩) Q) : Keeps g₀ (if c then MonadExcept.throw e >>= rest else rest ⟨⟩) Q := by
  split_ifs with hc
  · exact (Keeps.throw (Q := fun _ _ => False) e).bind fun _ _ _ => False.elim
  · exact h hc

theorem forIn {γ : Type} (l : List γ) {f : γ → β → Build (ForInStep β)} (init : β)
    (h : ∀ x ∈ l, ∀ r g, g₀.Extends g → Keeps g (f x r) any) :
    Keeps g₀ (forIn l init f) any := by
  induction l generalizing init g₀ with
  | nil => exact .pure fun _ _ => trivial
  | cons x l ih =>
    rw [List.forall_mem_cons] at h
    rw [List.forIn_cons]
    intro b hb
    refine ((h.1 init b.graph hb).bind fun r g hg _ => ?_) b (.refl hb.linked)
    cases r with
    | done r => exact .pure fun _ _ => trivial
    | yield r => exact ih r fun x hx r g' hg' => h.2 x hx r g' ((hb.trans hg).trans hg')

theorem mapM {γ : Type} (l : List γ) {f : γ → Build α} {P : Graph → α → Prop}
    (hP : ∀ g g' a, g.Extends g' → P g a → P g' a)
    (h : ∀ x ∈ l, ∀ g, g₀.Extends g → Keeps g (f x) P) :
    Keeps g₀ (l.mapM f) fun g as => ∀ a ∈ as, P g a := by
  induction l generalizing g₀ with
  | nil => exact .pure fun _ _ a ha => absurd ha List.not_mem_nil
  | cons x l ih =>
    rw [List.forall_mem_cons] at h
    rw [List.mapM_cons]
    intro b hb
    have hcons : Keeps b.graph (do return (← f x) :: (← l.mapM f)) fun g as => ∀ a ∈ as, P g a := by
      refine (h.1 b.graph hb).bind fun a g hg ha => ?_
      refine (ih fun x hx g' hg' => h.2 x hx g' ((hb.trans hg).trans hg')).bind
        fun as g' hg' has => .pure fun g'' hg'' => ?_
      rw [List.forall_mem_cons]
      exact ⟨hP _ _ a (hg'.trans hg'') ha, fun a' ha' => hP _ _ a' hg'' (has a' ha')⟩
    exact hcons b (.refl hb.linked)

theorem reads {m : Build α} {f : Builder → Except Fault α} (hm : ∀ b, m.run b = (f b, b))
    (h : ∀ b : Builder, g₀.Extends b.graph → ∀ a, f b = .ok a → Q b.graph a) : Keeps g₀ m Q := by
  intro b hb
  rw [hm]
  exact ⟨.refl hb.linked, h b hb⟩

end Keeps

theorem keeps_graph : Keeps g₀ graph fun g x => x = g :=
  .reads (f := fun b => .ok b.graph) (fun _ => rfl) fun _ _ _ ha => (Except.ok.inj ha).symm

theorem keeps_modifyGraph {f : Graph → Graph} (h : ∀ g, g₀.Extends g → g.Extends (f g)) :
    Keeps g₀ (modifyGraph f) any :=
  .modify fun b hb => h b.graph hb

theorem keeps_editGraph {f : Graph → α × Graph}
    (h : ∀ g, g₀.Extends g → g.Extends (f g).2 ∧ Q (f g).2 (f g).1) :
    Keeps g₀ (editGraph f) Q :=
  .modifyGet fun b hb => h b.graph hb

theorem keeps_resolve (t : TypeExpr) : Keeps g₀ (resolve t) any := by
  intro b hb
  have hgraph : ((resolve t).run b).2.graph = b.graph := rfl
  rw [hgraph]
  exact ⟨.refl hb.linked, fun _ _ => trivial⟩

theorem keeps_const (t : Ty) : Keeps g₀ (const t) Graph.Leads :=
  keeps_editGraph fun g hg =>
    have hc := Graph.Yields.constEdge (Nat.zero_le g.size) t
    have hlinks := hc.links hg.linked
    ⟨.of_evolves hc.evolves hlinks.1, hlinks.2⟩

theorem keeps_add {op : Op} {xs : Array Edge} (hop : op ≠ .scope) (hxs : ∀ e ∈ xs, g₀.Leads e)
    (decl : Ty) : Keeps g₀ (add op xs decl) fun g n => g.Leads (some n) :=
  keeps_editGraph fun g hg =>
    ⟨.add hg.linked op (fun e he => hg.leads e (hxs e he)) decl, g.leads_add hop xs decl⟩

theorem keeps_simplifyNew {n : NodeId} (hn : g₀.Leads (some n)) :
    Keeps g₀ (simplifyNew n) Graph.Leads :=
  keeps_editGraph fun _ hg =>
    have hc := Graph.yields_peephole (hg.leads _ hn)
    have hlinks := hc.links hg.linked
    ⟨.of_evolves hc.evolves hlinks.1, hlinks.2⟩

theorem keeps_node {op : Op} {xs : Array Edge} (hop : op ≠ .scope) (hxs : ∀ e ∈ xs, g₀.Leads e)
    (decl : Ty) : Keeps g₀ (node op xs decl) Graph.Leads :=
  (keeps_add hop hxs decl).bind fun _ _ _ hn => keeps_simplifyNew hn

theorem keeps_labelled {op : Op} {xs : Array Edge} (label : String) (hop : op ≠ .scope)
    (hxs : ∀ e ∈ xs, g₀.Leads e) (decl : Ty) :
    Keeps g₀ (labelled label op xs decl) Graph.Leads :=
  (keeps_add hop hxs decl).bind fun n _ _ hn =>
    (keeps_modifyGraph fun _ hg => .setLabel hg.linked n label).bind
      fun _ _ hg _ => keeps_simplifyNew (hg.leads _ hn)

theorem keeps_tyOf (e : Edge) : Keeps g₀ (tyOf e) any :=
  .reads (f := fun b => .ok (b.graph.ty e)) (fun _ => rfl) fun _ _ _ _ => trivial

theorem keeps_scopeInput (i : Nat) : Keeps g₀ (scopeInput i) Graph.Leads :=
  .reads (f := fun b => .ok (b.graph.input b.scope i)) (fun _ => rfl) fun b hb _ ha =>
    Except.ok.inj ha ▸ hb.linked.leads_input b.scope i

theorem keeps_setScopeInput (i : Nat) {e : Edge} (he : g₀.Leads e) :
    Keeps g₀ (setScopeInput i e) any :=
  .modify fun b hb => .setInput hb.linked b.scope i (hb.leads e he)

theorem keeps_unreachable : Keeps g₀ unreachable any :=
  .reads (f := fun b => .ok (b.graph.input b.scope ctrlSlot == some Graph.deadCtrl)) (fun _ => rfl)
    fun _ _ _ _ => trivial

theorem keeps_scopeLength : Keeps g₀ scopeLength any :=
  .reads (f := fun b => .ok (b.graph.inputs b.scope).size) (fun _ => rfl) fun _ _ _ _ => trivial

theorem keeps_slotOf (name : String) : Keeps g₀ (slotOf name) any := by
  refine Keeps.get.bind fun b g _ _ => ?_
  split
  · exact .pure fun _ _ => trivial
  · exact .throw _

theorem keeps_readVar (name : String) : Keeps g₀ (readVar name) Graph.Leads :=
  (keeps_slotOf name).bind fun slot _ _ _ => keeps_scopeInput (firstVar + slot)

theorem keeps_varType (name : String) : Keeps g₀ (varType name) any :=
  (keeps_slotOf name).bind fun _ _ _ _ => Keeps.get.bind fun _ _ _ _ => .pure fun _ _ => trivial

theorem keeps_writeVar (name : String) {e : Edge} (he : g₀.Leads e) :
    Keeps g₀ (writeVar name e) any :=
  (keeps_slotOf name).bind fun _ _ hg _ => keeps_setScopeInput _ (hg.leads e he)

theorem keeps_declare (name : String) (t : Ty) {e : Edge} (he : g₀.Leads e) :
    Keeps g₀ (declare name t e) any := by
  refine keeps_scopeLength.bind fun length g hg _ => Keeps.get.bind fun b g' hg' _ => ?_
  split
  · exact .throw _
  · dsimp only
    exact .throwIf fun _ =>
      .modify fun b hb => .pushInput hb.linked b.scope (hb.leads e (hg'.leads e (hg.leads e he)))

theorem keeps_enterBlock : Keeps g₀ enterBlock any :=
  keeps_scopeLength.bind fun _ _ _ _ => .modify fun _ hb => .refl hb.linked

theorem keeps_leaveBlock : Keeps g₀ leaveBlock any := by
  refine .modify fun b hb => ?_
  cases b.levels with
  | nil => exact .refl hb.linked
  | cons level levels => exact .truncate hb.linked b.scope level.base

theorem keeps_copyScope : Keeps g₀ copyScope any := by
  refine Keeps.get.bind fun b g hg hb => ?_
  refine keeps_editGraph fun g' hg' => ⟨.add hg'.linked .scope (fun e he => ?_) .top, trivial⟩
  exact hg'.leads e (hg.linked.input b.scope e (hb ▸ he))

theorem keeps_switchScope (scope : NodeId) : Keeps g₀ (switchScope scope) any :=
  .modifyGet fun _ hb => ⟨.refl hb.linked, trivial⟩

theorem keeps_kill (n : NodeId) : Keeps g₀ (modifyGraph (·.kill n)) any :=
  keeps_modifyGraph fun _ hg => .kill hg.linked n

theorem keeps_replaceScope (scope : NodeId) : Keeps g₀ (replaceScope scope) any :=
  (keeps_switchScope scope).bind fun old _ _ _ => keeps_kill old

theorem keeps_slotType (i : Nat) : Keeps g₀ (slotType i) any :=
  .ite (fun _ => .pure fun _ _ => trivial) fun _ => Keeps.get.bind fun _ _ _ _ =>
    .pure fun _ _ => trivial

theorem leads_triple {g : Graph} {x y z : Edge} (hx : g.Leads x) (hy : g.Leads y)
    (hz : g.Leads z) : ∀ e ∈ (#[x, y, z] : Array Edge), g.Leads e := by
  simp only [List.mem_toArray, List.mem_cons, List.not_mem_nil, or_false]
  rintro e (rfl | rfl | rfl) <;> assumption

theorem keeps_mergeSlot {region : Edge} (hregion : g₀.Leads region) (other : NodeId) (i : Nat) :
    Keeps g₀ (mergeSlot region other i) any := by
  refine (keeps_scopeInput i).bind fun a g hg ha => keeps_graph.bind fun g' _ hg' hgraph => ?_
  subst hgraph
  have hb := hg'.linked.leads_input other i
  refine .ite (fun _ => (keeps_slotType i).bind fun t _ hg'' _ => ?_) fun _ =>
    .pure fun _ _ => trivial
  have hxs := leads_triple (hg''.leads _ (hg'.leads _ (hg.leads _ hregion)))
    (hg''.leads _ (hg'.leads _ ha)) (hg''.leads _ hb)
  exact (keeps_node Op.noConfusion hxs t).bind fun phi _ _ hphi => keeps_setScopeInput i hphi

theorem keeps_merge (other : NodeId) : Keeps g₀ (merge other) any := by
  have hrest {g : Graph} {region : Edge} (h : g.Leads region) :
      Keeps g (do setCtrl region; modifyGraph (·.kill other)) any :=
    (keeps_setScopeInput ctrlSlot h).bind fun _ _ _ _ => keeps_kill other
  unfold merge
  refine keeps_graph.bind fun g _ _ _ => keeps_scopeLength.bind fun length _ _ _ => ?_
  dsimp only
  refine Keeps.bind (Q := any) (.modify fun b hb => ?_) fun _ _ _ _ => ?_
  · have hours := Graph.Extends.truncate hb.linked b.scope (min length (g.inputs other).size)
    exact hours.trans (.truncate hours.linked other _)
  refine keeps_graph.bind fun g' _ hg' hgraph => .ite (fun _ => keeps_kill other) fun _ => ?_
  subst hgraph
  have htheirs := hg'.linked.leads_input other ctrlSlot
  refine keeps_unreachable.bind fun _ g₁ h₁ _ => .ite (fun _ => keeps_replaceScope other) fun _ => ?_
  refine (keeps_scopeInput ctrlSlot).bind fun ctrl g₂ h₂ hctrl => ?_
  have hxs := leads_triple g₂.leads_none hctrl (h₂.leads _ (h₁.leads _ htheirs))
  refine (keeps_node Op.noConfusion hxs .top).bind fun region g₃ _ hregion => ?_
  refine keeps_graph.bind fun _ g₄ h₄ _ => .ite (fun _ => ?_) fun _ => ?_
  · refine Keeps.bind (Q := any) (.forIn _ _ fun i _ _ g₅ h₅ => ?_) fun _ g₅ h₅ _ => ?_
    · exact (keeps_mergeSlot (h₅.leads _ (h₄.leads _ hregion)) other i).bind fun _ _ _ _ =>
        .pure fun _ _ => trivial
    · exact hrest (h₅.leads _ (h₄.leads _ hregion))
  · exact hrest (h₄.leads _ hregion)

end Build

end SeaNodes
