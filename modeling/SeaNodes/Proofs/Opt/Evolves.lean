import SeaNodes.Opt.Rewrite
import SeaNodes.Proofs.Graph.Filed
import SeaNodes.Proofs.Graph.Linked

namespace SeaNodes

/-- The operators of nodes that rules make. -/
def Op.isMade : Op → Bool
  | .const _ | .arith _ | .cmp _ => true
  | _ => false

namespace Graph

variable {old : Nat} {g g' g'' : Graph} {n m : NodeId} {e : Edge}

/-- One of the edits that rewriting consists of. -/
inductive Simplifies : Graph → Graph → Prop where
  | setInput (g : Graph) (n : NodeId) (i : Nat) (e : Edge) : Simplifies g (g.setInput n i e)
  | removeInput (g : Graph) (n : NodeId) (i : Nat) : Simplifies g (g.removeInput n i)
  | swapInputs (g : Graph) (n : NodeId) (i j : Nat) : Simplifies g (g.swapInputs n i j)
  | reap (g : Graph) (n : NodeId) (keep : Edge) : Simplifies g (g.reap n keep)
  | subsume (g : Graph) (n : NodeId) (e : Edge) : Simplifies g (g.subsume n e)
  | number (g : Graph) (n : NodeId) : Simplifies g (g.number n)
  /-- A loop becomes a plain join. -/
  | setOp {g : Graph} {n : NodeId} (h : g.op n = .loop) : Simplifies g (g.setOp n .region)
  /-- A node is typed. -/
  | setTy (g : Graph) (n : NodeId) : Simplifies g (g.setTy n (g.settledType n))
  | add (g : Graph) {op : Op} (hop : op.isMade) (hconst : op.isConst = false) (xs : Array Edge)
      (decl : Ty) : Simplifies g (g.add op xs decl).2
  | const (g : Graph) (t : Ty) : Simplifies g (g.const t).2

theorem Simplifies.numbered (h : Simplifies g g') (hg : g.Numbered) : g'.Numbered := by
  cases h with
  | setInput n i e =>
    rcases g.setInput_eq_or_updated n i e with hsame | ⟨hu, -⟩
    · rwa [hsame]
    · exact hu.numbered hg
  | removeInput n i => exact (g.updated_removeInput n i).numbered hg
  | swapInputs n i j => exact (g.updated_modifyNode n _).numbered hg
  | reap n keep => exact hg.reapAll keep _ [n]
  | subsume n e => exact hg.subsume n e
  | number n => exact hg.number n
  | setOp => exact (g.updated_modifyNode _ _).numbered hg
  | setTy n =>
    exact hg.modifyNode (f := ({ · with ty := g.settledType n })) (fun _ => rfl) (fun _ => rfl) n
  | add _ _ xs decl => exact hg.add _ xs decl
  | const t => exact hg.const t

/-- What may have become of a graph, in which nodes from `old` on may have been typed. -/
structure Evolves (old : Nat) (g g' : Graph) : Prop where
  size : g.size ≤ g'.size
  op : ∀ n, g'.op n = g.op n ∨ g.op n = .loop ∧ g'.op n = .region ∨
    g.size ≤ n ∧ (g'.op n).isMade
  decl : ∀ n < g.size, g'.decl n = g.decl n
  ty : ∀ n < old, g'.ty (some n) = g.ty (some n)
  edits : Relation.ReflTransGen Simplifies g g'

namespace Evolves

theorem refl (old : Nat) (g : Graph) : Evolves old g g :=
  ⟨le_rfl, fun _ => .inl rfl, fun _ _ => rfl, fun _ _ => rfl, .refl⟩

theorem keeps {P : Graph → Prop} (h : Evolves old g g')
    (hedit : ∀ x y, Simplifies x y → P x → P y) (hg : P g) : P g' := by
  have hedits := h.edits
  clear h
  induction hedits with
  | refl => exact hg
  | tail _ hstep ih => exact hedit _ _ hstep ih

theorem numbered (h : Evolves old g g') (hg : g.Numbered) : g'.Numbered :=
  h.keeps (fun _ _ hstep => hstep.numbered) hg

theorem trans (h : Evolves old g g') (h' : Evolves old g' g'') : Evolves old g g'' where
  size := h.size.trans h'.size
  op n := by
    have hfirst := h.op n
    have hsecond := h'.op n
    rcases hsecond with hsame | ⟨hloop, hregion⟩ | ⟨hn, hmade⟩
    · rw [hsame]
      exact hfirst
    · rcases hfirst with hsame | ⟨-, hregion'⟩ | ⟨-, hmade⟩
      · exact .inr (.inl ⟨hsame.symm.trans hloop, hregion⟩)
      · rw [hregion'] at hloop
        cases hloop
      · rw [hloop] at hmade
        cases hmade
    · exact .inr (.inr ⟨h.size.trans hn, hmade⟩)
  decl n hn := (h'.decl n (hn.trans_le h.size)).trans (h.decl n hn)
  ty n hn := (h'.ty n hn).trans (h.ty n hn)
  edits := h.edits.trans h'.edits

theorem of_sameBodies (h : g.SameBodies g') (hedit : Simplifies g g') : Evolves old g g' :=
  ⟨h.size.ge, fun n => .inl (h.op n), fun n _ => h.decl n, fun n _ => h.ty (some n),
    .single hedit⟩

theorem leads (h : Evolves old g g') (he : g.Leads e) : g'.Leads e := by
  intro n hn
  obtain ⟨hlt, hscope⟩ := he n hn
  refine ⟨hlt.trans_le h.size, ?_⟩
  rcases h.op n with hsame | ⟨-, hregion⟩ | ⟨hbig, -⟩
  · rwa [hsame]
  · rw [hregion]
    exact Op.noConfusion
  · exact absurd hlt (Nat.not_lt_of_le hbig)

theorem setInput (g : Graph) (n : NodeId) (i : Nat) (e : Edge) :
    Evolves old g (g.setInput n i e) :=
  of_sameBodies (.setInput g n i e) (.setInput g n i e)

theorem removeInput (g : Graph) (n : NodeId) (i : Nat) : Evolves old g (g.removeInput n i) :=
  of_sameBodies (.of_updated (g.updated_removeInput n i) fun _ => rfl) (.removeInput g n i)

theorem swapInputs (g : Graph) (n : NodeId) (i j : Nat) : Evolves old g (g.swapInputs n i j) := by
  have hu := g.updated_modifyNode n fun x => { x with inputs := x.inputs.swapIfInBounds i j }
  exact of_sameBodies (.of_updated hu fun _ => rfl) (.swapInputs g n i j)

theorem reap (g : Graph) (n : NodeId) (keep : Edge) : Evolves old g (g.reap n keep) :=
  of_sameBodies (.reapAll keep _ [n] g) (.reap g n keep)

theorem subsume (g : Graph) (n : NodeId) (e : Edge) : Evolves old g (g.subsume n e) :=
  of_sameBodies (.subsume g n e) (.subsume g n e)

theorem number (g : Graph) (n : NodeId) : Evolves old g (g.number n) :=
  of_sameBodies (.number g n) (.number g n)

theorem setOp (h : g.op n = .loop) : Evolves old g (g.setOp n .region) := by
  have hu := g.updated_modifyNode n ({ · with op := .region })
  refine ⟨hu.size.ge, fun m => ?_, fun m _ => ?_, fun m _ => ?_, .single (.setOp h)⟩
  · by_cases hm : n = m
    · subst hm
      obtain ⟨b, hb, -⟩ := g.node_unnumber n n
      rw [Graph.op, Graph.setOp, node_modifyNode, hb]
      split_ifs
      · exact .inr (.inl ⟨h, rfl⟩)
      · exact .inl rfl
    · exact .inl (congrArg Node.op (hu.of_ne hm))
  · exact hu.field Node.decl (fun _ => rfl) (fun _ _ => rfl) m
  · exact hu.field Node.ty (fun _ => rfl) (fun _ _ => rfl) m

theorem setTy (h : old ≤ n) : Evolves old g (g.setTy n (g.settledType n)) := by
  let typed (x : Node) : Node := { x with ty := g.settledType n }
  refine ⟨(size_modifyNode g n typed).ge,
    fun m => .inl (field_modifyNode (f := typed) (fun _ => rfl) g n m),
    fun m _ => field_modifyNode (f := typed) (fun _ => rfl) g n m,
    fun m hm => ?_, .single (.setTy g n)⟩
  refine congrArg Node.ty ((node_modifyNode g n m typed).trans (if_neg ?_))
  rintro ⟨rfl, -⟩
  exact hm.not_ge h

theorem add {op : Op} (hold : old ≤ g.size) (hop : op.isMade) (hconst : op.isConst = false)
    (xs : Array Edge) (decl : Ty) : Evolves old g (g.add op xs decl).2 := by
  obtain ⟨hsize, hnode, -⟩ := g.add_spec op xs decl
  refine ⟨hsize ▸ Nat.le_succ _, fun n => ?_, fun n hn => ?_, fun n hn => ?_,
    .single (.add g hop hconst xs decl)⟩
  · rw [Graph.op, hnode]
    split_ifs with hn
    · exact .inr (.inr ⟨hn.le, hop⟩)
    · exact .inl rfl
  · rw [Graph.decl, hnode, if_neg hn.ne']
    rfl
  · rw [Graph.ty, hnode, if_neg (hn.trans_le hold).ne']
    rfl

theorem const (hold : old ≤ g.size) (t : Ty) : Evolves old g (g.const t).2 := by
  rcases g.const_cases t with ⟨n, -, -, hsame⟩ | ⟨-, hsize, hnode, -⟩
  · rw [hsame]
    exact refl old g
  · refine ⟨hsize ▸ Nat.le_succ _, fun n => ?_, fun n hn => ?_, fun n hn => ?_,
      .single (.const g t)⟩
    · rw [Graph.op, hnode]
      split_ifs with hn
      · exact .inr (.inr ⟨hn.le, rfl⟩)
      · exact .inl rfl
    · rw [Graph.decl, hnode, if_neg hn.ne']
      rfl
    · rw [Graph.ty, hnode, if_neg (hn.trans_le hold).ne']
      rfl

end Evolves

theorem constEdge_ne (hg : g.Numbered) (hn : n < g.size) (hop : (g.op n).isConst = false) (t : Ty) :
    (g.constEdge t).1 ≠ some n := by
  intro heq
  have hfst : (g.const t).1 = n := Option.some.inj heq
  rcases g.const_cases t with ⟨m, hfound, -, hsame⟩ | ⟨hnew, -⟩
  · rw [hsame] at hfst
    have hkey : g.op m = .const t := congrArg NodeKey.op (hg _ m hfound).2
    rw [← show m = n from hfst, hkey] at hop
    cases hop
  · exact hn.ne (hfst.symm.trans hnew)

/-- The graph evolved; its links stay in order, and the answer leads to a node. -/
structure Yields (old : Nat) (g : Graph) (c : Change) : Prop where
  evolves : Evolves old g c.2
  links : g.Linked → c.2.Linked ∧ c.2.Leads c.1

def Bounded (old : Nat) (simp : Simplifier) : Prop :=
  ∀ g n, old ≤ n → g.Leads (some n) → Yields old g (simp g n)

namespace Yields

variable {c : Change}

theorem after (h : Evolves old g g') (hlinked : g.Linked → g'.Linked) (hc : Yields old g' c) :
    Yields old g c :=
  ⟨h.trans hc.evolves, fun hg => hc.links (hlinked hg)⟩

theorem same (he : g.Linked → g.Leads e) : Yields old g (e, g) :=
  ⟨.refl old g, fun h => ⟨h, he h⟩⟩

theorem input (g : Graph) (n : NodeId) (i : Nat) : Yields old g (g.input n i, g) :=
  same fun h => h.leads_input n i

theorem inputOf (g : Graph) (e : Edge) (i : Nat) : Yields old g (g.inputOf e i, g) :=
  same fun h => h.leads_inputOf e i

theorem inPlace (hn : g.Leads (some n)) (h : Evolves old g g') (hlinked : g.Linked → g'.Linked) :
    Yields old g (some n, g') :=
  ⟨h, fun hg => ⟨hlinked hg, h.leads hn⟩⟩

theorem constEdge (hold : old ≤ g.size) (t : Ty) : Yields old g (g.constEdge t) :=
  ⟨.const hold t, fun h => h.const t⟩

theorem made {simp : Simplifier} (hsimp : Bounded old simp) (h : Evolves old g g')
    (hold : old ≤ g'.size) {op : Op} {xs : Array Edge} (hop : op.isMade)
    (hconst : op.isConst = false) (hlinked : g.Linked → g'.Linked ∧ ∀ e ∈ xs, g'.Leads e) :
    Yields old g (simp (g'.add op xs).2 (g'.add op xs).1) := by
  refine .after (h.trans (.add hold hop hconst xs .top))
    (fun hg => (hlinked hg).1.add op (hlinked hg).2 .top) (hsimp _ _ hold ?_)
  obtain ⟨hsize, hnode, -⟩ := g'.add_spec op xs .top
  refine leads_some.mpr ⟨hsize ▸ Nat.lt_succ_self g'.size, ?_⟩
  show ((g'.add op xs).2.node g'.size).op ≠ .scope
  rw [hnode, if_pos rfl]
  rintro rfl
  cases hop

end Yields

theorem leads_binary {x y : Edge} (hx : g.Leads x) (hy : g.Leads y) :
    ∀ e ∈ (#[none, x, y] : Array Edge), g.Leads e := by
  simp only [List.mem_toArray, List.mem_cons, List.not_mem_nil, or_false]
  rintro e (rfl | rfl | rfl)
  · exact g.leads_none
  · exact hx
  · exact hy

section

variable {simp : Simplifier} (hsimp : Bounded old simp) (hold : old ≤ g.size)
  (hn : g.Leads (some n)) {c : Change}

include hsimp hold in
theorem yields_addConst {x : Edge} (hx : g.Linked → g.Leads x) (k : Int64) :
    Yields old g (addConst simp g x k) := by
  have hadd : addConst simp g x k =
      let g' := (g.const (.ofInt k)).2.add (.arith .add) #[none, x, some (g.const (.ofInt k)).1]
      simp g'.2 g'.1 := rfl
  have hconst := Evolves.const hold (.ofInt k)
  rw [hadd]
  refine .made hsimp hconst (hold.trans hconst.size) rfl rfl fun h => ?_
  have hk := h.const (.ofInt k)
  exact ⟨hk.1, leads_binary (hconst.leads (hx h)) hk.2⟩

include hsimp hold in
theorem yields_ruleArith {op : ArithOp} (h : g.ruleArith simp op n = some c) : Yields old g c := by
  unfold ruleArith at h
  dsimp only at h
  cases op with
  | add =>
    dsimp only at h
    split_ifs at h
    · obtain rfl := Option.some.inj h
      exact .input g n 1
    · simp only [Option.bind_eq_bind, Option.bind_eq_some_iff] at h
      obtain ⟨c₂, -, -, -, c₁, -, h⟩ := h
      obtain rfl := Option.some.inj h
      exact yields_addConst hsimp hold (fun h => h.leads_inputOf _ 1) _
  | sub =>
    dsimp only at h
    split_ifs at h
    · obtain rfl := Option.some.inj h
      exact .constEdge hold _
    · simp only [Option.bind_eq_bind, Option.bind_eq_some_iff] at h
      obtain ⟨k, -, h⟩ := h
      split_ifs at h
      · obtain rfl := Option.some.inj h
        exact .input g n 1
      · obtain rfl := Option.some.inj h
        exact yields_addConst hsimp hold (fun h => h.leads_input n 1) _
  | mul | div =>
    dsimp only at h
    split_ifs at h
    obtain rfl := Option.some.inj h
    exact .input g n 1

include hold in
theorem yields_ruleBit {op : BitOp} (h : g.ruleBit op n = some c) : Yields old g c := by
  unfold ruleBit at h
  dsimp only at h
  cases op with
  | xor =>
    dsimp only at h
    split_ifs at h <;> obtain rfl := Option.some.inj h
    · exact .constEdge hold _
    · exact .input g n 1
  | _ =>
    dsimp only at h
    split_ifs at h
    obtain rfl := Option.some.inj h
    exact .input g n 1

theorem yields_ruleNeg (h : g.ruleNeg n = some c) : Yields old g c := by
  unfold ruleNeg at h
  dsimp only at h
  split_ifs at h
  obtain rfl := Option.some.inj h
  exact .inputOf g _ 1

include hsimp hold in
theorem yields_ruleNot (h : g.ruleNot simp n = some c) : Yields old g c := by
  unfold ruleNot at h
  dsimp only at h
  split at h
  case h_1 op hop =>
    obtain rfl := Option.some.inj h
    refine .made hsimp (.refl old g) hold rfl rfl fun h => ⟨h, ?_⟩
    split_ifs
    · exact leads_binary (h.leads_inputOf _ 2) (h.leads_inputOf _ 1)
    · exact leads_binary (h.leads_inputOf _ 1) (h.leads_inputOf _ 2)
  case h_2 =>
    split_ifs at h
    obtain rfl := Option.some.inj h
    exact .inputOf g _ 1
  case h_3 => cases h

include hold in
theorem yields_ruleCmp {op : CmpOp} (h : g.ruleCmp op n = some c) : Yields old g c := by
  unfold ruleCmp at h
  split_ifs at h
  obtain rfl := Option.some.inj h
  exact .constEdge hold _

theorem yields_ruleCast (h : g.ruleCast n = some c) : Yields old g c := by
  unfold ruleCast at h
  dsimp only at h
  split_ifs at h
  obtain rfl := Option.some.inj h
  exact .input g n 1

theorem yields_rulePhi (h : g.rulePhi n = some c) : Yields old g c := by
  unfold rulePhi at h
  split_ifs at h
  split at h
  case h_1 v rest hsources =>
    split_ifs at h
    obtain rfl := Option.some.inj h
    refine .same fun hg => ?_
    have hv : v ∈ g.phiSources n := hsources ▸ List.mem_cons_self
    unfold phiSources at hv
    dsimp only at hv
    obtain ⟨⟨e, i⟩, he, hsome⟩ := List.mem_filterMap.mp hv
    dsimp only at hsome
    split_ifs at hsome
    have hmem := List.mem_of_mem_drop he
    rw [List.mem_zipIdx_iff_getElem?] at hmem
    exact hg.input n _ (Array.mem_toList_iff.mp (hsome ▸ List.mem_of_getElem? hmem))
  case h_2 => cases h

theorem dropPred_spec (n : NodeId) (phis : List NodeId) (i : Nat) (g : Graph) :
    Evolves old g (dropPred n phis g i) ∧ (g.Linked → (dropPred n phis g i).Linked) := by
  unfold dropPred
  induction phis generalizing g with
  | nil => exact ⟨.removeInput g n i, fun h => h.removeInput n i⟩
  | cons phi phis ih =>
    obtain ⟨hrest, hlinked⟩ := ih (g.removeInput phi i)
    exact ⟨(Evolves.removeInput g phi i).trans hrest, fun h => hlinked (h.removeInput phi i)⟩

theorem foldl_dropPred_spec (n : NodeId) (phis : List NodeId) (is : List Nat) (g : Graph) :
    Evolves old g (is.foldl (dropPred n phis) g) ∧
      (g.Linked → (is.foldl (dropPred n phis) g).Linked) := by
  induction is generalizing g with
  | nil => exact ⟨.refl old g, id⟩
  | cons i is ih =>
    obtain ⟨hdrop, hlinked⟩ := @dropPred_spec old n phis i g
    obtain ⟨hrest, hlinked'⟩ := ih (dropPred n phis g i)
    exact ⟨hdrop.trans hrest, hlinked' ∘ hlinked⟩

theorem foldl_subsume_spec (phis : List NodeId) (g : Graph) :
    let g' := phis.foldl (fun g phi => g.subsume phi (g.input phi 1)) g
    Evolves old g g' ∧ (g.Linked → g'.Linked) := by
  induction phis generalizing g with
  | nil => exact ⟨.refl old g, id⟩
  | cons phi phis ih =>
    obtain ⟨hrest, hlinked⟩ := ih (g.subsume phi (g.input phi 1))
    exact ⟨(Evolves.subsume g phi _).trans hrest,
      fun h => hlinked (h.subsume phi (h.leads_input phi 1))⟩

include hn in
theorem yields_ruleRegion (h : g.ruleRegion n = some c) : Yields old g c := by
  unfold ruleRegion at h
  dsimp only at h
  split_ifs at h with hopen hnone hdead hloop hone <;> obtain rfl := Option.some.inj h
  · obtain ⟨hdrop, hlinked⟩ := @foldl_dropPred_spec old n (g.phisOf n)
      (g.deadPreds n).reverse (g.setOp n .region)
    exact .inPlace hn ((Evolves.setOp hloop).trans hdrop)
      fun h => hlinked (h.setOp n Op.noConfusion)
  · obtain ⟨hdrop, hlinked⟩ := @foldl_dropPred_spec old n (g.phisOf n)
      (g.deadPreds n).reverse g
    exact .inPlace hn hdrop hlinked
  · obtain ⟨hsubsume, hlinked⟩ := @foldl_subsume_spec old (g.phisOf n) g
    exact ⟨hsubsume, fun h => ⟨hlinked h, hsubsume.leads (h.leads_input n 1)⟩⟩

theorem yields_ruleCtrlProj {i : Nat} (h : g.ruleCtrlProj i n = some c) : Yields old g c := by
  unfold ruleCtrlProj at h
  dsimp only at h
  split_ifs at h
  split at h
  · split_ifs at h
    obtain rfl := Option.some.inj h
    exact .inputOf g _ 0
  · cases h

include hn in
theorem yields_ruleStop (h : g.ruleStop n = some c) : Yields old g c := by
  unfold ruleStop at h
  dsimp only at h
  obtain ⟨⟨r, i⟩, -, rfl⟩ := Option.map_eq_some_iff.mp h
  exact .inPlace hn (.removeInput g n i) fun h => h.removeInput n i

include hold hn in
theorem yields_ruleLoad (h : g.ruleLoad n = some c) : Yields old g c := by
  have hskip (e : Edge) (i : Nat) : Yields old g (some n, g.setInput n 1 (g.inputOf e i)) :=
    .inPlace hn (.setInput g n 1 _) fun h => h.setInput (h.leads_inputOf e i) n 1
  unfold ruleLoad at h
  dsimp only at h
  split at h
  · split_ifs at h <;> obtain rfl := Option.some.inj h
    · exact .inputOf g _ 4
    · exact hskip _ 1
  · split_ifs at h <;> obtain rfl := Option.some.inj h
    · exact .constEdge hold _
    · exact hskip _ 1
  · cases h

include hn in
theorem yields_ruleStore (h : g.ruleStore n = some c) : Yields old g c := by
  unfold ruleStore at h
  split at h
  · cases h
  · rename_i mem hmem
    split_ifs at h
    obtain rfl := Option.some.inj h
    exact .inPlace hn ((Evolves.setInput g n 1 _).trans (.reap _ mem none))
      fun h => (h.setInput (h.leads_input mem 1) n 1).reapAll none _ [mem]

include hsimp hold hn in
theorem yields_applyRule (h : g.applyRule simp n = some c) : Yields old g c := by
  unfold applyRule at h
  split_ifs at h
  · obtain rfl := Option.some.inj h
    exact .inPlace hn (.swapInputs g n 1 2) fun h => h.swapInputs n 1 2
  cases hop : g.op n with
  | arith op => exact yields_ruleArith hsimp hold (by rwa [hop] at h)
  | bit op => exact yields_ruleBit hold (by rwa [hop] at h)
  | neg => exact yields_ruleNeg (by rwa [hop] at h)
  | not => exact yields_ruleNot hsimp hold (by rwa [hop] at h)
  | cmp op => exact yields_ruleCmp hold (by rwa [hop] at h)
  | phi => exact yields_rulePhi (by rwa [hop] at h)
  | region => exact yields_ruleRegion hn (by rwa [hop] at h)
  | loop => exact yields_ruleRegion hn (by rwa [hop] at h)
  | ctrlProj i => exact yields_ruleCtrlProj (by rwa [hop] at h)
  | cast => exact yields_ruleCast (by rwa [hop] at h)
  | load => exact yields_ruleLoad hold hn (by rwa [hop] at h)
  | store => exact yields_ruleStore hn (by rwa [hop] at h)
  | stop => exact yields_ruleStop hn (by rwa [hop] at h)
  | _ =>
    rw [hop] at h
    cases h

include hsimp hold hn in
theorem yields_improve? (h : g.improve? simp n = some c) : Yields old g c := by
  unfold improve? at h
  split_ifs at h
  · obtain rfl := Option.some.inj h
    exact .constEdge hold _
  · obtain rfl := Option.some.inj h
    exact .same fun h => h.root deadCtrl rfl
  · exact yields_applyRule hsimp hold hn h

end

theorem mergeEqual_spec (numbering : Bool) (hn : g.Leads (some n)) (edited : Bool) :
    Yields old g ((g.mergeEqual numbering n edited).edge, (g.mergeEqual numbering n edited).graph)
    := by
  unfold mergeEqual
  split_ifs
  · exact .same fun _ => hn
  · split
    · rename_i m hequal
      refine ⟨.subsume g n (some m), fun h => ?_⟩
      have hm : g.Leads (some m) := by
        unfold equal? at hequal
        split_ifs at hequal
        split at hequal
        · rename_i m' hfound
          split_ifs at hequal
          exact Option.some.inj hequal ▸ h.entry _ m' hfound
        · cases hequal
      exact ⟨h.subsume n hm, (@Evolves.subsume 0 g n (some m)).leads hm⟩
    · exact .inPlace hn (.number g n) fun h => h.number n

theorem yields_improveAll {simp : Simplifier} (hsimp : Bounded old simp) (hold : old ≤ g.size)
    (hn : g.Leads (some n)) (numbering : Bool) (k : Nat) (edited : Bool) :
    let r := improveAll simp numbering n k edited g
    Yields old g (r.edge, r.graph) := by
  induction k generalizing g edited with
  | zero => exact mergeEqual_spec numbering hn edited
  | succ k ih =>
    dsimp only
    rw [improveAll]
    split
    case h_1 e g' himprove =>
      have hc := yields_improve? hsimp hold hn himprove
      split_ifs
      · exact .after hc.evolves (fun h => (hc.links h).1)
          (ih (hold.trans hc.evolves.size) (hc.evolves.leads hn) true)
      · have hsubsume := @Evolves.subsume old g' n e
        refine ⟨hc.evolves.trans hsubsume, fun h => ?_⟩
        obtain ⟨hlinked, he⟩ := hc.links h
        exact ⟨hlinked.subsume n he, hsubsume.leads he⟩
    case h_2 => exact mergeEqual_spec numbering hn edited

theorem bounded_peepholeAt (old k : Nat) : Bounded old (peepholeAt k) := by
  induction k with
  | zero => exact fun g n _ hn => .same fun _ => hn
  | succ k ih =>
    intro g n hold hn
    have hty := Evolves.setTy (g := g) hold
    have hsize : old ≤ g.size := hold.trans (leads_some.mp hn).1.le
    exact .after hty (fun h => h.modifyNode (f := ({ · with ty := g.settledType n })) (fun _ => rfl)
      (fun _ => rfl) (fun _ => rfl) n)
      (yields_improveAll ih (hsize.trans hty.size) (hty.leads hn) true maxLocalSteps false)

theorem yields_rewrite (hold : old ≤ g.size) (hn : g.Leads (some n)) (numbering : Bool) :
    Yields old g ((g.rewrite n numbering).edge, (g.rewrite n numbering).graph) :=
  yields_improveAll (bounded_peepholeAt old g.size) hold hn numbering maxLocalSteps false

theorem yields_peephole (hn : g.Leads (some n)) : Yields n g (g.peephole n) :=
  bounded_peepholeAt n (g.size + 1) g n le_rfl hn

end Graph

end SeaNodes
