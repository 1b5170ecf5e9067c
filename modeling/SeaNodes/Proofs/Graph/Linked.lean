import SeaNodes.Proofs.Graph.Mirrored
import SeaNodes.Proofs.Graph.Numbered

namespace SeaNodes

/-- What an edit of edges leaves alone: operator, declared type and type. -/
def Node.body (x : Node) : Op × Ty × Ty := (x.op, x.decl, x.ty)

namespace Graph

variable {g g' : Graph} {n m d u : NodeId} {e : Edge} {k : NodeKey} {f : Node → Node}

/-- A part of nodes that is not about their edges and marks. -/
structure EdgeFree {α : Type} (field : Node → α) : Prop where
  inputs : ∀ x xs, field { x with inputs := xs } = field x
  dead : ∀ x b, field { x with dead := b } = field x
  numbered : ∀ x b, field { x with numbered := b } = field x

/-- As many nodes, and all with the same part `field`. -/
structure Same {α : Type} (field : Node → α) (g g' : Graph) : Prop where
  size : g'.size = g.size
  field : ∀ m, field (g'.node m) = field (g.node m)

namespace Same

variable {α : Type} {field : Node → α}

theorem refl (g : Graph) : Same field g g := ⟨rfl, fun _ => rfl⟩

theorem trans {g'' : Graph} (h : Same field g g') (h' : Same field g' g'') : Same field g g'' :=
  ⟨h'.size.trans h.size, fun m => (h'.field m).trans (h.field m)⟩

theorem of_updated (hfield : EdgeFree field) (h : Updated n f g g')
    (hf : ∀ x, field (f x) = field x) : Same field g g' :=
  ⟨h.size, h.field field hf hfield.numbered⟩

theorem redirectAll (hfield : EdgeFree field) (old : NodeId) (new : Edge) (us : List NodeId) (g : Graph) :
    Same field g (g.redirectAll old new us) := by
  induction us generalizing g with
  | nil => exact refl g
  | cons u us ih =>
    let redirected (x : Node) : Node := { x with inputs := x.inputs.map (redirect old new) }
    exact (of_updated hfield (g.updated_modifyNode u redirected) fun x => hfield.inputs x _).trans
      (ih _)

theorem replaceAllUses (hfield : EdgeFree field) (g : Graph) (old : NodeId) (new : Edge) :
    Same field g (g.replaceAllUses old new) := by
  by_cases hne : new = some old
  · rw [Graph.replaceAllUses, if_pos hne]
    exact refl g
  · have hcleared : Same field g { g with uses := g.uses.set old #[] } := ⟨rfl, fun _ => rfl⟩
    have hredirected := hcleared.trans (redirectAll hfield old new (g.usesOf old).toList _)
    obtain ⟨r, uses, hr, heq⟩ := g.exists_redirected hne
    rw [hr] at hredirected
    rw [heq]
    exact ⟨hredirected.size, hredirected.field⟩

theorem reapAll (hfield : EdgeFree field) (keep : Edge) (k : Nat) (work : List NodeId) (g : Graph) :
    Same field g (Graph.reapAll keep k work g) := by
  induction k generalizing work g with
  | zero => exact refl g
  | succ k ih =>
    rw [Graph.reapAll]
    split
    · exact refl g
    · refine (of_updated hfield (g.updated_bury _) fun x => ?_).trans (ih _ _)
      exact (hfield.inputs { x with dead := true } _).trans (hfield.dead x true)

theorem subsume (hfield : EdgeFree field) (g : Graph) (old : NodeId) (new : Edge) :
    Same field g (g.subsume old new) := by
  unfold Graph.subsume
  split_ifs
  · exact refl g
  · exact (replaceAllUses hfield g old new).trans (reapAll hfield new _ [old] _)

end Same

theorem edgeFree_body : EdgeFree Node.body := ⟨fun _ _ => rfl, fun _ _ => rfl, fun _ _ => rfl⟩

/-- The same nodes, apart from their edges and marks. -/
structure SameBodies (g g' : Graph) : Prop where
  size : g'.size = g.size
  body : ∀ m, (g'.node m).body = (g.node m).body

namespace SameBodies

theorem refl (g : Graph) : g.SameBodies g := ⟨rfl, fun _ => rfl⟩

theorem trans {g'' : Graph} (h : g.SameBodies g') (h' : g'.SameBodies g'') : g.SameBodies g'' :=
  ⟨h'.size.trans h.size, fun m => (h'.body m).trans (h.body m)⟩

theorem op (h : g.SameBodies g') (m : NodeId) : g'.op m = g.op m := congrArg Prod.fst (h.body m)

theorem decl (h : g.SameBodies g') (m : NodeId) : g'.decl m = g.decl m :=
  congrArg (·.2.1) (h.body m)

theorem ty (h : g.SameBodies g') (e : Edge) : g'.ty e = g.ty e := by
  cases e with
  | none => rfl
  | some m => exact congrArg (·.2.2) (h.body m)

theorem of_updated (h : Updated n f g g') (hf : ∀ x, (f x).body = x.body) : g.SameBodies g' :=
  ⟨h.size, h.field Node.body hf fun _ _ => rfl⟩

theorem setInput (g : Graph) (n : NodeId) (i : Nat) (e : Edge) :
    g.SameBodies (g.setInput n i e) := by
  rcases g.setInput_eq_or_updated n i e with hsame | ⟨hu, -⟩
  · rw [hsame]
    exact refl g
  · exact of_updated hu fun _ => rfl

theorem of_same (h : Same Node.body g g') : g.SameBodies g' := ⟨h.size, h.field⟩

theorem replaceAllUses (g : Graph) (old : NodeId) (new : Edge) :
    g.SameBodies (g.replaceAllUses old new) := .of_same (.replaceAllUses edgeFree_body g old new)

theorem reapAll (keep : Edge) (k : Nat) (work : List NodeId) (g : Graph) :
    g.SameBodies (Graph.reapAll keep k work g) := .of_same (.reapAll edgeFree_body keep k work g)

theorem subsume (g : Graph) (old : NodeId) (new : Edge) : g.SameBodies (g.subsume old new) :=
  .of_same (.subsume edgeFree_body g old new)

theorem number (g : Graph) (n : NodeId) : g.SameBodies (g.number n) := by
  unfold Graph.number
  dsimp only
  split_ifs
  · exact ⟨size_modifyNode ..,
      field_modifyNode (f := ({ · with numbered := true })) (fun _ => rfl) _ n⟩
  · exact refl g

theorem markDead (g : Graph) (ns : List NodeId) : g.SameBodies (g.markDead ns) := by
  induction ns generalizing g with
  | nil => exact refl g
  | cons n ns ih =>
    let marked (x : Node) : Node := { x with dead := true }
    exact (of_updated (g.updated_modifyNode n marked) fun _ => rfl).trans (ih _)

theorem detach (g : Graph) (n : NodeId) : g.SameBodies (g.detach n) := by
  refine ⟨(g.detach_spec n).1, fun m => ?_⟩
  rw [node_detach]
  exact field_modifyNode (f := ({ · with inputs := #[] })) (fun _ => rfl) g n m

theorem sweep (g : Graph) : g.SameBodies g.sweep.2 := by
  have hdetached (ns : List NodeId) (g : Graph) : g.SameBodies (ns.foldl Graph.detach g) := by
    induction ns generalizing g with
    | nil => exact refl g
    | cons n ns ih => exact (detach g n).trans (ih _)
  exact (markDead g g.unreachable).trans (hdetached g.unreachable _)

end SameBodies

/-- No edge is missing from the use lists. -/
def Noted (g : Graph) : Prop := ∀ d u, (g.inputs u).count (some d) ≤ (g.usesOf d).count u

def Leads (g : Graph) (e : Edge) : Prop := ∀ n ∈ e, n < g.size ∧ g.op n ≠ .scope

/-- No edge is missing from the use lists, and edges and entries of the table lead to nodes other than
scopes. -/
structure Linked (g : Graph) : Prop where
  noted : g.Noted
  input : ∀ u, ∀ e ∈ g.inputs u, g.Leads e
  entry : ∀ k n, g.numbers.find? k = some n → g.Leads (some n)
  root : ∀ r, isRoot r → g.Leads (some r)

theorem leads_none (g : Graph) : g.Leads none := fun n hn => absurd hn (Option.not_mem_none n)

theorem leads_some : g.Leads (some n) ↔ n < g.size ∧ g.op n ≠ .scope := by
  simp [Leads]

theorem Leads.of_sameBodies (h : g.Leads e) (hsame : g.SameBodies g') : g'.Leads e := by
  intro n hn
  rw [hsame.size, hsame.op]
  exact h n hn

theorem count_setIfInBounds_le (xs : Array Edge) (i : Nat) (e : Edge) (d : NodeId) :
    (xs.setIfInBounds i e).count (some d) ≤
      xs.count (some d) - (if (xs[i]?).join = some d then 1 else 0) +
        if e = some d then 1 else 0 := by
  by_cases hi : i < xs.size
  · have hset : xs.setIfInBounds i e = xs.set i e hi := dif_pos hi
    rw [hset, Array.count_set, Array.getElem?_eq_getElem hi, Option.join_some]
    simp only [beq_iff_eq]
    exact le_rfl
  · have hset : xs.setIfInBounds i e = xs := dif_neg hi
    rw [hset, Array.getElem?_eq_none (Nat.le_of_not_lt hi)]
    exact Nat.le_add_right _ _

theorem mem_setIfInBounds {xs : Array Edge} {i : Nat} {e x : Edge}
    (h : x ∈ xs.setIfInBounds i e) : x ∈ xs ∨ x = e := by
  unfold Array.setIfInBounds at h
  split_ifs at h
  · exact Array.mem_or_eq_of_mem_set h
  · exact .inl h

namespace Linked

theorem leads_input (h : g.Linked) (n : NodeId) (i : Nat) : g.Leads (g.input n i) := by
  rcases hi : g.input n i with _ | d
  · exact g.leads_none
  · rw [input_eq_getElem?, Option.join_eq_some_iff] at hi
    exact h.input n _ (Array.mem_of_getElem? hi)

theorem leads_inputOf (h : g.Linked) (e : Edge) (i : Nat) : g.Leads (g.inputOf e i) := by
  cases e with
  | none => exact g.leads_none
  | some n => exact h.leads_input n i

theorem of_sameBodies (h : g.Linked) (hsame : g.SameBodies g') (hnoted : g'.Noted)
    (hinput : ∀ u, ∀ e ∈ g'.inputs u, g.Leads e)
    (hentry : ∀ k n, g'.numbers.find? k = some n → g.Leads (some n)) : g'.Linked where
  noted := hnoted
  input u e he := (hinput u e he).of_sameBodies hsame
  entry k n hk := (hentry k n hk).of_sameBodies hsame
  root r hr := (h.root r hr).of_sameBodies hsame

theorem updated (h : g.Linked) (hu : Updated n f g g') (hbody : ∀ x, (f x).body = x.body)
    (hmark : ∀ x b, (f { x with numbered := b }).inputs = (f x).inputs)
    (hnew : ∀ e ∈ (f (g.node n)).inputs, g.Leads e)
    (hself : ∀ d, ((f (g.node n)).inputs).count (some d) ≤ (g'.usesOf d).count n)
    (hothers : ∀ d u, n ≠ u → (g.usesOf d).count u ≤ (g'.usesOf d).count u) : g'.Linked := by
  have hinputs (u : NodeId) : g'.inputs u = (f (g.node n)).inputs ∧ n = u ∨
      g'.inputs u = g.inputs u ∧ (n ≠ u ∨ g'.inputs u = #[]) := by
    by_cases hn : n = u
    · subst hn
      obtain ⟨b, hb, -⟩ := g.node_unnumber n n
      rcases Nat.lt_or_ge n g.size with hlt | hge
      · refine .inl ⟨?_, rfl⟩
        rw [inputs, hu.node, node_modifyNode, (SameLinks.unnumber g n).size, if_pos ⟨rfl, hlt⟩, hb,
          hmark]
      · have hempty : g'.inputs n = #[] := inputs_of_size_le (hu.size.symm ▸ hge)
        exact .inr ⟨hempty.trans (inputs_of_size_le hge).symm, .inr hempty⟩
    · exact .inr ⟨congrArg Node.inputs (hu.of_ne hn), .inl hn⟩
  refine h.of_sameBodies (.of_updated hu hbody) (fun d u => ?_) (fun u e he => ?_) fun k m hk => ?_
  · rcases hinputs u with ⟨heq, rfl⟩ | ⟨heq, hn | hempty⟩
    · rw [heq]
      exact hself d
    · rw [heq]
      exact (h.noted d u).trans (hothers d u hn)
    · rw [hempty, Array.count_empty]
      exact Nat.zero_le _
  · rcases hinputs u with ⟨heq, rfl⟩ | ⟨heq, -⟩ <;> rw [heq] at he
    · exact hnew e he
    · exact h.input u e he
  · rw [hu.numbers] at hk
    exact h.entry k m (g.find?_unnumber hk)

theorem setInput (h : g.Linked) (he : g.Leads e) (n : NodeId) (i : Nat) :
    (g.setInput n i e).Linked := by
  rcases g.setInput_eq_or_updated n i e with hsame | ⟨hu, huses⟩
  · rw [hsame]
    exact h
  refine h.updated hu (fun _ => rfl) (fun _ _ => rfl) (fun e' he' => ?_) (fun d => ?_)
    fun d u hn => ?_
  · rcases mem_setIfInBounds he' with he' | rfl
    · exact h.input n e' he'
    · exact he
  · refine (count_setIfInBounds_le ..).trans ?_
    rw [huses]
    simp only [and_true]
    exact Nat.add_le_add_right (Nat.sub_le_sub_right (h.noted d n) _) _
  · rw [huses, if_neg fun h => hn h.2, if_neg fun h => hn h.2]
    rfl

theorem pushInput (h : g.Linked) (he : g.Leads e) (n : NodeId) : (g.pushInput n e).Linked := by
  have huses (d u : NodeId) : ((g.pushInput n e).usesOf d).count u =
      (g.usesOf d).count u + if e = some d ∧ n = u then 1 else 0 := by
    rw [Graph.pushInput, count_usesOf_addUse, usesOf_modifyNode, (SameLinks.unnumber g n).usesOf]
  refine h.updated (g.updated_pushInput n e) (fun _ => rfl) (fun _ _ => rfl) (fun e' he' => ?_)
    (fun d => ?_) fun d u _ => ?_
  · rcases Array.mem_push.mp he' with he' | rfl
    · exact h.input n e' he'
    · exact he
  · rw [huses, Array.count_push]
    simp only [and_true, beq_iff_eq]
    exact Nat.add_le_add_right (h.noted d n) _
  · rw [huses]
    exact Nat.le_add_right _ _

theorem removeInput (h : g.Linked) (n : NodeId) (i : Nat) : (g.removeInput n i).Linked := by
  have hold : (g.unnumber n).input n i = ((g.inputs n)[i]?).join := by
    rw [input_eq_getElem?, (SameLinks.unnumber g n).inputs]
  have huses (d u : NodeId) : ((g.removeInput n i).usesOf d).count u =
      (g.usesOf d).count u - if ((g.inputs n)[i]?).join = some d ∧ n = u then 1 else 0 := by
    rw [Graph.removeInput, count_usesOf_removeUse, usesOf_modifyNode,
      (SameLinks.unnumber g n).usesOf, hold]
  refine h.updated (g.updated_removeInput n i) (fun _ => rfl) (fun _ _ => rfl) (fun e he => ?_)
    (fun d => ?_) fun d u hu => ?_
  · rw [← Array.mem_toList_iff, toList_eraseIdxIfInBounds] at he
    exact h.input n e (Array.mem_toList_iff.mp (List.mem_of_mem_eraseIdx he))
  · refine (count_eraseIdxIfInBounds ..).trans_le ?_
    rw [huses]
    simp only [and_true]
    exact Nat.sub_le_sub_right (h.noted d n) _
  · rw [huses, if_neg fun h => hu h.2]
    rfl

theorem swapInputs (h : g.Linked) (n : NodeId) (i j : Nat) : (g.swapInputs n i j).Linked := by
  have hperm := perm_swapIfInBounds (g.inputs n) i j
  have huses (d : NodeId) : (g.swapInputs n i j).usesOf d = g.usesOf d := by
    rw [Graph.swapInputs, usesOf_modifyNode, (SameLinks.unnumber g n).usesOf]
  refine h.updated (g.updated_modifyNode n _) (fun _ => rfl) (fun _ _ => rfl) (fun e he => ?_)
    (fun d => ?_) fun d u _ => ?_
  · exact h.input n e (hperm.mem_iff.mp he)
  · refine Nat.le_trans (Nat.le_of_eq ?_) ((h.noted d n).trans_eq (by rw [huses]))
    rw [← Array.count_toList, ← Array.count_toList]
    exact (Array.perm_iff_toList_perm.mp hperm).count_eq _
  · rw [huses]

theorem congr (h : g.Linked) (hsame : g.SameLinks g')
    (hop : ∀ m, g.op m ≠ .scope → g'.op m ≠ .scope)
    (hentry : ∀ k m, g'.numbers.find? k = some m → g.Leads (some m)) : g'.Linked := by
  have hkeep {e : Edge} (he : g.Leads e) : g'.Leads e := by
    intro n hn
    obtain ⟨hlt, hscope⟩ := he n hn
    exact ⟨hsame.size ▸ hlt, hop n hscope⟩
  refine ⟨fun d u => ?_, fun u e he => hkeep ?_, fun k m hk => hkeep (hentry k m hk),
    fun r hr => hkeep (h.root r hr)⟩
  · rw [hsame.inputs, hsame.usesOf]
    exact h.noted d u
  · rw [hsame.inputs] at he
    exact h.input u e he

theorem number (h : g.Linked) (n : NodeId) : (g.number n).Linked := by
  refine h.congr (.number g n) (fun m hm => ((SameBodies.number g n).op m).symm ▸ hm)
    fun k m hk => ?_
  unfold Graph.number at hk
  dsimp only at hk
  split_ifs at hk with hnew
  · simp only [Bool.and_eq_true] at hnew
    rcases ValueNumbers.find?_of_insert _ hk with ⟨-, rfl⟩ | hk
    · refine leads_some.mpr ⟨?_, fun hop => ?_⟩
      · by_contra hbig
        rw [op, node_of_size_le (Nat.le_of_not_lt hbig)] at hnew
        cases hnew.1.1
      · rw [hop] at hnew
        cases hnew.1.1
    · exact h.entry k m hk
  · exact h.entry k m hk

theorem setOp (h : g.Linked) (n : NodeId) {op : Op} (hop : op ≠ .scope) :
    (g.setOp n op).Linked := by
  refine h.congr ((SameLinks.unnumber g n).trans
    (.modifyNode (f := ({ · with op })) (fun _ => rfl) (fun _ => rfl) _ n)) (fun m hm => ?_)
    fun k m hk => h.entry k m (g.find?_unnumber hk)
  obtain ⟨b, hb, -⟩ := g.node_unnumber n m
  rw [Graph.op, Graph.setOp, node_modifyNode, hb]
  split_ifs
  · exact hop
  · exact hm

theorem modifyNode (h : g.Linked) (hop : ∀ x, (f x).op = x.op)
    (hinputs : ∀ x, (f x).inputs = x.inputs) (hdead : ∀ x, (f x).dead = x.dead) (n : NodeId) :
    (g.modifyNode n f).Linked :=
  h.congr (.modifyNode hinputs hdead g n)
    (fun m hm heq => hm ((field_modifyNode hop g n m).symm.trans heq)) h.entry

theorem add (h : g.Linked) (op : Op) {xs : Array Edge} (hxs : ∀ e ∈ xs, g.Leads e) (decl : Ty) :
    (g.add op xs decl).2.Linked := by
  obtain ⟨hsize, hnode, huses⟩ := g.add_spec op xs decl
  have hkeep {e : Edge} (he : g.Leads e) : (g.add op xs decl).2.Leads e := by
    intro n hn
    obtain ⟨hlt, hscope⟩ := he n hn
    refine ⟨hsize ▸ Nat.lt_succ_of_lt hlt, ?_⟩
    rw [Graph.op, hnode, if_neg hlt.ne']
    exact hscope
  have hinputs (u : NodeId) : (g.add op xs decl).2.inputs u =
      if g.size = u then xs else g.inputs u := by
    rw [inputs, hnode, apply_ite Node.inputs]
    rfl
  refine ⟨fun d u => ?_, fun u e he => hkeep ?_, fun k m hk => hkeep ?_,
    fun r hr => hkeep (h.root r hr)⟩
  · rw [huses, hinputs]
    split_ifs
    · exact Nat.le_add_left _ _
    · exact h.noted d u
  · rw [hinputs] at he
    split_ifs at he
    · exact hxs e he
    · exact h.input u e he
  · rw [numbers_add] at hk
    exact h.entry k m hk

theorem const (h : g.Linked) (t : Ty) :
    (g.const t).2.Linked ∧ (g.const t).2.Leads (some (g.const t).1) := by
  rcases g.const_cases t with ⟨n, hfound, -, hsame⟩ | ⟨hfst, hsize, hnode, hnumbers, huses⟩
  · rw [hsame]
    exact ⟨h, h.entry _ n hfound⟩
  have hself : (g.const t).2.Leads (some g.size) := by
    rw [leads_some, Graph.op, hnode, if_pos rfl]
    exact ⟨hsize ▸ Nat.lt_succ_self g.size, Op.noConfusion⟩
  have hkeep {e : Edge} (he : g.Leads e) : (g.const t).2.Leads e := by
    intro n hn
    obtain ⟨hlt, hscope⟩ := he n hn
    refine ⟨hsize ▸ Nat.lt_succ_of_lt hlt, ?_⟩
    rw [Graph.op, hnode, if_neg hlt.ne']
    exact hscope
  have hinputs (u : NodeId) : (g.const t).2.inputs u = g.inputs u := by
    rw [inputs, hnode]
    split_ifs with hu
    · exact (inputs_of_size_le (hu ▸ le_rfl)).symm
    · rfl
  refine ⟨⟨fun d u => ?_, fun u e he => hkeep ?_, fun k m hk => ?_,
    fun r hr => hkeep (h.root r hr)⟩, hfst ▸ hself⟩
  · rw [hinputs, huses]
    exact h.noted d u
  · rw [hinputs] at he
    exact h.input u e he
  · rw [hnumbers] at hk
    rcases ValueNumbers.find?_of_insert _ hk with ⟨-, rfl⟩ | hk
    · exact hself
    · exact hkeep (h.entry k m hk)

theorem replaceAllUses (h : g.Linked) (old : NodeId) {new : Edge} (hnew : g.Leads new) :
    (g.replaceAllUses old new).Linked := by
  by_cases hne : new = some old
  · rw [Graph.replaceAllUses, if_pos hne]
    exact h
  obtain ⟨-, -, hinputs, huses⟩ := replaceAllUses_spec (g := g) hne
  refine h.of_sameBodies (.replaceAllUses g old new) (fun d u => ?_) (fun u e he => ?_)
    fun k m hk => h.entry k m (g.find?_replaceAllUses hk)
  · have hmap : ((g.inputs u).map (redirect old new)).count (some d) =
        (if d = old then 0 else (g.inputs u).count (some d)) +
          if new = some d then (g.inputs u).count (some old) else 0 := by
      rw [← Array.count_toList, Array.toList_map, count_map_redirect hne, Array.count_toList,
        Array.count_toList]
    rw [hinputs, huses, Array.count_append]
    by_cases hu : u ∈ g.usesOf old
    · rw [if_pos hu, hmap]
      refine Nat.add_le_add ?_ ?_
      · by_cases hd : d = old
        · rw [if_pos hd]
          exact Nat.zero_le _
        · rw [if_neg hd, if_neg fun h => hd h.symm]
          exact h.noted d u
      · split_ifs
        · exact h.noted old u
        · exact Nat.zero_le _
    · rw [if_neg hu]
      refine le_trans ?_ (Nat.le_add_right _ _)
      have hnoted := h.noted d u
      split_ifs with hd
      · rw [← hd] at hnoted ⊢
        rwa [Array.count_eq_zero.mpr hu] at hnoted
      · exact hnoted
  · rw [hinputs] at he
    split_ifs at he
    · obtain ⟨e', he', rfl⟩ := Array.mem_map.mp he
      unfold redirect
      split_ifs
      · exact hnew
      · exact h.input u e' he'
    · exact h.input u e he

theorem bury (h : g.Linked) (n : NodeId) : (g.bury n).2.Linked := by
  refine h.updated (g.updated_bury n) (fun _ => rfl) (fun _ _ => rfl) (fun e he => ?_)
    (fun d => ?_) fun d u hu => ?_
  · exact absurd he (Array.not_mem_empty e)
  · rw [Array.count_empty]
    exact Nat.zero_le _
  · rw [bury_snd, count_usesOf_foldl_removeUse, if_neg hu, usesOf_modifyNode,
      (SameLinks.unnumber g n).usesOf, Nat.sub_zero]

theorem reapAll (keep : Edge) (k : Nat) (work : List NodeId) (h : g.Linked) :
    (Graph.reapAll keep k work g).Linked := by
  induction k generalizing work g with
  | zero => exact h
  | succ k ih =>
    rw [Graph.reapAll]
    split
    · exact h
    · exact ih _ (h.bury _)

theorem subsume (h : g.Linked) (old : NodeId) {new : Edge} (hnew : g.Leads new) :
    (g.subsume old new).Linked := by
  unfold Graph.subsume
  split_ifs
  · exact h
  · exact (h.replaceAllUses old hnew).reapAll new _ [old]

end Linked

/-- How far a finished graph is consistent. An edge may still lead to a node that was removed, and a
use list may have entries too many, but no scope is left and no edge is missing from the lists. -/
structure Swept (g : Graph) : Prop where
  closed : ∀ n ∈ g.live, g.op n ≠ .scope
  input : ∀ n ∈ g.live, ∀ d, some d ∈ g.inputs n → d < g.size ∧ g.op d ≠ .scope
  noted : ∀ n ∈ g.live, ∀ d, (g.inputs n).count (some d) ≤ (g.usesOf d).count n
  listed : ∀ d ∈ g.live, ∀ n, (g.inputs n).count (some d) ≤ (g.usesOf d).count n

theorem Linked.swept (h : g.Linked) : g.sweep.2.Swept := by
  have hbodies := SameBodies.sweep g
  obtain ⟨hlive, hinputs, huses⟩ := g.sweep_spec
  have hinput (u d : NodeId) (hd : some d ∈ g.inputs u) := h.input u _ hd d rfl
  obtain ⟨-, hclosed⟩ := unreachable_spec (fun u d hd => (hinput u d hd).1)
    fun r hr => (h.root r hr r rfl).1
  have hkept (n : NodeId) (hn : n ∈ g.sweep.2.live) : n ∉ g.unreachable ∧ n ∈ g.live :=
    and_comm.mp ((hlive n).mp hn)
  have hcount (d n : NodeId) (hd : d ∉ g.unreachable) :
      (g.sweep.2.inputs n).count (some d) ≤ (g.sweep.2.usesOf d).count n := by
    rw [hinputs, huses, if_neg hd]
    by_cases hn : n ∈ g.unreachable
    · rw [if_pos hn, Array.count_empty]
      exact Nat.zero_le _
    · rw [if_neg hn, if_neg fun h => hn h.1]
      exact h.noted d n
  refine ⟨fun n hn => ?_, fun n hn d hd => ?_, fun n hn d => ?_, fun d hd n =>
    hcount d n (hkept d hd).1⟩
  · rw [hbodies.op]
    obtain ⟨hreached, hold⟩ := hkept n hn
    obtain ⟨r, hr, hpath⟩ := exists_uses_of_not_mem_unreachable hold hreached
    rcases hpath.cases_tail with rfl | ⟨u, -, hu⟩
    · exact (h.root n hr n rfl).2
    · exact (hinput u n hu).2
  · rw [hinputs, if_neg (hkept n hn).1] at hd
    rw [hbodies.size, hbodies.op]
    exact hinput n d hd
  · by_cases hd : d ∈ g.unreachable
    · rw [hinputs, if_neg (hkept n hn).1,
        Array.count_eq_zero.mpr fun hmem => hclosed n (hkept n hn).2 d (hkept n hn).1 hmem hd]
      exact Nat.zero_le _
    · exact hcount d n hd

/-- All that the check can find in a finished graph is an edge from a live node to one that was
removed, or a use list with an entry too many. -/
theorem Swept.verify (h : g.Swept) : g.verify = .ok () ∨
    (∃ u ∈ g.live, ∃ d, some d ∈ g.inputs u ∧ g.isDead d ∧ g.verify = .error (.deadInput u d)) ∨
    ∃ d u excess, excess < 0 ∧ g.verify = .error (.useList d u excess) := by
  have hflaw {d u : NodeId} {f : GraphFlaw}
      (hcount : (g.inputs u).count (some d) ≤ (g.usesOf d).count u)
      (hf : (if g.edgeCount u d = (g.usesOf d).count u then none else
        some (GraphFlaw.useList d u ((g.edgeCount u d : Int) - (g.usesOf d).count u))) = some f) :
      ∃ excess, excess < 0 ∧ f = .useList d u excess := by
    split_ifs at hf with hdiffer
    refine ⟨_, ?_, (Option.some.inj hf).symm⟩
    have hlt : (g.edgeCount u d) < (g.usesOf d).count u := lt_of_le_of_ne hcount hdiffer
    omega
  rw [Graph.verify]
  rcases hdead : g.live.findSome? g.deadInput? with _ | f
  · rcases huse : g.live.findSome? g.useFlaw? with _ | f
    · exact .inl rfl
    · obtain ⟨n, hn, hf⟩ := List.exists_of_findSome?_eq_some huse
      rw [useFlaw?, Option.or_eq_some_iff] at hf
      rcases hf with hf | ⟨-, hf⟩
      · obtain ⟨d, -, hf⟩ := List.exists_of_findSome?_eq_some hf
        obtain ⟨excess, hneg, rfl⟩ := hflaw (h.noted n hn d) hf
        exact .inr (.inr ⟨d, n, excess, hneg, rfl⟩)
      · obtain ⟨u, -, hf⟩ := List.exists_of_findSome?_eq_some hf
        obtain ⟨excess, hneg, rfl⟩ := hflaw (h.listed n hn u) hf
        exact .inr (.inr ⟨n, u, excess, hneg, rfl⟩)
  · obtain ⟨u, hu, hf⟩ := List.exists_of_findSome?_eq_some hdead
    obtain ⟨d, hd, rfl⟩ := Option.map_eq_some_iff.mp hf
    exact .inr (.inl ⟨u, hu, d, mem_reduceOption_inputs.mp (List.mem_of_find?_eq_some hd),
      List.find?_some hd, rfl⟩)

theorem linked_empty : empty.Linked := by
  have hinputs (n : NodeId) : empty.inputs n = #[] := by
    rcases Nat.lt_or_ge n 3 with hlt | hge
    · interval_cases n <;> rfl
    · exact inputs_of_size_le hge
  refine ⟨fun d u => ?_, fun u e he => ?_, fun k n hk => ?_, fun r hr => ?_⟩
  · rw [hinputs, Array.count_empty]
    exact Nat.zero_le _
  · rw [hinputs] at he
    exact absurd he (Array.not_mem_empty e)
  · obtain ⟨hnumbered, -⟩ := numbered_empty k n hk
    by_cases hlt : n < 3
    · interval_cases n <;> cases hnumbered
    · rw [node_of_size_le (Nat.le_of_not_lt hlt)] at hnumbered
      cases hnumbered
  · simp only [isRoot, Bool.or_eq_true, beq_iff_eq] at hr
    rw [leads_some]
    obtain (rfl | rfl) | rfl := hr <;> decide

end Graph

end SeaNodes
