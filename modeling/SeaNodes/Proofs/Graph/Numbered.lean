import SeaNodes.Proofs.Graph.UseLists

namespace SeaNodes

theorem lookup_filter_ne {k k' : NodeKey} {m : NodeId} {l : List (NodeKey × NodeId)}
    (h : (l.filter (·.1 != k)).lookup k' = some m) : k' ≠ k ∧ l.lookup k' = some m := by
  induction l with
  | nil => cases h
  | cons x l ih =>
    obtain ⟨k₁, n⟩ := x
    by_cases hk₁ : k₁ = k
    · rw [List.filter_cons_of_neg (by simpa using hk₁)] at h
      obtain ⟨hne, hl⟩ := ih h
      refine ⟨hne, ?_⟩
      rwa [List.lookup_cons, beq_false_of_ne fun heq => hne (heq.trans hk₁)]
    · rw [List.filter_cons_of_pos (by simpa using hk₁), List.lookup_cons] at h
      rw [List.lookup_cons]
      by_cases hk' : k' = k₁
      · rw [beq_iff_eq.mpr hk'] at h ⊢
        exact ⟨fun heq => hk₁ (hk'.symm.trans heq), h⟩
      · rw [beq_false_of_ne hk'] at h ⊢
        exact ih h

namespace ValueNumbers

variable (t : ValueNumbers) {k k' : NodeKey} {m n : NodeId}

theorem find?_of_erase (h : (t.erase k).find? k' = some m) : k' ≠ k ∧ t.find? k' = some m := by
  rw [find?, erase, SideTable.get_modify] at h
  split_ifs at h with hslot
  · exact lookup_filter_ne h
  · exact ⟨fun heq => hslot (congrArg NodeKey.slot heq.symm), h⟩

theorem find?_of_insert (h : (t.insert k n).find? k' = some m) :
    k' = k ∧ m = n ∨ t.find? k' = some m := by
  rw [find?, insert, SideTable.get_modify] at h
  split_ifs at h
  · rw [List.lookup_cons] at h
    by_cases hk : k' = k
    · rw [beq_iff_eq.mpr hk] at h
      exact .inl ⟨hk, (Option.some.inj h).symm⟩
    · rw [beq_false_of_ne hk] at h
      exact .inr (lookup_filter_ne h).2
  · exact .inr h

end ValueNumbers

namespace Graph

variable {g g' : Graph} {n m u : NodeId} {e : Edge} {k : NodeKey} {f : Node → Node}

/-- Every entry of the table is a node that is marked as numbered and has the key of the entry. -/
def Numbered (g : Graph) : Prop :=
  ∀ k n, g.numbers.find? k = some n → (g.node n).numbered ∧ (g.node n).key = k

theorem node_of_size_le (h : g.size ≤ n) : g.node n = default := by
  rw [node, Array.getD_eq_getD_getElem?, Array.getElem?_eq_none h]
  rfl

theorem Numbered.lt_size (h : g.Numbered) (hk : g.numbers.find? k = some n) : n < g.size := by
  by_contra hbig
  have hnumbered := (h k n hk).1
  rw [node_of_size_le (Nat.le_of_not_lt hbig)] at hnumbered
  cases hnumbered

theorem Numbered.equal?_spec (h : g.Numbered) (hm : g.equal? n = some m) :
    m ∈ g.live ∧ m ≠ n ∧ (g.node m).key = (g.node n).key := by
  unfold equal? at hm
  split_ifs at hm
  split at hm
  case h_2 => cases hm
  case h_1 m' hfound =>
    split_ifs at hm with hother
    obtain rfl := Option.some.inj hm
    exact ⟨mem_live.mpr ⟨h.lt_size hfound, by simpa using hother.2⟩, hother.1, (h _ _ hfound).2⟩

theorem numbered_empty : empty.Numbered := by
  intro k n hk
  have hget : (SideTable.get ({} : SideTable (List (NodeKey × NodeId))) k.slot) = [] := by
    rw [SideTable.get, Array.getD_eq_getD_getElem?]
    rfl
  change (SideTable.get ({} : SideTable (List (NodeKey × NodeId))) k.slot).lookup k = some n at hk
  rw [hget] at hk
  cases hk

theorem Numbered.mono (h : g.Numbered)
    (hentry : ∀ k n, g'.numbers.find? k = some n → g.numbers.find? k = some n ∧
      (g'.node n).numbered = (g.node n).numbered ∧ (g'.node n).key = (g.node n).key) :
    g'.Numbered := by
  intro k n hk
  obtain ⟨hold, hmark, hkey⟩ := hentry k n hk
  rw [hmark, hkey]
  exact h k n hold

theorem node_unnumber (g : Graph) (n m : NodeId) :
    ∃ b, (g.unnumber n).node m = { g.node m with numbered := b } ∧
      (n ≠ m → b = (g.node m).numbered) := by
  have hflag : ∃ b, (g.modifyNode n ({ · with numbered := false })).node m =
      { g.node m with numbered := b } ∧ (n ≠ m → b = (g.node m).numbered) := by
    rw [node_modifyNode]
    split_ifs with hm
    · exact ⟨false, rfl, fun hne => absurd hm.1 hne⟩
    · exact ⟨(g.node m).numbered, rfl, fun _ => rfl⟩
  unfold unnumber
  dsimp only
  split_ifs
  · exact hflag
  · exact hflag
  · exact ⟨(g.node m).numbered, rfl, fun _ => rfl⟩

theorem node_unnumber_of_ne (h : n ≠ m) : (g.unnumber n).node m = g.node m := by
  obtain ⟨b, hb, hsame⟩ := g.node_unnumber n m
  rw [hb, hsame h]

theorem find?_unnumber (g : Graph) (hk : (g.unnumber n).numbers.find? k = some m) :
    g.numbers.find? k = some m := by
  unfold unnumber at hk
  dsimp only at hk
  split_ifs at hk
  · exact (ValueNumbers.find?_of_erase _ hk).2
  · exact hk
  · exact hk

theorem Numbered.ne_of_unnumber (h : g.Numbered)
    (hk : (g.unnumber n).numbers.find? k = some m) : m ≠ n := by
  rintro rfl
  obtain ⟨hnumbered, hkey⟩ := h k m (g.find?_unnumber hk)
  unfold unnumber at hk
  dsimp only at hk
  rw [if_pos hnumbered, hkey] at hk
  split_ifs at hk with hfound
  · exact (ValueNumbers.find?_of_erase _ hk).1 rfl
  · exact hfound hk

/-- Node `n` is taken out of the table and updated by `f`; use lists are not looked at. -/
structure Updated (n : NodeId) (f : Node → Node) (g g' : Graph) : Prop where
  size : g'.size = g.size
  node : ∀ m, g'.node m = ((g.unnumber n).modifyNode n f).node m
  numbers : g'.numbers = (g.unnumber n).numbers

namespace Updated

theorem of_ne (h : Updated n f g g') (hm : n ≠ m) : g'.node m = g.node m := by
  rw [h.node, node_modifyNode, if_neg fun h => hm h.1, node_unnumber_of_ne hm]

theorem field {α : Type} (field : Node → α) (h : Updated n f g g')
    (hf : ∀ x, field (f x) = field x) (hmark : ∀ x b, field { x with numbered := b } = field x)
    (m : NodeId) : field (g'.node m) = field (g.node m) := by
  obtain ⟨b, hb, -⟩ := g.node_unnumber n m
  rw [h.node, field_modifyNode hf, hb, hmark]

theorem numbered (h : Updated n f g g') (hg : g.Numbered) : g'.Numbered := by
  refine hg.mono fun k m hk => ?_
  rw [h.numbers] at hk
  have hsame := h.of_ne (hg.ne_of_unnumber hk).symm
  exact ⟨g.find?_unnumber hk, by rw [hsame], by rw [hsame]⟩

end Updated

theorem numbers_addUse (g : Graph) (e : Edge) (n : NodeId) :
    (g.addUse e n).numbers = g.numbers := by
  cases e <;> rfl

theorem numbers_removeUse (g : Graph) (e : Edge) (n : NodeId) :
    (g.removeUse e n).numbers = g.numbers := by
  cases e <;> rfl

theorem updated_modifyNode (g : Graph) (n : NodeId) (f : Node → Node) :
    Updated n f g ((g.unnumber n).modifyNode n f) :=
  ⟨(size_modifyNode ..).trans (SameLinks.unnumber g n).size, fun _ => rfl, rfl⟩

theorem setInput_eq_or_updated (g : Graph) (n : NodeId) (i : Nat) (e : Edge) :
    g.setInput n i e = g ∨
      Updated n (fun x => { x with inputs := x.inputs.setIfInBounds i e }) g (g.setInput n i e) ∧
        ∀ d u, ((g.setInput n i e).usesOf d).count u =
          (g.usesOf d).count u - (if g.input n i = some d ∧ n = u then 1 else 0) +
            if e = some d ∧ n = u then 1 else 0 := by
  unfold setInput
  dsimp only
  split_ifs
  · exact .inl rfl
  · refine .inr ⟨⟨?_, fun m => ?_, ?_⟩, fun d u => ?_⟩
    · rw [size_addUse, size_modifyNode, size_removeUse, (SameLinks.unnumber g n).size]
    · rw [node_addUse, node_modifyNode, node_modifyNode, size_removeUse, node_removeUse]
    · rw [numbers_addUse]
      exact numbers_removeUse ..
    · rw [count_usesOf_addUse, usesOf_modifyNode, count_usesOf_removeUse,
        (SameLinks.unnumber g n).usesOf]

theorem updated_pushInput (g : Graph) (n : NodeId) (e : Edge) :
    Updated n (fun x => { x with inputs := x.inputs.push e }) g (g.pushInput n e) := by
  refine ⟨?_, fun m => ?_, numbers_addUse ..⟩
  · rw [pushInput, size_addUse, size_modifyNode, (SameLinks.unnumber g n).size]
  · rw [pushInput, node_addUse]

theorem updated_removeInput (g : Graph) (n : NodeId) (i : Nat) :
    Updated n (fun x => { x with inputs := x.inputs.eraseIdxIfInBounds i }) g
      (g.removeInput n i) := by
  refine ⟨?_, fun m => ?_, numbers_removeUse ..⟩
  · rw [removeInput, size_removeUse, size_modifyNode, (SameLinks.unnumber g n).size]
  · rw [removeInput, node_removeUse]

theorem numbers_foldl_removeUse (es : List Edge) (g : Graph) (n : NodeId) :
    (es.foldl (fun g e => g.removeUse e n) g).numbers = g.numbers := by
  induction es generalizing g with
  | nil => rfl
  | cons e es ih => rw [List.foldl_cons, ih, numbers_removeUse]

theorem updated_bury (g : Graph) (n : NodeId) :
    Updated n ({ · with dead := true, inputs := #[] }) g (g.bury n).2 := by
  refine ⟨?_, fun m => ?_, ?_⟩
  · rw [bury_snd, size_foldl_removeUse, size_modifyNode, (SameLinks.unnumber g n).size]
  · rw [bury_snd, node_foldl_removeUse]
  · rw [bury_snd, numbers_foldl_removeUse]
    rfl

theorem find?_redirectAll (old : NodeId) (new : Edge) (us : List NodeId) (g : Graph)
    (hk : (g.redirectAll old new us).numbers.find? k = some m) :
    g.numbers.find? k = some m := by
  induction us generalizing g with
  | nil => exact hk
  | cons u us ih =>
    let redirected (x : Node) : Node := { x with inputs := x.inputs.map (redirect old new) }
    have hk : ((g.unnumber u).modifyNode u redirected).numbers.find? k = some m := ih _ hk
    exact find?_unnumber (n := u) g hk

theorem find?_replaceAllUses (g : Graph) {old : NodeId} {new : Edge}
    (hk : (g.replaceAllUses old new).numbers.find? k = some m) :
    g.numbers.find? k = some m := by
  by_cases hne : new = some old
  · rwa [replaceAllUses, if_pos hne] at hk
  · obtain ⟨r, uses, rfl, heq⟩ := g.exists_redirected hne
    rw [heq] at hk
    exact find?_redirectAll old new _ { g with uses := g.uses.set old #[] } hk

theorem numbers_foldl_addUse (es : List Edge) (g : Graph) (n : NodeId) :
    (es.foldl (fun g e => g.addUse e n) g).numbers = g.numbers := by
  induction es generalizing g with
  | nil => rfl
  | cons e es ih => rw [List.foldl_cons, ih, numbers_addUse]

theorem numbers_add (g : Graph) (op : Op) (xs : Array Edge) (decl : Ty) :
    (g.add op xs decl).2.numbers = g.numbers := by
  unfold add
  dsimp only
  rw [← Array.foldl_toList, numbers_foldl_addUse]

theorem const_cases (g : Graph) (t : Ty) :
    (∃ n, g.numbers.find? ⟨.const t, .top, #[]⟩ = some n ∧ g.isDead n = false ∧
      g.const t = (n, g)) ∨
    (g.const t).1 = g.size ∧ (g.const t).2.size = g.size + 1 ∧
      (∀ m, (g.const t).2.node m = if g.size = m then
        { op := .const t, inputs := #[], ty := t, numbered := true } else g.node m) ∧
      (g.const t).2.numbers = g.numbers.insert ⟨.const t, .top, #[]⟩ g.size ∧
      ∀ d, (g.const t).2.usesOf d = g.usesOf d := by
  unfold const
  dsimp only
  split
  case h_1 n hfound =>
    obtain ⟨hfind, hlive⟩ := Option.filter_eq_some_iff.mp hfound
    exact .inl ⟨n, hfind, by simpa using hlive, rfl⟩
  case h_2 =>
    obtain ⟨hsize, hnode, -⟩ := g.add_spec (.const t) #[] .top
    refine .inr ⟨rfl, ?_, fun m => ?_, ?_, fun d => rfl⟩
    · exact (size_modifyNode ..).trans hsize
    · refine (node_modifyNode ..).trans ?_
      rw [hnode, hsize]
      by_cases hm : g.size = m
      · rw [if_pos ⟨hm, Nat.lt_succ_self g.size⟩, if_pos hm, if_pos hm]
      · rw [if_neg fun h => hm h.1, if_neg hm, if_neg hm]
    · exact congrArg (fun table : ValueNumbers => table.insert ⟨.const t, .top, #[]⟩ g.size)
        (g.numbers_add (.const t) #[] .top)

theorem numbers_foldl_removeLiveUse (es : List Edge) (g : Graph) (n : NodeId) :
    (es.foldl (fun g e => if e.any (!g.isDead ·) then g.removeUse e n else g) g).numbers =
      g.numbers := by
  induction es generalizing g with
  | nil => rfl
  | cons e es ih =>
    rw [List.foldl_cons, ih]
    split_ifs
    · exact numbers_removeUse ..
    · rfl

theorem detachAll_unlisted (ns : List NodeId) (g : Graph) :
    (ns.foldl detach g).numbers = g.numbers ∧
      ∀ m ∉ ns, (ns.foldl detach g).node m = g.node m := by
  induction ns generalizing g with
  | nil => exact ⟨rfl, fun _ _ => rfl⟩
  | cons n ns ih =>
    have hnumbers : (g.detach n).numbers = g.numbers := by
      unfold detach
      dsimp only
      rw [← Array.foldl_toList]
      exact numbers_foldl_removeLiveUse ..
    have hnode (m : NodeId) (hm : m ≠ n) : (g.detach n).node m = g.node m := by
      rw [node_detach, node_modifyNode, if_neg fun h => hm h.1.symm]
    obtain ⟨hnumbers', hnode'⟩ := ih (g.detach n)
    refine ⟨hnumbers'.trans hnumbers, fun m hm => ?_⟩
    rw [List.mem_cons, not_or] at hm
    exact (hnode' m hm.2).trans (hnode m hm.1)

namespace Numbered

theorem number (h : g.Numbered) (n : NodeId) : (g.number n).Numbered := by
  unfold Graph.number
  dsimp only
  split_ifs with hnew
  · have hlt : n < g.size := by
      by_contra hbig
      rw [op, node_of_size_le (Nat.le_of_not_lt hbig)] at hnew
      cases hnew
    intro k m hk
    rw [node_modifyNode]
    rcases ValueNumbers.find?_of_insert _ hk with ⟨rfl, rfl⟩ | hk
    · rw [if_pos ⟨rfl, hlt⟩]
      exact ⟨rfl, rfl⟩
    · obtain ⟨hmark, hkey⟩ := h k m hk
      split_ifs
      · exact ⟨rfl, hkey⟩
      · exact ⟨hmark, hkey⟩
  · exact h

theorem modifyNode (h : g.Numbered) (hkey : ∀ x, (f x).key = x.key)
    (hmark : ∀ x, (f x).numbered = x.numbered) (n : NodeId) : (g.modifyNode n f).Numbered :=
  h.mono fun _ m hk => ⟨hk, field_modifyNode hmark g n m, field_modifyNode hkey g n m⟩

theorem add (h : g.Numbered) (op : Op) (xs : Array Edge) (decl : Ty) :
    (g.add op xs decl).2.Numbered := by
  obtain ⟨-, hnode, -⟩ := g.add_spec op xs decl
  refine h.mono fun k m hk => ?_
  rw [numbers_add] at hk
  rw [hnode, if_neg (h.lt_size hk).ne']
  exact ⟨hk, rfl, rfl⟩

theorem const (h : g.Numbered) (t : Ty) : (g.const t).2.Numbered := by
  rcases g.const_cases t with ⟨n, -, -, hsame⟩ | ⟨-, -, hnode, hnumbers, -⟩
  · rw [hsame]
    exact h
  · intro k m hk
    rw [hnumbers] at hk
    rw [hnode]
    rcases ValueNumbers.find?_of_insert _ hk with ⟨rfl, rfl⟩ | hk
    · rw [if_pos rfl]
      exact ⟨rfl, rfl⟩
    · rw [if_neg (h.lt_size hk).ne']
      exact h k m hk

theorem redirectAll (h : g.Numbered) (old : NodeId) (new : Edge) (us : List NodeId) :
    (g.redirectAll old new us).Numbered := by
  induction us generalizing g with
  | nil => exact h
  | cons u us ih => exact ih ((g.updated_modifyNode u _).numbered h)

theorem replaceAllUses (h : g.Numbered) (old : NodeId) (new : Edge) :
    (g.replaceAllUses old new).Numbered := by
  by_cases hne : new = some old
  · rw [Graph.replaceAllUses, if_pos hne]
    exact h
  · have hcleared : Numbered { g with uses := g.uses.set old #[] } := h
    have hredirected := hcleared.redirectAll old new (g.usesOf old).toList
    obtain ⟨r, uses, hr, heq⟩ := g.exists_redirected hne
    rw [hr] at hredirected
    rw [heq]
    exact hredirected

theorem reapAll (keep : Edge) (k : Nat) (work : List NodeId) (h : g.Numbered) :
    (Graph.reapAll keep k work g).Numbered := by
  induction k generalizing work g with
  | zero => exact h
  | succ k ih =>
    rw [Graph.reapAll]
    split
    · exact h
    · exact ih _ ((g.updated_bury _).numbered h)

theorem subsume (h : g.Numbered) (old : NodeId) (new : Edge) : (g.subsume old new).Numbered := by
  unfold Graph.subsume
  split_ifs
  · exact h
  · exact (h.replaceAllUses old new).reapAll new _ [old]

theorem markDead (h : g.Numbered) (ns : List NodeId) :
    (g.markDead ns).Numbered ∧ ∀ k n, (g.markDead ns).numbers.find? k = some n →
      g.numbers.find? k = some n ∧ n ∉ ns := by
  induction ns generalizing g with
  | nil => exact ⟨h, fun _ _ hk => ⟨hk, List.not_mem_nil⟩⟩
  | cons n ns ih =>
    have hstep := g.updated_modifyNode n ({ · with dead := true })
    obtain ⟨hend, hentry⟩ := ih (hstep.numbered h)
    refine ⟨hend, fun k m hk => ?_⟩
    obtain ⟨hk, hm⟩ := hentry k m hk
    rw [hstep.numbers] at hk
    exact ⟨g.find?_unnumber hk, List.not_mem_cons_of_ne_of_not_mem (h.ne_of_unnumber hk) hm⟩

theorem sweep (h : g.Numbered) : g.sweep.2.Numbered := by
  obtain ⟨hmarked, hentry⟩ := h.markDead g.unreachable
  obtain ⟨hnumbers, hnode⟩ := detachAll_unlisted g.unreachable (g.markDead g.unreachable)
  refine hmarked.mono fun k n hk => ?_
  have hk' : (g.markDead g.unreachable).numbers.find? k = some n := hnumbers ▸ hk
  have hsame := hnode n (hentry k n hk').2
  exact ⟨hk', congrArg Node.numbered hsame, congrArg Node.key hsame⟩

end Numbered

end Graph

end SeaNodes
