import SeaNodes.Proofs.Graph.Mirrored
import SeaNodes.Proofs.Graph.Numbered

namespace SeaNodes

namespace ValueNumbers

variable (t : ValueNumbers) {k k' : NodeKey} {n : NodeId}

theorem lookup_filter_of_ne {l : List (NodeKey × NodeId)} (h : k' ≠ k) :
    (l.filter (·.1 != k)).lookup k' = l.lookup k' := by
  induction l with
  | nil => rfl
  | cons x l ih =>
    by_cases hx : x.1 = k
    · rw [List.filter_cons_of_neg (by simpa using hx), ih, List.lookup_cons,
        beq_false_of_ne fun heq => h (heq.trans hx)]
    · rw [List.filter_cons_of_pos (by simpa using hx), List.lookup_cons, List.lookup_cons, ih]

theorem find?_erase_of_ne (h : k' ≠ k) : (t.erase k).find? k' = t.find? k' := by
  rw [find?, erase, SideTable.get_modify]
  split_ifs with hslot
  · rw [lookup_filter_of_ne h]
    rfl
  · rfl

theorem find?_insert_self : (t.insert k n).find? k = some n := by
  rw [find?, insert, SideTable.get_modify, if_pos rfl, List.lookup_cons_self]

theorem find?_insert_of_ne (h : k' ≠ k) : (t.insert k n).find? k' = t.find? k' := by
  rw [find?, insert, SideTable.get_modify]
  split_ifs with hslot
  · rw [List.lookup_cons, beq_false_of_ne h]
    exact lookup_filter_of_ne h
  · rfl

end ValueNumbers

namespace Graph

variable {g g' : Graph} {n m : NodeId} {k : NodeKey} {f : Node → Node}

/-- The entries of the table are marked nodes under their keys, and it holds every live node that is
marked. -/
structure Filed (g : Graph) : Prop where
  entry : g.Numbered
  marked : ∀ n, g.isDead n = false → (g.node n).numbered → g.numbers.find? (g.node n).key = some n

theorem numbered_unnumber (g : Graph) (n : NodeId) : ((g.unnumber n).node n).numbered = false := by
  have hcleared : ((g.modifyNode n ({ · with numbered := false })).node n).numbered = false := by
    rw [node_modifyNode]
    split_ifs with hn
    · rfl
    · rw [node_of_size_le (Nat.le_of_not_lt fun h => hn ⟨rfl, h⟩)]
      rfl
  unfold unnumber
  dsimp only
  split_ifs with hmark
  · exact hcleared
  · exact hcleared
  · exact Bool.eq_false_of_not_eq_true hmark

theorem find?_unnumber_of_ne (hk : g.numbers.find? k = some m) (hm : n ≠ m) :
    (g.unnumber n).numbers.find? k = some m := by
  unfold unnumber
  dsimp only
  split_ifs with hmark hfound
  · refine (ValueNumbers.find?_erase_of_ne _ ?_).trans hk
    rintro rfl
    exact hm (Option.some.inj (hfound.symm.trans hk))
  · exact hk
  · exact hk

namespace Updated

theorem unmarked (h : Updated n f g g') (hmark : ∀ x, (f x).numbered = x.numbered) :
    (g'.node n).numbered = false := by
  rw [h.node, field_modifyNode hmark]
  exact g.numbered_unnumber n

end Updated

namespace Filed

theorem updated (h : g.Filed) (hu : Updated n f g g')
    (hmark : ∀ x, (f x).numbered = x.numbered) : g'.Filed := by
  refine ⟨hu.numbered h.entry, fun m hm hnumbered => ?_⟩
  have hne : n ≠ m := by
    rintro rfl
    rw [hu.unmarked hmark] at hnumbered
    cases hnumbered
  have hsame := hu.of_ne hne
  rw [isDead, hsame] at hm
  rw [hsame] at hnumbered ⊢
  rw [hu.numbers]
  exact find?_unnumber_of_ne (h.marked m hm hnumbered) hne

theorem modifyNode (h : g.Filed) (hkey : ∀ x, (f x).key = x.key)
    (hmark : ∀ x, (f x).numbered = x.numbered) (hdead : ∀ x, (f x).dead = x.dead) (n : NodeId) :
    (g.modifyNode n f).Filed := by
  refine ⟨h.entry.modifyNode hkey hmark n, fun m hm hnumbered => ?_⟩
  rw [isDead, field_modifyNode hdead] at hm
  rw [field_modifyNode hmark] at hnumbered
  rw [field_modifyNode hkey]
  exact h.marked m hm hnumbered

theorem equal?_of_key (h : g.Filed) (hop : (g.op n).isNumbered) (hm : g.isDead m = false)
    (hnumbered : (g.node m).numbered) (hkey : (g.node m).key = (g.node n).key) (hne : m ≠ n) :
    g.equal? n = some m := by
  unfold equal?
  rw [if_pos hop, ← hkey, h.marked m hm hnumbered]
  dsimp only
  rw [if_pos ⟨hne, by rw [hm]; rfl⟩]

theorem number (h : g.Filed) (n : NodeId) : (g.number n).Filed := by
  refine ⟨h.entry.number n, ?_⟩
  unfold Graph.number
  dsimp only
  split_ifs with hnew
  · simp only [Bool.and_eq_true, Bool.not_eq_true', Option.isNone_iff_eq_none] at hnew
    obtain ⟨⟨hop, hunmarked⟩, hequal⟩ := hnew
    let marked (x : Node) : Node := { x with numbered := true }
    let entered : Graph := { g with numbers := g.numbers.insert (g.node n).key n }
    intro m hm hnumbered
    have hdead : g.isDead m = false :=
      (field_modifyNode (f := marked) (fun _ => rfl) entered n m).symm.trans hm
    have hkey : ((entered.modifyNode n marked).node m).key = (g.node m).key :=
      field_modifyNode (f := marked) (fun _ => rfl) entered n m
    rw [hkey]
    show (g.numbers.insert (g.node n).key n).find? (g.node m).key = some m
    by_cases hmn : m = n
    · rw [hmn]
      exact ValueNumbers.find?_insert_self _
    · have hmarked : (g.node m).numbered := by
        rw [node_modifyNode, if_neg fun h => hmn h.1.symm] at hnumbered
        exact hnumbered
      have hne : (g.node m).key ≠ (g.node n).key := by
        intro hkey
        rw [h.equal?_of_key hop hdead hmarked hkey hmn] at hequal
        cases hequal
      exact (ValueNumbers.find?_insert_of_ne _ hne).trans (h.marked m hdead hmarked)
  · exact h.marked

theorem add (h : g.Filed) (op : Op) (xs : Array Edge) (decl : Ty) :
    (g.add op xs decl).2.Filed := by
  obtain ⟨-, hnode, -⟩ := g.add_spec op xs decl
  refine ⟨h.entry.add op xs decl, fun m hm hnumbered => ?_⟩
  rw [numbers_add]
  rw [isDead, hnode] at hm
  rw [hnode] at hnumbered ⊢
  split_ifs at hm hnumbered ⊢ with hnew
  exact h.marked m hm hnumbered

theorem const (h : g.Filed) (t : Ty) : (g.const t).2.Filed := by
  refine ⟨h.entry.const t, ?_⟩
  have hmiss (hfst : (g.const t).1 = g.size) (n : NodeId)
      (hn : g.numbers.find? ⟨.const t, .top, #[]⟩ = some n) : g.isDead n := by
    by_contra hlive
    have hfound : (g.numbers.find? ⟨.const t, .top, #[]⟩).filter (!g.isDead ·) = some n := by
      rw [hn, Option.filter_some, if_pos (by simpa using hlive)]
    have hconst : g.const t = (n, g) := by
      unfold Graph.const
      simp only [hfound]
    rw [hconst] at hfst
    exact absurd (h.entry.lt_size hn) (Nat.not_lt_of_le hfst.ge)
  rcases g.const_cases t with ⟨n, -, -, hsame⟩ | ⟨hfst, -, hnode, hnumbers, -⟩
  · rw [hsame]
    exact h.marked
  · intro m hm hnumbered
    rw [hnumbers]
    rw [isDead, hnode] at hm
    rw [hnode] at hnumbered ⊢
    split_ifs at hm hnumbered ⊢ with hnew
    · rw [hnew]
      exact ValueNumbers.find?_insert_self _
    · have hold := h.marked m hm hnumbered
      refine (ValueNumbers.find?_insert_of_ne _ fun hkey => ?_).trans hold
      rw [hkey] at hold
      have hdead := hmiss hfst m hold
      rw [isDead, hm] at hdead
      cases hdead

theorem setInput (h : g.Filed) (n : NodeId) (i : Nat) (e : Edge) : (g.setInput n i e).Filed := by
  rcases g.setInput_eq_or_updated n i e with hsame | ⟨hu, -⟩
  · rw [hsame]
    exact h
  · exact h.updated hu fun _ => rfl

theorem withUses (h : g.Filed) (uses : SideTable (Array NodeId)) : Filed { g with uses } :=
  ⟨h.entry, h.marked⟩

theorem redirectAll (h : g.Filed) (old : NodeId) (new : Edge) (us : List NodeId) :
    (g.redirectAll old new us).Filed := by
  induction us generalizing g with
  | nil => exact h
  | cons u us ih => exact ih (h.updated (g.updated_modifyNode u _) fun _ => rfl)

theorem replaceAllUses (h : g.Filed) (old : NodeId) (new : Edge) :
    (g.replaceAllUses old new).Filed := by
  by_cases hne : new = some old
  · rw [Graph.replaceAllUses, if_pos hne]
    exact h
  · have hredirected := (h.withUses (g.uses.set old #[])).redirectAll old new (g.usesOf old).toList
    obtain ⟨r, uses, hr, heq⟩ := g.exists_redirected hne
    rw [hr] at hredirected
    rw [heq]
    exact hredirected.withUses _

theorem reapAll (keep : Edge) (k : Nat) (work : List NodeId) (h : g.Filed) :
    (Graph.reapAll keep k work g).Filed := by
  induction k generalizing work g with
  | zero => exact h
  | succ k ih =>
    rw [Graph.reapAll]
    split
    · exact h
    · exact ih _ (h.updated (g.updated_bury _) fun _ => rfl)

theorem subsume (h : g.Filed) (old : NodeId) (new : Edge) : (g.subsume old new).Filed := by
  unfold Graph.subsume
  split_ifs
  · exact h
  · exact (h.replaceAllUses old new).reapAll new _ [old]

theorem markDead (h : g.Filed) (ns : List NodeId) : (g.markDead ns).Filed := by
  induction ns generalizing g with
  | nil => exact h
  | cons n ns ih => exact ih (h.updated (g.updated_modifyNode n _) fun _ => rfl)

theorem sweep (h : g.Filed) : g.sweep.2.Filed := by
  obtain ⟨hnumbers, hnode⟩ := detachAll_unlisted g.unreachable (g.markDead g.unreachable)
  refine ⟨h.entry.sweep, fun m hm hnumbered => ?_⟩
  have hlt : m < g.sweep.2.size := by
    by_contra hbig
    rw [node_of_size_le (Nat.le_of_not_lt hbig)] at hnumbered
    cases hnumbered
  have hsame := hnode m ((g.sweep_spec.1 m).mp (mem_live.mpr ⟨hlt, hm⟩)).2
  have hkey : (g.sweep.2.node m).key = ((g.markDead g.unreachable).node m).key :=
    congrArg Node.key hsame
  have htable : g.sweep.2.numbers = (g.markDead g.unreachable).numbers := hnumbers
  rw [hkey, htable]
  refine (h.markDead g.unreachable).marked m ?_ ?_
  · exact (congrArg Node.dead hsame).symm.trans hm
  · exact (congrArg Node.numbered hsame).symm.trans hnumbered

end Filed

end Graph

/-- Stands for a value that is known. -/
def Op.isConst : Op → Bool
  | .const _ => true
  | _ => false

namespace Graph

variable {g g' : Graph} {n m : NodeId} {f : Node → Node}

/-- No dead node is marked, and every live constant is in the table. -/
structure Exact (g : Graph) : Prop where
  filed : g.Filed
  unmarked : ∀ n, g.isDead n → (g.node n).numbered = false
  const : ∀ n t, g.isDead n = false → g.op n = .const t →
    (g.node n).numbered ∧ (g.node n).key = ⟨.const t, .top, #[]⟩

namespace Exact

theorem find?_const (h : g.Exact) {t : Ty} (hn : g.isDead n = false) (hop : g.op n = .const t) :
    g.numbers.find? ⟨.const t, .top, #[]⟩ = some n := by
  obtain ⟨hnumbered, hkey⟩ := h.const n t hn hop
  rw [← hkey]
  exact h.filed.marked n hn hnumbered

theorem isConst_of_inputs (h : g.Exact) (hn : g.isDead n = false) (hinputs : g.inputs n ≠ #[]) :
    (g.op n).isConst = false := by
  cases hop : g.op n with
  | const t => exact absurd (congrArg NodeKey.inputs (h.const n t hn hop).2) hinputs
  | _ => rfl

theorem updated (h : g.Exact) (hu : Updated n f g g') (hmark : ∀ x, (f x).numbered = x.numbered)
    (hconst : ∀ b, let x := f { g.node n with numbered := b }
      x.dead = true ∨ x.op.isConst = false) : g'.Exact := by
  refine ⟨h.filed.updated hu hmark, fun m hm => ?_, fun m t hm hop => ?_⟩
  · by_cases hne : n = m
    · exact hne ▸ hu.unmarked hmark
    · rw [isDead, hu.of_ne hne] at hm
      rw [hu.of_ne hne]
      exact h.unmarked m hm
  · by_cases hne : n = m
    · subst hne
      obtain ⟨b, hb, -⟩ := g.node_unnumber n n
      rw [isDead, hu.node, node_modifyNode, hb] at hm
      rw [op, hu.node, node_modifyNode, hb] at hop
      split_ifs at hm hop with hlt
      · rcases hconst b with hdead | hno
        · rw [hdead] at hm
          cases hm
        · rw [hop] at hno
          cases hno
      · have hdefault := node_of_size_le (Nat.le_of_not_lt fun h => hlt
          ⟨rfl, (SameLinks.unnumber g n).size ▸ h⟩)
        rw [hdefault] at hop
        cases hop
    · rw [isDead, hu.of_ne hne] at hm
      rw [op, hu.of_ne hne] at hop
      rw [hu.of_ne hne]
      exact h.const m t hm hop

theorem updated_of_inputs (h : g.Exact) (hu : Updated n f g g')
    (hmark : ∀ x, (f x).numbered = x.numbered) (hop : ∀ x, (f x).op = x.op)
    (hn : g.isDead n = false) (hinputs : g.inputs n ≠ #[]) : g'.Exact := by
  refine h.updated hu hmark fun b => .inr ?_
  rw [hop]
  exact h.isConst_of_inputs hn hinputs

theorem number (h : g.Exact) (hn : g.isDead n = false) : (g.number n).Exact := by
  have hlinks := SameLinks.number g n
  have hmark (m : NodeId) : ∃ b, (g.number n).node m = { g.node m with numbered := b } ∧
      ((g.node m).numbered → b) ∧ (n ≠ m → b = (g.node m).numbered) := by
    unfold Graph.number
    dsimp only
    split_ifs
    · rw [node_modifyNode]
      split_ifs with hm
      · exact ⟨true, rfl, fun _ => rfl, fun hne => absurd hm.1 hne⟩
      · exact ⟨_, rfl, id, fun _ => rfl⟩
    · exact ⟨_, rfl, id, fun _ => rfl⟩
  refine ⟨h.filed.number n, fun m hm => ?_, fun m t hm hop => ?_⟩ <;>
    obtain ⟨b, hb, hkept, hothers⟩ := hmark m
  · rw [hlinks.isDead] at hm
    have hne : n ≠ m := by
      rintro rfl
      rw [hm] at hn
      cases hn
    rw [hb, hothers hne]
    exact h.unmarked m hm
  · rw [hlinks.isDead] at hm
    rw [op, hb] at hop
    obtain ⟨hnumbered, hkey⟩ := h.const m t hm hop
    rw [hb]
    exact ⟨hkept hnumbered, hkey⟩

theorem add (h : g.Exact) {op : Op} (hop : op.isConst = false) (xs : Array Edge) (decl : Ty) :
    (g.add op xs decl).2.Exact := by
  obtain ⟨-, hnode, -⟩ := g.add_spec op xs decl
  refine ⟨h.filed.add op xs decl, fun m hm => ?_, fun m t hm hconst => ?_⟩
  · rw [isDead, hnode] at hm
    rw [hnode]
    split_ifs at hm ⊢
    exact h.unmarked m hm
  · rw [isDead, hnode] at hm
    rw [Graph.op, hnode] at hconst
    rw [hnode]
    split_ifs at hm hconst ⊢
    · rw [show op = .const t from hconst] at hop
      cases hop
    · exact h.const m t hm hconst

theorem makeConst (h : g.Exact) (t : Ty) : (g.const t).2.Exact := by
  rcases g.const_cases t with ⟨n, -, -, hsame⟩ | ⟨-, -, hnode, -⟩
  · rw [hsame]
    exact h
  refine ⟨h.filed.const t, fun m hm => ?_, fun m t' hm hop => ?_⟩
  · rw [isDead, hnode] at hm
    rw [hnode]
    split_ifs at hm ⊢
    exact h.unmarked m hm
  · rw [isDead, hnode] at hm
    rw [op, hnode] at hop
    rw [hnode]
    split_ifs at hm hop ⊢
    · obtain rfl := Op.const.inj hop
      exact ⟨rfl, rfl⟩
    · exact h.const m t' hm hop

theorem withUses (h : g.Exact) (uses : SideTable (Array NodeId)) : Exact { g with uses } :=
  ⟨h.filed.withUses uses, h.unmarked, h.const⟩

/-- Users of a node have inputs, so none of them is a constant. -/
theorem redirectAll (old : NodeId) (new : Edge) (us : List NodeId) (h : g.Exact)
    (hus : ∀ u ∈ us, g.isDead u = false → (g.op u).isConst = false) :
    (g.redirectAll old new us).Exact := by
  induction us generalizing g with
  | nil => exact h
  | cons u us ih =>
    rw [List.forall_mem_cons] at hus
    let redirected (x : Node) : Node := { x with inputs := x.inputs.map (redirect old new) }
    have hu := g.updated_modifyNode u redirected
    have hdead := hu.field Node.dead (fun _ => rfl) fun _ _ => rfl
    have hop := hu.field Node.op (fun _ => rfl) fun _ _ => rfl
    refine ih (h.updated hu (fun _ => rfl) fun b => ?_) fun v hv hlive => ?_
    · by_cases hlive : g.isDead u = false
      · exact .inr (hus.1 hlive)
      · exact .inl (Bool.eq_true_of_not_eq_false hlive)
    · rw [Graph.op, hop]
      exact hus.2 v hv ((hdead v).symm.trans hlive)

theorem replaceAllUses (h : g.Exact) (hg : g.Mirror) (old : NodeId) (new : Edge) :
    (g.replaceAllUses old new).Exact := by
  by_cases hne : new = some old
  · rw [Graph.replaceAllUses, if_pos hne]
    exact h
  · have hredirected := (h.withUses (g.uses.set old #[])).redirectAll old new
      (g.usesOf old).toList fun u hu hlive => by
        refine h.isConst_of_inputs hlive fun hnone => ?_
        rw [Array.mem_toList_iff, hg.mem_usesOf_iff, hnone] at hu
        exact Array.not_mem_empty _ hu
    obtain ⟨r, uses, hr, heq⟩ := g.exists_redirected hne
    rw [hr] at hredirected
    rw [heq]
    exact hredirected.withUses _

theorem reapAll (keep : Edge) (k : Nat) (work : List NodeId) (h : g.Exact) :
    (Graph.reapAll keep k work g).Exact := by
  induction k generalizing work g with
  | zero => exact h
  | succ k ih =>
    rw [Graph.reapAll]
    split
    · exact h
    · exact ih _ (h.updated (g.updated_bury _) (fun _ => rfl) fun _ => .inl rfl)

theorem markDead (ns : List NodeId) (h : g.Exact) : (g.markDead ns).Exact := by
  induction ns generalizing g with
  | nil => exact h
  | cons n ns ih =>
    exact ih (h.updated (g.updated_modifyNode n ({ · with dead := true })) (fun _ => rfl)
      fun _ => .inl rfl)

end Exact

theorem field_detachAll {α : Type} {field : Node → α}
    (hfield : ∀ x, field { x with inputs := #[] } = field x) (ns : List NodeId) (g : Graph)
    (m : NodeId) : field ((ns.foldl detach g).node m) = field (g.node m) := by
  induction ns generalizing g with
  | nil => rfl
  | cons n ns ih =>
    refine (ih (g.detach n)).trans ?_
    rw [node_detach]
    exact field_modifyNode hfield g n m

theorem Exact.sweep (h : g.Exact) : g.sweep.2.Exact := by
  have hmarked := h.markDead g.unreachable
  have hfield {α : Type} {field : Node → α}
      (hfield : ∀ x, field { x with inputs := #[] } = field x) (m : NodeId) :
      field (g.sweep.2.node m) = field ((g.markDead g.unreachable).node m) :=
    field_detachAll hfield g.unreachable _ m
  have hnode := (detachAll_unlisted g.unreachable (g.markDead g.unreachable)).2
  refine ⟨h.filed.sweep, fun m hm => ?_, fun m t hm hop => ?_⟩
  · exact (hfield (fun _ => rfl) m).trans
      (hmarked.unmarked m ((hfield (fun _ => rfl) m).symm.trans hm))
  · have hlt : m < g.sweep.2.size := by
      by_contra hbig
      rw [op, node_of_size_le (Nat.le_of_not_lt hbig)] at hop
      cases hop
    have hsame := hnode m ((g.sweep_spec.1 m).mp (mem_live.mpr ⟨hlt, hm⟩)).2
    obtain ⟨hnumbered, hkey⟩ := hmarked.const m t ((congrArg Node.dead hsame).symm.trans hm)
      ((congrArg Node.op hsame).symm.trans hop)
    exact ⟨(congrArg Node.numbered hsame).trans hnumbered, (congrArg Node.key hsame).trans hkey⟩

theorem exact_empty : empty.Exact := by
  have hnode (n : NodeId) : (empty.node n).numbered = false ∧ (empty.op n).isConst = false ∧
      empty.isDead n = false := by
    rcases Nat.lt_or_ge n 3 with hlt | hge
    · interval_cases n <;> exact ⟨rfl, rfl, rfl⟩
    · rw [op, isDead, node_of_size_le hge]
      exact ⟨rfl, rfl, rfl⟩
  refine ⟨⟨numbered_empty, fun n _ hn => ?_⟩, fun n _ => (hnode n).1, fun n t _ hop => ?_⟩
  · rw [(hnode n).1] at hn
    cases hn
  · have hconst := (hnode n).2.1
    rw [hop] at hconst
    cases hconst

end Graph

namespace Edit

/-- Constants are made by `const` only and keep their operator and their lack of inputs; nodes leave
the table only through edits. -/
def SparesConstants (g : Graph) : Edit → Prop
  | add op _ _ => op.isConst = false
  | pushInput n _ => (g.op n).isConst = false
  | setOp n op => (g.op n).isConst = false ∧ op.isConst = false
  | unnumber _ => False
  | _ => True

instance (g : Graph) : (e : Edit) → Decidable (e.SparesConstants g)
  | add op _ _ => inferInstanceAs (Decidable (op.isConst = false))
  | pushInput n _ => inferInstanceAs (Decidable ((g.op n).isConst = false))
  | setOp n op => inferInstanceAs (Decidable ((g.op n).isConst = false ∧ op.isConst = false))
  | unnumber _ => isFalse id
  | const _ | setInput .. | removeInput .. | swapInputs .. | replaceAllUses .. | subsume .. | kill _
  | sweep | number _ => isTrue trivial

/-- Each edit of a sequence is legal and spares constants when it is made. -/
def SparingRun : Graph → List Edit → Prop
  | _, [] => True
  | g, e :: es => (e.Legal g ∧ e.SparesConstants g) ∧ SparingRun (e.apply g) es

instance SparingRun.decidable : (g : Graph) → (es : List Edit) → Decidable (SparingRun g es)
  | _, [] => isTrue trivial
  | g, e :: es =>
    have := SparingRun.decidable (e.apply g) es
    inferInstanceAs (Decidable ((e.Legal g ∧ e.SparesConstants g) ∧ SparingRun (e.apply g) es))

theorem exact_apply {g : Graph} {e : Edit} (h : g.Exact) (hg : g.Mirrored) (he : e.Legal g)
    (hconst : e.SparesConstants g) : (e.apply g).Exact := by
  have hinputs {n : NodeId} {i : Nat} (hi : i < (g.inputs n).size) : g.inputs n ≠ #[] := by
    intro hnone
    rw [hnone] at hi
    exact absurd hi (Nat.not_lt_zero i)
  have hlive {n : NodeId} (hn : n ∈ g.live) : g.isDead n = false := (Graph.mem_live.mp hn).2
  cases e with
  | add op inputs decl => exact h.add hconst inputs decl
  | const t => exact h.makeConst t
  | setInput n i new =>
    rcases g.setInput_eq_or_updated n i new with hsame | ⟨hu, -⟩
    · rw [apply, hsame]
      exact h
    · exact h.updated_of_inputs hu (fun _ => rfl) (fun _ => rfl) (hlive he.1) (hinputs he.2.1)
  | pushInput n new =>
    exact h.updated (g.updated_pushInput n new) (fun _ => rfl) fun _ => .inr hconst
  | removeInput n i =>
    exact h.updated_of_inputs (g.updated_removeInput n i) (fun _ => rfl) (fun _ => rfl)
      (hlive he.1) (hinputs he.2)
  | swapInputs n i j =>
    exact h.updated_of_inputs (g.updated_modifyNode n _) (fun _ => rfl) (fun _ => rfl)
      (hlive he.1) (hinputs he.2.1)
  | setOp n op =>
    exact h.updated (g.updated_modifyNode n _) (fun _ => rfl) fun _ => .inr hconst.2
  | replaceAllUses old new => exact h.replaceAllUses hg.mirror old new
  | subsume old new =>
    show (g.subsume old new).Exact
    unfold Graph.subsume
    split_ifs
    · exact h
    · exact (h.replaceAllUses hg.mirror old new).reapAll ..
  | kill n => exact h.reapAll ..
  | sweep => exact h.sweep
  | number n => exact h.number (hlive he)
  | unnumber n => exact hconst.elim

theorem exact_run {g : Graph} {es : List Edit} (h : g.Exact) (hg : g.Mirrored)
    (hes : SparingRun g es) : (run g es).Exact := by
  induction es generalizing g with
  | nil => exact h
  | cons e es ih =>
    obtain ⟨⟨he, hconst⟩, hrest⟩ := hes
    exact ih (exact_apply h hg he hconst) (mirrored_apply hg he) hrest

end Edit

namespace Graph

variable {g : Graph} {n : NodeId}

theorem Exact.const_eq (h : g.Exact) {t : Ty} (hn : g.isDead n = false) (hop : g.op n = .const t) :
    g.const t = (n, g) := by
  have hfound : (g.numbers.find? ⟨.const t, .top, #[]⟩).filter (!g.isDead ·) = some n := by
    rw [h.find?_const hn hop, Option.filter_some, hn]
    rfl
  unfold Graph.const
  simp only [hfound]

end Graph

/-- Whatever legal edits are made to an empty graph, a node is marked exactly when the table holds it
under its present key, the table holds live nodes only, under their present keys, a node is merged
only with another live one of the same operator, declared type and inputs, and there is one live
constant of each type. -/
theorem valueNumbers_exact {es : List Edit} (h : Edit.SparingRun .empty es) :
    let g := Edit.run .empty es
    (∀ n, (g.node n).numbered ↔ g.numbers.find? (g.node n).key = some n) ∧
      (∀ k n, g.numbers.find? k = some n → n ∈ g.live ∧ (g.node n).key = k) ∧
      (∀ n m, g.equal? n = some m → m ∈ g.live ∧ m ≠ n ∧
        g.op m = g.op n ∧ g.decl m = g.decl n ∧ g.inputs m = g.inputs n) ∧
      ∀ n ∈ g.live, ∀ t, g.op n = .const t → g.const t = (n, g) := by
  have hg := Edit.exact_run Graph.exact_empty Graph.mirrored_empty h
  have hlive {n : NodeId} (hn : ((Edit.run .empty es).node n).numbered) :
      (Edit.run .empty es).isDead n = false := by
    by_contra hdead
    rw [hg.unmarked n (Bool.eq_true_of_not_eq_false hdead)] at hn
    cases hn
  dsimp only
  refine ⟨fun n => ⟨fun hn => hg.filed.marked n (hlive hn) hn, fun hn => ?_⟩, fun k n hk => ?_,
    fun n m hm => ?_, fun n hn t hop => hg.const_eq (Graph.mem_live.mp hn).2 hop⟩
  · exact (hg.filed.entry _ n hn).1
  · obtain ⟨hnumbered, hkey⟩ := hg.filed.entry k n hk
    exact ⟨Graph.mem_live.mpr ⟨hg.filed.entry.lt_size hk, hlive hnumbered⟩, hkey⟩
  · obtain ⟨hmem, hne, hkey⟩ := hg.filed.entry.equal?_spec hm
    exact ⟨hmem, hne, congrArg NodeKey.op hkey, congrArg NodeKey.decl hkey,
      congrArg NodeKey.inputs hkey⟩

/-- Two equal sums, of which the second is found under the key of the first until that key changes,
and constants that are asked for again after one of them was removed. -/
def sharedSums : List Edit := [
  .add (.param 0) #[some 0] .anyInt,
  .const (.ofInt 7),
  .add (.arith .add) #[none, some 3, some 4] .top,
  .add (.arith .add) #[none, some 3, some 4] .top,
  .number 5,
  .number 6,
  .const (.ofInt 7),
  .replaceAllUses 4 (some 3),
  .kill 4,
  .const (.ofInt 7),
  .number 6,
  .setInput 6 2 (some 7),
  .number 6,
  .subsume 5 (some 6),
  .add .ret #[some 0, none, some 6] .top,
  .pushInput 1 (some 8),
  .sweep]

theorem valueNumbers_exact_sharedSums : Edit.SparingRun .empty sharedSums ∧
    (Edit.run .empty sharedSums).live = [0, 1, 2, 3, 6, 7, 8] ∧
    (Edit.run .empty sharedSums).numbers.find? ⟨.arith .add, .top, #[none, some 3, some 7]⟩ =
      some 6 ∧
    ((Edit.run .empty sharedSums).const (.ofInt 7)).1 = 7 := by
  have hrun : Edit.SparingRun .empty sharedSums := by decide +kernel
  obtain ⟨hmarked, -, -, hconst⟩ := valueNumbers_exact hrun
  refine ⟨hrun, by decide +kernel, ?_, ?_⟩
  · have hkey : ((Edit.run .empty sharedSums).node 6).key =
        ⟨.arith .add, .top, #[none, some 3, some 7]⟩ := by decide +kernel
    exact hkey ▸ (hmarked 6).mp (by decide +kernel)
  · rw [hconst 7 (by decide +kernel) (.ofInt 7) (by decide +kernel)]

end SeaNodes
