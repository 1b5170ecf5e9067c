import SeaNodes.Proofs.Graph.Linked
import SeaNodes.Proofs.Graph.Mirrored
import SeaNodes.Proofs.Graph.Numbered

namespace SeaNodes

namespace Graph

variable {g g' : Graph}

/-- Nodes were made, and no other was touched. -/
structure Grown (g g' : Graph) : Prop where
  size : g.size ≤ g'.size
  node : ∀ n < g.size, g'.node n = g.node n

namespace Grown

theorem refl (g : Graph) : g.Grown g := ⟨le_rfl, fun _ _ => rfl⟩

theorem trans {g'' : Graph} (h : g.Grown g') (h' : g'.Grown g'') : g.Grown g'' :=
  ⟨h.size.trans h'.size, fun n hn => (h'.node n (hn.trans_le h.size)).trans (h.node n hn)⟩

theorem add (g : Graph) (op : Op) (xs : Array Edge) (decl : Ty) :
    g.Grown (g.add op xs decl).2 := by
  obtain ⟨hsize, hnode, -⟩ := g.add_spec op xs decl
  exact ⟨hsize ▸ Nat.le_succ _, fun n hn => by rw [hnode, if_neg hn.ne']⟩

theorem setTy (h : g.Grown g') {m : NodeId} (hm : g.size ≤ m) (t : Ty) :
    g.Grown (g'.setTy m t) := by
  refine ⟨h.size.trans (size_modifyNode ..).ge, fun n hn => ?_⟩
  rw [Graph.setTy, node_modifyNode, if_neg fun heq => (hn.trans_le hm).ne' heq.1]
  exact h.node n hn

variable (h : g.Grown g') (n : NodeId) (hn : n < g.size)

include h hn

theorem op : g'.op n = g.op n := congrArg Node.op (h.node n hn)

theorem decl : g'.decl n = g.decl n := congrArg Node.decl (h.node n hn)

theorem ty : g'.ty (some n) = g.ty (some n) := congrArg Node.ty (h.node n hn)

theorem input (i : Nat) : g'.input n i = g.input n i := congrArg (Node.input · i) (h.node n hn)

theorem live : n ∈ g'.live ↔ n ∈ g.live := by
  rw [mem_live, mem_live, isDead, isDead, h.node n hn]
  exact and_congr_left fun _ => iff_of_true (hn.trans_le h.size) hn

end Grown

theorem op_setTy (g : Graph) (n : NodeId) (t : Ty) (x : NodeId) : (g.setTy n t).op x = g.op x :=
  field_modifyNode (f := ({ · with ty := t })) (fun _ => rfl) g n x

theorem input_setTy (g : Graph) (n : NodeId) (t : Ty) (x : NodeId) (j : Nat) :
    (g.setTy n t).input x j = g.input x j := by
  rw [input_eq_getElem?, input_eq_getElem?, (sameLinks_setTy g n t).inputs]

theorem Numbered.const_spec (hg : g.Numbered) (t : Ty) :
    g.Grown (g.const t).2 ∧ (g.const t).1 ∈ (g.const t).2.live ∧
      (g.const t).2.op (g.const t).1 = .const t ∧
      ∀ n ∈ (g.const t).2.live, g.size ≤ n → n = (g.const t).1 := by
  rcases g.const_cases t with ⟨c, hfind, hdead, hsame⟩ | ⟨hc, hsize, hnode, -⟩
  · rw [hsame]
    refine ⟨.refl g, mem_live.mpr ⟨hg.lt_size hfind, hdead⟩,
      congrArg NodeKey.op (hg _ c hfind).2, fun n hn hge => ?_⟩
    exact absurd (mem_live.mp hn).1 (Nat.not_lt.mpr hge)
  · have hnew : (g.const t).2.node g.size =
        { op := .const t, inputs := #[], ty := t, numbered := true } := by
      rw [hnode, if_pos rfl]
    refine ⟨⟨hsize ▸ Nat.le_succ g.size, fun n hn => by rw [hnode, if_neg hn.ne']⟩, ?_, ?_,
      fun n hn hge => ?_⟩
    · rw [hc, mem_live, hsize]
      exact ⟨Nat.lt_succ_self _, congrArg Node.dead hnew⟩
    · rw [hc]
      exact congrArg Node.op hnew
    · have hlt := (mem_live.mp hn).1
      rw [hsize] at hlt
      exact (Nat.le_antisymm (Nat.le_of_lt_succ hlt) hge).trans hc.symm

end Graph

namespace Graph

variable {g g' : Graph} {n m : NodeId} {e : Edge} {work : List NodeId}

theorem Mirrored.live_of_input (h : g.Mirrored) {i : Nat} (hi : g.input n i = some m) : m ∈ g.live :=
  h.input_live n m (mem_inputs_of_input hi)

/-- What lives after a removal lived before, with the same inputs. -/
structure Remains (g g' : Graph) : Prop where
  live : ∀ m ∈ g'.live, m ∈ g.live
  inputs : ∀ m ∈ g'.live, g'.inputs m = g.inputs m

theorem Remains.refl (g : Graph) : g.Remains g := ⟨fun _ h => h, fun _ _ => rfl⟩

theorem Remains.trans {g'' : Graph} (h : g.Remains g') (h' : g'.Remains g'') : g.Remains g'' :=
  ⟨fun m hm => h.live m (h'.live m hm),
    fun m hm => (h'.inputs m hm).trans (h.inputs m (h'.live m hm))⟩

theorem Buried.remains (hb : Buried n g g') : g.Remains g' := by
  have hne {m : NodeId} (hm : m ∈ g'.live) : ¬ (n = m ∧ n < g.size) := by
    intro h
    have hdead := (mem_live.mp hm).2
    rw [hb.isDead, if_pos h] at hdead
    cases hdead
  have hlive (m : NodeId) (hm : m ∈ g'.live) : m ∈ g.live := by
    obtain ⟨hlt, hdead⟩ := mem_live.mp hm
    rw [hb.isDead, if_neg (hne hm)] at hdead
    exact mem_live.mpr ⟨hb.size ▸ hlt, hdead⟩
  refine ⟨hlive, fun m hm => ?_⟩
  rw [hb.inputs, if_neg]
  rintro rfl
  exact hne hm ⟨rfl, (mem_live.mp (hlive n hm)).1⟩

theorem Buried.mem_live_of_ne (hb : Buried n g g') (hm : m ∈ g.live) (hne : n ≠ m) :
    m ∈ g'.live := by
  obtain ⟨hlt, hdead⟩ := mem_live.mp hm
  refine mem_live.mpr ⟨hb.size ▸ hlt, ?_⟩
  rw [hb.isDead, if_neg fun h => hne h.1]
  exact hdead

theorem reapAll_spec (keep : Edge) (k : Nat) (work : List NodeId) (h : g.Mirror) :
    g.Remains (reapAll keep k work g) ∧ ∀ m ∈ g.live, keep = some m →
      m ∈ (reapAll keep k work g).live := by
  induction k generalizing work g with
  | zero => exact ⟨.refl g, fun m hm _ => hm⟩
  | succ k ih =>
    rw [reapAll]
    split
    case h_1 => exact ⟨.refl g, fun m hm _ => hm⟩
    case h_2 n rest hwork =>
      have hb := buried_bury h n
      have hkept : n ≠ keep := by
        have hhead := List.head?_dropWhile_not (g.isKept keep) work
        rw [hwork] at hhead
        have hnot : g.isKept keep n = false := by simpa using hhead
        simp only [isKept, Bool.or_eq_false_iff, beq_eq_false_iff_ne] at hnot
        exact hnot.1.1.1
      obtain ⟨hremains, hkeep⟩ := ih ((g.bury n).1 ++ rest) (hb.mirror h)
      refine ⟨hb.remains.trans hremains, fun m hm hm' => hkeep m (hb.mem_live_of_ne hm ?_) hm'⟩
      rintro rfl
      exact hkept hm'.symm

theorem subsume_spec (h : g.Mirror) (hne : e ≠ some n) :
    (∀ m ∈ (g.subsume n e).live, m ∈ g.live ∧
      ∀ i, (g.subsume n e).input m i = redirect n e (g.input m i)) ∧
      ∀ m ∈ g.live, e = some m → m ∈ (g.subsume n e).live := by
  obtain ⟨hsize, hdead, -, -⟩ := replaceAllUses_spec (g := g) hne
  have hlive (m : NodeId) : m ∈ (g.replaceAllUses n e).live ↔ m ∈ g.live := by
    rw [mem_live, mem_live, hsize, hdead]
  have hinputs := inputs_replaceAllUses h hne
  obtain ⟨hremains, hkeep⟩ := reapAll_spec e (g.replaceAllUses n e).size [n]
    (h.replaceAllUses n e)
  rw [subsume, if_neg hne, reap]
  refine ⟨fun m hm => ⟨(hlive m).mp (hremains.live m hm), fun i => ?_⟩,
    fun m hm => hkeep m ((hlive m).mpr hm)⟩
  rw [input_eq_getElem?, input_eq_getElem?, hremains.inputs m hm, hinputs, Array.getElem?_map]
  rcases (g.inputs m)[i]? with _ | e'
  · exact (if_neg nofun).symm
  · rfl

end Graph

end SeaNodes

namespace SeaNodes

/-- What edits of edges leave alone: operator, declared type, type and whether a loop is open. -/
def Node.core (x : Node) : Op × Ty × Ty × Bool := (x.op, x.decl, x.ty, x.inProgress)

namespace Graph

variable {g g' : Graph} {n m x : NodeId} {e keep : Edge}

theorem edgeFree_core : EdgeFree Node.core := ⟨fun _ _ => rfl, fun _ _ => rfl, fun _ _ => rfl⟩

section

variable (h : Same Node.core g g')

include h

theorem Same.op (m : NodeId) : g'.op m = g.op m := congrArg (·.1) (h.field m)

theorem Same.inProgress (m : NodeId) : (g'.node m).inProgress = (g.node m).inProgress :=
  congrArg (·.2.2.2) (h.field m)

theorem Same.ty (e : Edge) : g'.ty e = g.ty e := by
  cases e with
  | none => rfl
  | some m => exact congrArg (·.2.2.1) (h.field m)

end

theorem mem_fst_of_foldl {β : Type} {f : List NodeId × β → Edge → List NodeId × β}
    (hf : ∀ s e, ∀ d ∈ (f s e).1, d ∈ s.1 ∨ e = some d) (es : List Edge) (s : List NodeId × β)
    (h : m ∈ (es.foldl f s).1) : m ∈ s.1 ∨ some m ∈ es := by
  induction es generalizing s with
  | nil => exact .inl h
  | cons e es ih =>
    rcases ih _ h with hs | hs
    · rcases hf s e m hs with hs | rfl
      · exact .inl hs
      · exact .inr List.mem_cons_self
    · exact .inr (List.mem_cons_of_mem e hs)

theorem mem_inputs_of_mem_bury (h : m ∈ (g.bury n).1) : some m ∈ g.inputs n := by
  unfold bury at h
  dsimp only at h
  rw [← Array.foldl_toList] at h
  refine Array.mem_toList_iff.mp
    ((mem_fst_of_foldl (fun s e d hd => ?_) _ _ h).resolve_left List.not_mem_nil)
  cases e with
  | none => exact .inl hd
  | some x =>
    dsimp only at hd
    split_ifs at hd
    · rcases List.mem_cons.mp hd with rfl | hd
      · exact .inr rfl
      · exact .inl hd
    · exact .inl hd

theorem exists_user_of_reapAll (k : Nat) (work : List NodeId) (h : g.Mirrored) (hm : m ∈ g.live)
    (hdead : m ∉ (reapAll keep k work g).live) :
    m ∈ work ∨ ∃ u ∈ g.live, u ∉ (reapAll keep k work g).live ∧ some m ∈ g.inputs u := by
  induction k generalizing g work with
  | zero => exact absurd hm hdead
  | succ k ih =>
    rw [reapAll] at hdead ⊢
    split at hdead
    case h_1 => exact absurd hm hdead
    case h_2 n rest hwork =>
      have hsub : n :: rest ⊆ work := hwork ▸ (List.dropWhile_suffix _).subset
      obtain ⟨hroot, hunused⟩ := not_isKept_of_dropWhile hwork
      have hb := buried_bury h.mirror n
      have hmirrored := h.bury hunused hroot
      by_cases hmn : n = m
      · exact .inl (hmn ▸ hsub List.mem_cons_self)
      have hremains := (reapAll_spec keep k ((g.bury n).1 ++ rest) hmirrored.mirror).1
      rcases ih ((g.bury n).1 ++ rest) hmirrored (hb.mem_live_of_ne hm hmn) hdead with
        hwork | ⟨u, hu, hgone, hinput⟩
      · rcases List.mem_append.mp hwork with hfreed | hrest
        · have hinput := mem_inputs_of_mem_bury hfreed
          have hn := h.user_live n _ hinput
          refine .inr ⟨n, hn, fun hlive => ?_, hinput⟩
          have hburied := (mem_live.mp (hremains.live n hlive)).2
          rw [hb.isDead, if_pos ⟨rfl, (mem_live.mp hn).1⟩] at hburied
          cases hburied
        · exact .inl (hsub (List.mem_cons_of_mem n hrest))
      · exact .inr ⟨u, hb.remains.live u hu, hgone, hb.remains.inputs u hu ▸ hinput⟩

theorem inputs_subsume (h : g.Mirror) (hne : e ≠ some n) (hm : m ∈ (g.subsume n e).live) :
    (g.subsume n e).inputs m = (g.inputs m).map (redirect n e) := by
  rw [subsume, if_neg hne, reap] at hm ⊢
  have hremains := (reapAll_spec e (g.replaceAllUses n e).size [n] (h.replaceAllUses n e)).1
  rw [hremains.inputs m hm, inputs_replaceAllUses h hne]

theorem exists_user_of_subsume (h : g.Mirrored) (hne : e ≠ some n) (he : ∀ m ∈ e, m ∈ g.live)
    (hm : m ∈ g.live) (hdead : m ∉ (g.subsume n e).live) :
    m = n ∨ ∃ u ∈ g.live, u ∉ (g.subsume n e).live ∧ some m ∈ g.inputs u := by
  have hkept := (subsume_spec h.mirror hne).2 m hm
  obtain ⟨hsize, hisDead, -, -⟩ := replaceAllUses_spec (g := g) hne
  have hlive (u : NodeId) : u ∈ (g.replaceAllUses n e).live ↔ u ∈ g.live := by
    rw [mem_live, mem_live, hsize, hisDead]
  rw [subsume, if_neg hne, reap] at hdead hkept ⊢
  rcases exists_user_of_reapAll _ _ (h.replaceAllUses he) ((hlive m).mpr hm) hdead with
    hmem | ⟨u, hu, hgone, hinput⟩
  · exact .inl (List.mem_singleton.mp hmem)
  · rcases mem_inputs_replaceAllUses h.mirror hinput with hinput | ⟨hkeep, -⟩
    · exact .inr ⟨u, (hlive u).mp hu, hgone, hinput⟩
    · exact absurd (hkept hkeep.symm) hdead

theorem SameLinks.subsume_of_isDead (h : g.Mirrored) (hn : g.isDead n) (e : Edge) :
    g.SameLinks (g.subsume n e) := by
  by_cases hne : e = some n
  · rw [subsume, if_pos hne]
    exact .refl g
  have hgone : n ∉ g.live := fun hlive => by
    rw [(Graph.mem_live.mp hlive).2] at hn
    cases hn
  have hunused := h.usesOf_of_not_live hgone
  obtain ⟨hsize, hdead, hinputs, huses⟩ := replaceAllUses_spec (g := g) hne
  have hreap : (g.replaceAllUses n e).reap n e = g.replaceAllUses n e := by
    have hkept : (g.replaceAllUses n e).isKept e n = true := by
      simp [isKept, hdead, hn]
    rw [reap]
    cases (g.replaceAllUses n e).size with
    | zero => rfl
    | succ k => rw [reapAll, List.dropWhile_cons_of_pos hkept, List.dropWhile_nil]
  rw [subsume, if_neg hne, hreap]
  refine ⟨hsize, fun m => ?_, hdead, fun d => ?_⟩
  · rw [hinputs, hunused, if_neg (Array.not_mem_empty m)]
  · rw [huses, hunused, ite_self, Array.append_empty]
    split_ifs with hd
    · rw [← hd, hunused]
    · rfl

/-- Edges lead where `σ` says, and of the nodes that are not `old` only those are gone that would have
been used by others that are. -/
structure Replaced (σ : Edge → Edge) (old : NodeId → Prop) (g g' : Graph) : Prop where
  core : Same Node.core g g'
  mirrored : g'.Mirrored
  live : ∀ m ∈ g'.live, m ∈ g.live
  inputs : ∀ m ∈ g'.live, g'.inputs m = (g.inputs m).map σ
  gone : ∀ m ∈ g.live, m ∉ g'.live →
    old m ∨ ∃ u ∈ g.live, u ∉ g'.live ∧ some m ∈ (g.inputs u).map σ

namespace Replaced

variable {σ : Edge → Edge} {old old' : NodeId → Prop} {g'' : Graph}

theorem refl (h : g.Mirrored) : Replaced id old g g where
  core := .refl g
  mirrored := h
  live _ hm := hm
  inputs _ _ := (Array.map_id _).symm
  gone _ hm hdead := absurd hm hdead

theorem mono (h : Replaced σ old g g') (hold : ∀ m, old m → old' m) : Replaced σ old' g g' :=
  { h with gone := fun m hm hdead => (h.gone m hm hdead).imp_left (hold m) }

theorem of_sameLinks (h : Replaced σ old g g') (hsame : g'.SameLinks g'')
    (hcore : Same Node.core g' g'') : Replaced σ old g g'' where
  core := h.core.trans hcore
  mirrored := h.mirrored.congr hsame
  live m hm := h.live m (hsame.mem_live.mp hm)
  inputs m hm := (hsame.inputs m).trans (h.inputs m (hsame.mem_live.mp hm))
  gone m hm hdead := by
    rcases h.gone m hm fun hlive => hdead (hsame.mem_live.mpr hlive) with hold | ⟨u, hu, hgone, hinput⟩
    · exact .inl hold
    · exact .inr ⟨u, hu, fun hlive => hgone (hsame.mem_live.mp hlive), hinput⟩

theorem mem_map_redirect {xs : Array Edge} (hm : some m ∈ xs.map σ) (hne : m ≠ x) (e : Edge) :
    some m ∈ xs.map (redirect x e ∘ σ) := by
  obtain ⟨y, hy, heq⟩ := Array.mem_map.mp hm
  refine Array.mem_map.mpr ⟨y, hy, ?_⟩
  rw [Function.comp_apply, heq]
  exact if_neg fun h => hne (Option.some.inj h)

theorem subsume (h : Replaced σ old g g') (hne : e ≠ some x) (he : ∀ m ∈ e, m ∈ g'.live) :
    Replaced (redirect x e ∘ σ) (fun m => m = x ∨ old m) g (g'.subsume x e) where
  core := h.core.trans (.subsume edgeFree_core g' x e)
  mirrored := h.mirrored.subsume he x
  live m hm := h.live m ((subsume_spec h.mirrored.mirror hne).1 m hm).1
  inputs m hm := by
    rw [inputs_subsume h.mirrored.mirror hne hm,
      h.inputs m ((subsume_spec h.mirrored.mirror hne).1 m hm).1, Array.map_map]
  gone m hm hdead := by
    by_cases hmx : m = x
    · exact .inl (.inl hmx)
    by_cases hlive : m ∈ g'.live
    · obtain ⟨u, hu, hgone, hinput⟩ :=
        (exists_user_of_subsume h.mirrored hne he hlive hdead).resolve_left hmx
      rw [h.inputs u hu] at hinput
      exact .inr ⟨u, h.live u hu, hgone, mem_map_redirect hinput hmx e⟩
    · rcases h.gone m hm hlive with hold | ⟨u, hu, hgone, hinput⟩
      · exact .inl (.inr hold)
      · refine .inr ⟨u, hu, fun hu' => hgone ?_, mem_map_redirect hinput hmx e⟩
        exact ((subsume_spec h.mirrored.mirror hne).1 u hu').1

theorem redirect_of_not_live (h : Replaced σ old g g') (hx : x ∉ g'.live) (e : Edge) :
    Replaced (redirect x e ∘ σ) (fun m => m = x ∨ old m) g g' where
  core := h.core
  mirrored := h.mirrored
  live := h.live
  inputs m hm := by
    have hsame : (g'.inputs m).map (redirect x e) = (g'.inputs m).map id := by
      refine Array.map_congr_left fun y hy => if_neg ?_
      rintro rfl
      exact hx (h.mirrored.input_live m x hy)
    rw [← Array.map_map, ← h.inputs m hm, hsame, Array.map_id]
  gone m hm hdead := by
    by_cases hmx : m = x
    · exact .inl (.inl hmx)
    rcases h.gone m hm hdead with hold | ⟨u, hu, hgone, hinput⟩
    · exact .inl (.inr hold)
    · exact .inr ⟨u, hu, hgone, mem_map_redirect hinput hmx e⟩

theorem isDead_of_not_live (h : Replaced σ old g g') (hm : m ∈ g.live) (hdead : m ∉ g'.live) :
    g'.isDead m := by
  by_contra hnot
  refine hdead (mem_live.mpr ⟨?_, Bool.eq_false_iff.mpr hnot⟩)
  rw [h.core.size]
  exact (mem_live.mp hm).1

theorem input (h : Replaced σ old g g') (hnone : σ none = none) (hm : m ∈ g'.live) (i : Nat) :
    g'.input m i = σ (g.input m i) := by
  rw [input_eq_getElem?, input_eq_getElem?, h.inputs m hm, Array.getElem?_map]
  rcases (g.inputs m)[i]? with _ | e
  · exact hnone.symm
  · rfl

end Replaced

end Graph

end SeaNodes
