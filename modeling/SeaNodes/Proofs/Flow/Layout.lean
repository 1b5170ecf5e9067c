import SeaNodes.Proofs.Flow.DepthFirst
import SeaNodes.Proofs.Flow.Reached

namespace SeaNodes

theorem Graph.eq_of_nextCtrl {g : Graph} {x y r : NodeId} (h : g.nextCtrl x = .ok r)
    (hy : y ∈ g.usesOf x) (htakes : g.takesControl x y) : y = r := by
  have hmem : y ∈ (g.usesOf x).toList.filter (g.takesControl x) :=
    List.mem_filter.mpr ⟨Array.mem_toList_iff.mpr hy, htakes⟩
  unfold nextCtrl at h
  split at h
  case h_1 => exact nomatch h
  case h_2 u rest hcons =>
    split at h
    case isFalse => exact nomatch h
    case isTrue hall =>
      obtain rfl := Except.ok.inj h
      rw [hcons, List.mem_cons] at hmem
      rcases hmem with rfl | hmem
      · rfl
      · simpa using List.all_eq_true.mp hall y hmem

namespace Cfg

variable {g : Graph} {c : Cfg} {a b d p : BlockId} {x r : NodeId}

namespace Built

theorem getLast?_of_nextCtrl (hg : g.WellFormed) (h : Built g c) (hx : x ∈ (c.block b).ctrl)
    (hnext : g.nextCtrl x = .ok r) (hr : (g.op r).isRegion) :
    (c.block b).ctrl.getLast? = some x := by
  obtain ⟨pre, post, hsplit⟩ := List.append_of_mem hx
  cases post with
  | nil => rw [hsplit, List.getLast?_append_cons, List.getLast?_singleton]
  | cons y post =>
    have hlinked := h.chained.linked b
    rw [hsplit] at hlinked
    have hcont := (List.isChain_append_cons_cons.mp hlinked).2.1
    have hy : y ∈ g.live := h.chained.live b y (by rw [hsplit]; simp)
    have huse : y ∈ g.usesOf x := hg.mem_usesOf hy hcont.input
    have htakes : g.takesControl x y := by
      simp [Graph.takesControl, hcont.isCfg, hcont.not_stop, hcont.input]
    rw [← Graph.eq_of_nextCtrl hnext huse htakes, hcont.not_region] at hr
    cases hr

theorem succs_of_jump (h : Built g c) (hb : b < c.size)
    (hlast : (c.block b).ctrl.getLast? = some x) (hfork : g.op x ≠ .fork) (hret : g.op x ≠ .ret)
    (hnext : g.nextCtrl x = .ok r) : (c.block b).succs = (c.blockOf.get r).toList := by
  have hsuccs := h.succs b hb
  unfold succsOf at hsuccs
  rw [getLastD_ctrl hlast] at hsuccs
  dsimp only at hsuccs
  split at hsuccs
  case h_1 hop => exact absurd hop hfork
  case h_2 hop => exact absurd hop hret
  case h_3 =>
    rw [hnext] at hsuccs
    exact (Except.ok.inj hsuccs).symm

theorem mem_succs_of_leads (hg : g.WellFormed) (h : Built g c) (hb : b < c.size)
    (hleads : Leads g c p b) : b ∈ (c.block p).succs := by
  obtain ⟨x, hx, hpasses⟩ := hleads
  have hp := lt_of_mem_ctrl hx
  have hblock : c.blockOf.get (c.block b).head = some b :=
    (h.chained.blockOf _ b).mpr (List.mem_of_mem_head? (h.chained.head b hb))
  cases hpasses with
  | jump hfork hret hnext hr =>
    rw [h.succs_of_jump hp (h.getLast?_of_nextCtrl hg hx hnext hr) hfork hret hnext, hblock]
    exact List.mem_singleton_self b
  | @side i hfork hi hside =>
    have hsuccs := h.succs p hp
    unfold succsOf at hsuccs
    rw [getLastD_ctrl (h.getLast?_of_fork hx hfork)] at hsuccs
    simp only [hfork] at hsuccs
    rw [← Except.ok.inj hsuccs]
    refine List.mem_filterMap.mpr ⟨i, ?_, ?_⟩
    · rw [List.mem_cons, List.mem_singleton]
      omega
    · rw [hside]
      exact hblock

theorem leadsTo_entry (hg : g.WellFormed) (h : Built g c) (hfound : Found g c) (hb : b < c.size) :
    c.LeadsTo entry b := by
  induction b using Nat.strong_induction_on with
  | _ b ih =>
    by_cases hentry : b = entry
    · exact hentry ▸ .refl
    · obtain ⟨p, hp, hleads⟩ := hfound b hb hentry
      exact (ih p hp (hp.trans hb)).tail (h.mem_succs_of_leads hg hb hleads)

theorem succsNoted (hg : g.WellFormed) (h : Built g c) (hjoins : g.JoinsLater) : c.SuccsNoted := by
  intro b d hd
  have hb := lt_size_of_mem Block.succs rfl hd
  obtain ⟨i, hi⟩ := List.mem_iff_getElem?.mp hd
  obtain ⟨last, hlast, hends⟩ := h.followed b hb
  have hmem := List.mem_of_getLast? hlast
  cases hterm : (c.block b).terminator with
  | none =>
    obtain ⟨e, he, hpred⟩ := h.exists_jump hg hjoins hb hterm
    rw [hterm] at hends
    cases hends with
    | @jump r hfork hret hnext hr _ =>
      rw [h.succs_of_jump hb hlast hfork hret hnext] at hd he
      rw [Option.mem_toList] at hd
      rw [hd] at he
      exact Option.some.inj he ▸ hpred
  | some t =>
    rw [hterm] at hends
    cases hends with
    | ret hret =>
      have hsuccs := h.succs b hb
      unfold succsOf at hsuccs
      rw [getLastD_ctrl hlast] at hsuccs
      simp only [hret] at hsuccs
      rw [← Except.ok.inj hsuccs] at hd
      exact absurd hd List.not_mem_nil
    | fork hfork _ =>
      obtain ⟨hside, hinput⟩ := h.side_of_fork hg hb hterm hfork hi
      rw [h.pred_of_side (h.succ_lt hb hd) hside hinput hmem]
      exact List.mem_singleton_self b

theorem pred_lt (h : Built g c) (hp : p ∈ (c.block b).preds) : p < c.size := by
  have hb := lt_size_of_mem_preds hp
  have hlt {e : Edge} (he : c.ctrlBlock? e = some p) : p < c.size := by
    obtain ⟨n, -, hn⟩ := Option.bind_eq_some_iff.mp he
    exact lt_of_mem_ctrl ((h.chained.blockOf n p).mp hn)
  by_cases hr : (g.op (c.block b).head).isRegion
  · obtain ⟨j, hj⟩ := List.mem_iff_getElem?.mp hp
    obtain ⟨x, -, hx⟩ := h.input_of_pred hb hr hj
    exact lt_of_mem_ctrl hx
  · have hpreds := h.preds b hb
    unfold predsOf at hpreds
    dsimp only at hpreds
    split at hpreds
    case h_1 =>
      rw [← Except.ok.inj hpreds] at hp
      exact absurd hp List.not_mem_nil
    case h_2 hop | h_3 hop => simp [hop, Op.isRegion] at hr
    case h_4 =>
      split at hpreds
      case h_1 q hq =>
        rw [← Except.ok.inj hpreds, List.mem_singleton] at hp
        exact hlt (hp ▸ hq)
      case h_2 => cases hpreds

end Built

theorem ofGraph_cases (hg : g.WellFormed) (h : ofGraph g = .ok c) :
    ∃ c' : Cfg, c = c'.number ∧ Built g c ∧ ∀ b < c.size, c.LeadsTo entry b := by
  have hbuilt := built_of_ofGraph hg h
  have hfound := found_of_ofGraph hg h
  unfold ofGraph at h
  obtain ⟨c₁, -, h⟩ := Except.bind_eq_ok h
  obtain ⟨c₂, -, h⟩ := Except.bind_eq_ok h
  obtain ⟨c₃, -, h⟩ := Except.bind_eq_ok h
  exact ⟨c₃, (Except.ok.inj h).symm, hbuilt, fun b hb => hbuilt.leadsTo_entry hg hfound hb⟩

theorem mem_rpo_of_ofGraph (hg : g.WellFormed) (h : ofGraph g = .ok c) :
    b ∈ c.rpo ↔ b < c.size := by
  obtain ⟨c', rfl, hbuilt, hleads⟩ := ofGraph_cases hg h
  refine mem_rpo_number (c := c') (fun x y hy => ?_) hleads
  exact hbuilt.succ_lt (lt_size_of_mem Block.succs rfl hy) hy

theorem numbered_of_ofGraph (hg : g.WellFormed) (hjoins : g.JoinsLater) (h : ofGraph g = .ok c) :
    c.Numbered := by
  obtain ⟨c', rfl, hbuilt, hleads⟩ := ofGraph_cases hg h
  have hnoted := hbuilt.succsNoted hg hjoins
  exact numbered_of_leadsTo (c := c') (fun p x hx => hnoted p x hx) hleads

namespace Numbered

theorem setLoopDepths (h : c.Numbered) (f : LoopForest) : (c.setLoopDepths f).Numbered where
  nodup := h.nodup
  mem_rpo b := (h.mem_rpo b).trans (by rw [size_setLoopDepths])
  entry_first := h.entry_first
  postorder a ha b hb := by
    rw [size_setLoopDepths] at ha hb
    exact h.postorder a ha b hb
  exists_pred b hb hne := by
    rw [size_setLoopDepths] at hb
    rw [preds_setLoopDepths]
    exact h.exists_pred b hb hne

theorem exists_walk_before (h : c.Numbered) (hb : b < c.size) :
    ∃ rest, c.Walk (b :: rest) ∧ ∀ x ∈ rest, c.rpo.idxOf x < c.rpo.idxOf b := by
  induction hn : c.rpo.idxOf b using Nat.strong_induction_on generalizing b with
  | _ n ih =>
    by_cases hentry : b = entry
    · exact ⟨[], hentry ▸ .entry, fun x hx => absurd hx List.not_mem_nil⟩
    · obtain ⟨p, hp, hlt⟩ := h.exists_pred b hb hentry
      have hpmem : p ∈ c.rpo := by
        rw [← List.idxOf_lt_length_iff]
        exact hlt.trans (List.idxOf_lt_length_iff.mpr ((h.mem_rpo b).mpr hb))
      obtain ⟨rest, hwalk, hrest⟩ := ih _ (hn ▸ hlt) ((h.mem_rpo p).mp hpmem) rfl
      refine ⟨p :: rest, .step hp hwalk, List.forall_mem_cons.mpr ⟨hn ▸ hlt, fun x hx => ?_⟩⟩
      exact (hrest x hx).trans (hn ▸ hlt)

theorem idxOf_lt_of_dominates (h : c.Numbered) (hdom : c.Dominates a b) (hb : b < c.size)
    (hne : a ≠ b) : c.rpo.idxOf a < c.rpo.idxOf b := by
  obtain ⟨rest, hwalk, hrest⟩ := h.exists_walk_before hb
  exact hrest a ((List.mem_cons.mp (hdom rest hwalk)).resolve_left hne)

end Numbered

end Cfg

end SeaNodes
