import SeaNodes.Proofs.Flow.Edges

namespace SeaNodes

namespace Cfg

variable {g : Graph} {c c' : Cfg} {b d p : BlockId} {n x : NodeId} {fresh : List BlockId}

/-- How control gets from the last node `x` of a block to the head `n` of another. -/
inductive Passes (g : Graph) (x n : NodeId) : Prop where
  | jump (hfork : g.op x ≠ .fork) (hret : g.op x ≠ .ret) (hnext : g.nextCtrl x = .ok n)
      (hn : (g.op n).isRegion)
  | side {i : Nat} (hfork : g.op x = .fork) (hi : i < 2) (hside : g.side? x i = some n)

def Leads (g : Graph) (c : Cfg) (p d : BlockId) : Prop :=
  ∃ x ∈ (c.block p).ctrl, Passes g x (c.block d).head

/-- Each block but the entry is led to by one with a smaller number. -/
def Found (g : Graph) (c : Cfg) : Prop :=
  ∀ d < c.size, d ≠ entry → ∃ p < d, Leads g c p d

/-- No block loses its head or a node. -/
structure Keeps (c c' : Cfg) : Prop where
  size : c.size ≤ c'.size
  head : ∀ d < c.size, (c'.block d).head = (c.block d).head
  ctrl : ∀ d < c.size, (c.block d).ctrl ⊆ (c'.block d).ctrl

theorem keeps_finish (c : Cfg) (b : BlockId) (n : NodeId) : Keeps c (c.finish b n) where
  size := (c.size_finish b n).ge
  head d _ := c.head_finish b d n
  ctrl d _ := (c.ctrl_finish b d n).symm ▸ List.Subset.refl _

theorem keeps_extend (c : Cfg) (b : BlockId) (n : NodeId) : Keeps c (c.extend b n) where
  size := (c.size_extend b n).ge
  head d _ := c.head_extend b d n
  ctrl d _ := by
    rw [ctrl_extend]
    split_ifs
    · exact List.subset_append_left _ _
    · exact List.Subset.refl _

theorem keeps_addBlock (c : Cfg) (n : NodeId) : Keeps c (c.addBlock n).2 where
  size := (c.size_addBlock n).ge.trans' (Nat.le_succ _)
  head d hd := by rw [block_addBlock, if_neg hd.ne]
  ctrl d hd := by
    rw [block_addBlock, if_neg hd.ne]
    exact List.Subset.refl _

theorem Leads.keeps (h : Leads g c p d) (hc : Keeps c c') (hp : p < c.size) (hd : d < c.size) :
    Leads g c' p d := by
  obtain ⟨x, hx, hleads⟩ := h
  refine ⟨x, hc.ctrl p hp hx, ?_⟩
  rwa [hc.head d hd]

theorem Found.keeps (h : Found g c) (hc : Keeps c c') (hsize : c'.size = c.size) : Found g c' := by
  intro d hd hne
  rw [hsize] at hd
  obtain ⟨p, hp, hleads⟩ := h d hd hne
  exact ⟨p, hp, hleads.keeps hc (hp.trans hd) hd⟩

theorem Found.addBlock (h : Found g c) (hb : b < c.size) (hx : x ∈ (c.block b).ctrl)
    (hn : Passes g x n) : Found g (c.addBlock n).2 := by
  intro d hd hne
  rw [size_addBlock, Nat.lt_succ_iff_lt_or_eq] at hd
  rcases hd with hd | rfl
  · obtain ⟨p, hp, hleads⟩ := h d hd hne
    exact ⟨p, hp, hleads.keeps (c.keeps_addBlock n) (hp.trans hd) hd⟩
  · refine ⟨b, hb, x, ?_, ?_⟩
    · rw [block_addBlock, if_neg hb.ne]
      exact hx
    · rw [block_addBlock, if_pos rfl]
      exact hn

theorem Found.follow (hg : g.WellFormed) (k : Nat) {started : List BlockId} (h : Found g c)
    (hb : b < c.size) (hn : n ∈ (c.block b).ctrl) (hlive : n ∈ g.live)
    (hfollow : Cfg.follow g b k n c = .ok (started, c')) : Found g c' := by
  induction k generalizing n c with
  | zero =>
    obtain ⟨-, rfl⟩ := Prod.mk.inj (Except.ok.inj hfollow)
    exact h
  | succ k ih =>
    have hfinish : Found g (c.finish b n) := h.keeps (c.keeps_finish b n) (c.size_finish b n)
    have hsize := c.size_finish b n
    have hmem : n ∈ ((c.finish b n).block b).ctrl := by rwa [ctrl_finish]
    cases followStep hfollow with
    | ret => exact hfinish
    | @fork t f hop ht hf =>
      have hkeeps := (c.finish b n).keeps_addBlock t
      have hb' : b < (c.finish b n).size := hsize.symm ▸ hb
      exact (hfinish.addBlock hb' hmem (.side hop (by omega) ht)).addBlock
        (hb'.trans_le hkeeps.size) (hkeeps.ctrl b hb' hmem) (.side hop (by omega) hf)
    | join => exact h
    | region hfork hret hnext hr _ => exact h.addBlock hb hn (.jump hfork hret hnext hr)
    | @goOn r _ _ _ _ hnext _ hrest =>
      refine ih (h.keeps (c.keeps_extend b r) (c.size_extend b r)) ?_ ?_
        (hg.of_nextCtrl hlive hnext).1 hrest
      · rwa [size_extend]
      · rw [ctrl_extend, if_pos ⟨rfl, hb⟩]
        simp

theorem Found.discover (hg : g.WellFormed) (k : Nat) {work : List BlockId} (h : Found g c)
    (hchained : Chained g c work) (hdiscover : Cfg.discover g k work c = .ok c') : Found g c' := by
  induction k generalizing work c with
  | zero =>
    obtain rfl := Except.ok.inj hdiscover
    exact h
  | succ k ih =>
    cases work with
    | nil =>
      obtain rfl := Except.ok.inj hdiscover
      exact h
    | cons b work =>
      rw [Cfg.discover] at hdiscover
      obtain ⟨⟨started, c₁⟩, hfollow, hdiscover⟩ := Except.bind_eq_ok hdiscover
      have hctrl := hchained.fresh_ctrl b List.mem_cons_self
      have hopen := hchained.fresh_terminator b List.mem_cons_self
      have hnodup := List.nodup_cons.mp hchained.fresh_nodup
      have hhead : (c.block b).head ∈ (c.block b).ctrl := by
        rw [hctrl]
        exact List.mem_singleton_self _
      obtain ⟨hchained', -⟩ := hchained.tail.follow hg g.size hnodup.1
        (n := (c.block b).head) (by rw [hctrl]; rfl) hopen
        (by rw [hctrl, List.length_singleton]; omega) hfollow
      refine ih (h.follow hg g.size ?_ hhead (hchained.live b _ hhead) hfollow) hchained' hdiscover
      exact hchained.fresh_lt b List.mem_cons_self

theorem Alike.found (h : Alike c c') (hc : Found g c) : Found g c' := by
  simp only [Found, Leads, h.size, h.head, h.ctrl]
  exact hc

theorem found_of_ofGraph (hg : g.WellFormed) (h : ofGraph g = .ok c) : Found g c := by
  unfold ofGraph at h
  obtain ⟨c₁, hdiscover, h⟩ := Except.bind_eq_ok h
  obtain ⟨c₂, hpreds, h⟩ := Except.bind_eq_ok h
  obtain ⟨c₃, hsuccs, h⟩ := Except.bind_eq_ok h
  obtain rfl := Except.ok.inj h
  have hfound : Found g c₁ := by
    refine Found.discover hg (g.size + 1) (fun d hd hne => ?_) (chained_start hg) hdiscover
    rw [size_addBlock] at hd
    exact absurd (Nat.lt_one_iff.mp hd) hne
  have hnumber : Alike c₃ c₃.number := ⟨rfl, rfl, fun _ => rfl, fun _ => rfl, fun _ => rfl⟩
  exact (((preds_of_foldlM hpreds).1.trans (succs_of_foldlM hsuccs).1).trans hnumber).found hfound

theorem Found.setLoopDepths (h : Found g c) (f : LoopForest) : Found g (c.setLoopDepths f) := by
  refine Alike.found ⟨size_setLoopDepths c f, rfl, fun b => ?_, fun b => ?_, fun b => ?_⟩ h <;>
    obtain ⟨depth, h⟩ := setLoopDepths_cases c f b <;> rw [h]

namespace Built

variable {j : Nat}

theorem pred_of_input (h : Built g c) (hb : b < c.size) (hr : (g.op (c.block b).head).isRegion)
    (hinput : g.input (c.block b).head (j + 1) = some x) (hx : x ∈ (c.block p).ctrl) :
    (c.block b).preds[j]? = some p := by
  have hget : ((g.inputs (c.block b).head).toList.drop 1)[j]? = some (some x) := by
    rw [Graph.input_eq_getElem?, Option.join_eq_some_iff] at hinput
    rw [List.getElem?_drop, Array.getElem?_toList, Nat.add_comm, hinput]
  obtain ⟨q, hq, hblock⟩ := Except.exists_of_getElem?_mapM (h.preds_of_region hb hr) hget
  rw [show c.ctrlBlock? (some x) = some p from (h.chained.blockOf x p).mpr hx] at hblock
  rw [hq, ← Except.ok.inj hblock]

theorem pred_of_side (h : Built g c) (hb : b < c.size) {i : Nat}
    (hop : g.op (c.block b).head = .ctrlProj i) (hinput : g.input (c.block b).head 0 = some x)
    (hx : x ∈ (c.block p).ctrl) : (c.block b).preds = [p] := by
  have hpreds := h.preds b hb
  unfold predsOf at hpreds
  simp only [hop, hinput,
    show c.ctrlBlock? (some x) = some p from (h.chained.blockOf x p).mpr hx] at hpreds
  exact (Except.ok.inj hpreds).symm

theorem head_mem_live (h : Built g c) (hb : b < c.size) : (c.block b).head ∈ g.live := by
  refine h.chained.live b _ (List.mem_of_mem_head? ?_)
  rw [h.chained.head b hb]
  exact rfl

theorem mem_preds_of_input (hg : g.WellFormed) (h : Built g c) (hjoins : g.JoinsLater)
    (hb : b < c.size) (hr : (g.op (c.block b).head).isRegion)
    (hinput : some x ∈ g.inputs (c.block b).head) (hx : x ∈ (c.block p).ctrl) :
    p ∈ (c.block b).preds := by
  obtain ⟨j, hj⟩ := Array.getElem?_of_mem hinput
  have hget : g.input (c.block b).head j = some x := by
    rw [Graph.input_eq_getElem?, hj]
    rfl
  cases j with
  | zero =>
    have hcfg := hjoins _ (h.head_mem_live hb) hr x hget
    rw [h.chained.isCfg_of_mem hg hx] at hcfg
    exact nomatch hcfg
  | succ j => exact List.mem_of_getElem? (h.pred_of_input hb hr hget hx)

theorem exists_walk (hg : g.WellFormed) (h : Built g c) (hfound : Found g c)
    (hjoins : g.JoinsLater) (hb : b < c.size) :
    ∃ rest, c.Walk (b :: rest) := by
  induction b using Nat.strong_induction_on with
  | _ b ih =>
    by_cases hentry : b = entry
    · exact ⟨[], hentry ▸ .entry⟩
    · obtain ⟨p, hp, x, hx, hleads⟩ := hfound b hb hentry
      obtain ⟨rest, hwalk⟩ := ih p hp (hp.trans hb)
      have hpred : p ∈ (c.block b).preds := by
        have hlive := h.chained.live p x hx
        cases hleads with
        | jump _ _ hnext hr =>
          exact h.mem_preds_of_input hg hjoins hb hr (hg.of_nextCtrl hlive hnext).2.2.2.1 hx
        | side _ _ hside =>
          obtain ⟨-, hop, hinput⟩ := hg.of_side? hlive hside
          rw [h.pred_of_side hb hop hinput hx]
          exact List.mem_singleton_self p
      exact ⟨p :: rest, .step hpred hwalk⟩

end Built

theorem Built.succ_lt (h : Built g c) (hb : b < c.size) (hd : d ∈ (c.block b).succs) :
    d < c.size := by
  have hlt {e : Edge} (he : c.ctrlBlock? e = some d) : d < c.size := by
    obtain ⟨n, -, hn⟩ := Option.bind_eq_some_iff.mp he
    exact lt_of_mem_ctrl ((h.chained.blockOf n d).mp hn)
  have hsuccs := h.succs b hb
  unfold succsOf at hsuccs
  dsimp only at hsuccs
  split at hsuccs
  · rw [← Except.ok.inj hsuccs, List.mem_filterMap] at hd
    obtain ⟨i, -, hi⟩ := hd
    exact hlt hi
  · rw [← Except.ok.inj hsuccs] at hd
    exact absurd hd List.not_mem_nil
  · obtain ⟨n, -, hn⟩ := Except.bind_eq_ok hsuccs
    rw [← Except.ok.inj hn, Option.mem_toList] at hd
    exact hlt hd

namespace Built

variable {g : Graph} {c : Cfg} {b : BlockId} {t : NodeId} {i : Nat}

theorem getLastD_ctrl {last : NodeId} (hlast : (c.block b).ctrl.getLast? = some last) :
    (c.block b).ctrl.getLastD (c.block b).head = last := by
  rw [List.getLastD_eq_getLast?, hlast]
  rfl

theorem exists_jump (hg : g.WellFormed) (h : Built g c) (hjoins : g.JoinsLater) (hb : b < c.size)
    (ht : (c.block b).terminator = none) :
    ∃ d, (c.block b).succs.head? = some d ∧ b ∈ (c.block d).preds := by
  obtain ⟨last, hlast, hends⟩ := h.followed b hb
  have hsuccs := h.succs b hb
  have hmem := List.mem_of_getLast? hlast
  rw [ht] at hends
  cases hends with
  | @jump r hfork hret hnext hr hblock =>
    obtain ⟨d, hd⟩ := Option.isSome_iff_exists.mp hblock
    have hlt := lt_of_mem_ctrl ((h.chained.blockOf r d).mp hd)
    obtain ⟨-, -, -, hinput, -⟩ := hg.of_nextCtrl (h.chained.live b last hmem) hnext
    have hhead := h.head_of_region hr hd
    refine ⟨d, ?_,
      h.mem_preds_of_input hg hjoins hlt (hhead.symm ▸ hr) (hhead.symm ▸ hinput) hmem⟩
    unfold succsOf at hsuccs
    rw [getLastD_ctrl hlast] at hsuccs
    dsimp only at hsuccs
    split at hsuccs
    case h_1 hop => exact absurd hop hfork
    case h_2 hop => exact absurd hop hret
    case h_3 =>
      rw [hnext] at hsuccs
      have hto : c.ctrlBlock? (some r) = some d := hd
      rw [← Except.ok.inj hsuccs, hto]
      rfl

theorem exists_side (hg : g.WellFormed) (h : Built g c) (hb : b < c.size)
    (ht : (c.block b).terminator = some t) (hop : g.op t = .fork) (hi : i < 2) :
    ∃ d, (c.block b).succs[i]? = some d ∧ b ∈ (c.block d).preds := by
  obtain ⟨last, hlast, hends⟩ := h.followed b hb
  have hsuccs := h.succs b hb
  have hmem := List.mem_of_getLast? hlast
  rw [ht] at hends
  cases hends with
  | ret hn =>
    rw [hop] at hn
    cases hn
  | fork _ hsides =>
    obtain ⟨u₀, hu₀, hb₀⟩ := hsides 0 (by omega)
    obtain ⟨u₁, hu₁, hb₁⟩ := hsides 1 (by omega)
    obtain ⟨d₀, hd₀⟩ := Option.isSome_iff_exists.mp hb₀
    obtain ⟨d₁, hd₁⟩ := Option.isSome_iff_exists.mp hb₁
    have heq : (c.block b).succs = [d₀, d₁] := by
      unfold succsOf at hsuccs
      rw [getLastD_ctrl hlast] at hsuccs
      simp only [hop] at hsuccs
      rw [← Except.ok.inj hsuccs]
      simp [hu₀, hu₁, ctrlBlock?, hd₀, hd₁]
    have hpred {d : BlockId} (hd : (c.block b).succs[i]? = some d) (hlt : d < c.size) :
        b ∈ (c.block d).preds := by
      obtain ⟨hside, hinput⟩ := h.side_of_fork hg hb ht hop hd
      rw [h.pred_of_side hlt hside hinput hmem]
      exact List.mem_singleton_self b
    have hlt {u : NodeId} {d : BlockId} (hd : c.blockOf.get u = some d) : d < c.size :=
      lt_of_mem_ctrl ((h.chained.blockOf u d).mp hd)
    rcases i with _ | _ | i
    · exact ⟨d₀, by rw [heq]; rfl, hpred (by rw [heq]; rfl) (hlt hd₀)⟩
    · exact ⟨d₁, by rw [heq]; rfl, hpred (by rw [heq]; rfl) (hlt hd₁)⟩
    · omega

end Built

end Cfg

end SeaNodes
