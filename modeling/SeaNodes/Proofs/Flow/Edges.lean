import SeaNodes.Proofs.Flow.Chains

namespace SeaNodes

namespace Cfg

variable {g : Graph} {c : Cfg} {b d : BlockId} {n t x : NodeId} {fresh : List BlockId}

/-- The same blocks with other edges. -/
structure Alike (c c' : Cfg) : Prop where
  size : c'.size = c.size
  blockOf : c'.blockOf = c.blockOf
  head : ∀ b, (c'.block b).head = (c.block b).head
  ctrl : ∀ b, (c'.block b).ctrl = (c.block b).ctrl
  terminator : ∀ b, (c'.block b).terminator = (c.block b).terminator

namespace Alike

variable {c' c'' : Cfg}

theorem trans (h : Alike c c') (h' : Alike c' c'') : Alike c c'' where
  size := h'.size.trans h.size
  blockOf := h'.blockOf.trans h.blockOf
  head b := (h'.head b).trans (h.head b)
  ctrl b := (h'.ctrl b).trans (h.ctrl b)
  terminator b := (h'.terminator b).trans (h.terminator b)

theorem predsOf (h : Alike c c') (b : BlockId) : Cfg.predsOf g c' b = Cfg.predsOf g c b := by
  simp only [Cfg.predsOf, ctrlBlock?, h.head, h.blockOf]

theorem succsOf (h : Alike c c') (b : BlockId) : Cfg.succsOf g c' b = Cfg.succsOf g c b := by
  simp only [Cfg.succsOf, ctrlBlock?, h.head, h.ctrl, h.blockOf]

theorem chained (h : Alike c c') (hc : Chained g c fresh) : Chained g c' fresh := by
  constructor
  case head =>
    simp only [h.size, h.head, h.ctrl]
    exact hc.head
  case linked =>
    simp only [h.ctrl]
    exact hc.linked
  case starts =>
    simp only [h.size, h.head]
    exact fun b hb => (hc.starts b hb).mono fun d t ht => (h.terminator d).trans ht
  case live =>
    simp only [h.ctrl]
    exact hc.live
  case nodup =>
    simp only [h.ctrl]
    exact hc.nodup
  case blockOf =>
    simp only [h.ctrl, h.blockOf]
    exact hc.blockOf
  case start =>
    rw [h.blockOf]
    exact hc.start
  case terminator =>
    simp only [h.ctrl, h.terminator]
    exact hc.terminator
  case fresh_lt =>
    simp only [h.size]
    exact hc.fresh_lt
  case fresh_nodup => exact hc.fresh_nodup
  case fresh_ctrl =>
    simp only [h.ctrl, h.head]
    exact hc.fresh_ctrl
  case fresh_terminator =>
    simp only [h.terminator]
    exact hc.fresh_terminator

theorem followed (h : Alike c c') (hc : Followed g c b) : Followed g c' b := by
  obtain ⟨n, hlast, hends⟩ := hc
  refine ⟨n, (congrArg _ (h.ctrl b)).trans hlast, ?_⟩
  rw [h.terminator]
  exact hends.mono fun x hx => h.blockOf ▸ hx

end Alike

/-- The blocks of a graph with their edges. -/
structure Built (g : Graph) (c : Cfg) : Prop where
  chained : Chained g c []
  followed : ∀ b < c.size, Followed g c b
  preds : ∀ b < c.size, predsOf g c b = .ok (c.block b).preds
  succs : ∀ b < c.size, succsOf g c b = .ok (c.block b).succs

theorem Alike.built {c' : Cfg} (h : Alike c c') (hpreds : ∀ b, (c'.block b).preds = (c.block b).preds)
    (hsuccs : ∀ b, (c'.block b).succs = (c.block b).succs) (hc : Built g c) : Built g c' where
  chained := h.chained hc.chained
  followed b hb := h.followed (hc.followed b (h.size ▸ hb))
  preds b hb := by rw [h.predsOf, hpreds, hc.preds b (h.size ▸ hb)]
  succs b hb := by rw [h.succsOf, hsuccs, hc.succs b (h.size ▸ hb)]

theorem Alike.refl (c : Cfg) : Alike c c := ⟨rfl, rfl, fun _ => rfl, fun _ => rfl, fun _ => rfl⟩

theorem alike_modify (c : Cfg) (b : BlockId) {f : Block → Block}
    (hf : ∀ x, (f x).head = x.head ∧ (f x).ctrl = x.ctrl ∧ (f x).terminator = x.terminator) :
    Alike c { c with blocks := c.blocks.modify b f } := by
  refine ⟨Array.size_modify .., rfl, fun d => ?_, fun d => ?_, fun d => ?_⟩ <;>
    rw [block_modify] <;> split_ifs
  exacts [(hf _).1, rfl, (hf _).2.1, rfl, (hf _).2.2, rfl]

theorem preds_of_foldlM {c c' : Cfg}
    (h : (List.range c.size).foldlM (linkPreds g) c = .ok c') :
    Alike c c' ∧ ∀ b < c.size, predsOf g c b = .ok (c'.block b).preds := by
  have hspec := Except.foldlM_processed (P := fun done c' => Alike c c' ∧
    ∀ b ∈ done, predsOf g c b = .ok (c'.block b).preds) h ⟨.refl c, by simp⟩
    (fun done b c₁ c₂ hb ⟨halike, hdone⟩ hlink => by
      obtain ⟨preds, hpreds, hlink⟩ := Except.bind_eq_ok hlink
      obtain rfl := Except.ok.inj hlink
      refine ⟨halike.trans (alike_modify c₁ b fun x => ⟨rfl, rfl, rfl⟩), fun d hd => ?_⟩
      rw [block_modify]
      split_ifs with hdb
      · rw [← hdb.1, ← hpreds, halike.predsOf]
      · rcases List.mem_append.mp hd with hd | hd
        · exact hdone d hd
        · rw [List.mem_singleton] at hd
          rw [List.mem_range, ← halike.size] at hb
          exact absurd ⟨hd.symm, hb⟩ hdb)
  exact ⟨hspec.1, fun b hb => hspec.2 b (List.mem_range.mpr hb)⟩

theorem succs_of_foldlM {c c' : Cfg}
    (h : (List.range c.size).foldlM (linkSuccs g) c = .ok c') :
    Alike c c' ∧ (∀ b, (c'.block b).preds = (c.block b).preds) ∧
      ∀ b < c.size, succsOf g c b = .ok (c'.block b).succs := by
  have hspec := Except.foldlM_processed (P := fun done c' => Alike c c' ∧
    (∀ b, (c'.block b).preds = (c.block b).preds) ∧
    ∀ b ∈ done, succsOf g c b = .ok (c'.block b).succs) h ⟨.refl c, fun _ => rfl, by simp⟩
    (fun done b c₁ c₂ hb ⟨halike, hpreds, hdone⟩ hlink => by
      obtain ⟨succs, hsuccs, hlink⟩ := Except.bind_eq_ok hlink
      obtain rfl := Except.ok.inj hlink
      refine ⟨halike.trans (alike_modify c₁ b fun x => ⟨rfl, rfl, rfl⟩), fun d => ?_,
        fun d hd => ?_⟩ <;> rw [block_modify] <;> split_ifs with hdb
      · exact hpreds d
      · exact hpreds d
      · rw [← hdb.1, ← hsuccs, halike.succsOf]
      · rcases List.mem_append.mp hd with hd | hd
        · exact hdone d hd
        · rw [List.mem_singleton] at hd
          rw [List.mem_range, ← halike.size] at hb
          exact absurd ⟨hd.symm, hb⟩ hdb)
  exact ⟨hspec.1, hspec.2.1, fun b hb => hspec.2.2 b (List.mem_range.mpr hb)⟩

/-- The search starts with the block of the start node. -/
theorem chained_start (hg : g.WellFormed) :
    Chained g (({} : Cfg).addBlock Graph.start).2 [entry] := by
  have hblock (d : BlockId) : (({} : Cfg).addBlock Graph.start).2.block d =
      if d = entry then { head := Graph.start, ctrl := [Graph.start] } else default :=
    block_addBlock {} Graph.start d
  have hget (n : NodeId) : (({} : Cfg).addBlock Graph.start).2.blockOf.get n =
      if Graph.start = n then some entry else none :=
    blockOf_addBlock {} Graph.start n
  have hsize : (({} : Cfg).addBlock Graph.start).2.size = 1 := size_addBlock {} Graph.start
  constructor
  case head =>
    intro d hd
    rw [hsize] at hd
    rw [hblock, if_pos (show d = entry from Nat.lt_one_iff.mp hd)]
    rfl
  case linked =>
    intro d
    rw [hblock]
    split_ifs
    exacts [.singleton _, .nil]
  case starts =>
    intro d hd
    rw [hsize] at hd
    rw [hblock, if_pos (show d = entry from Nat.lt_one_iff.mp hd)]
    exact .start
  case live =>
    intro d n hn
    rw [hblock] at hn
    split_ifs at hn
    · exact List.mem_singleton.mp hn ▸ hg.start_live
    · exact absurd hn List.not_mem_nil
  case nodup =>
    intro d
    rw [hblock]
    split_ifs
    exacts [List.nodup_singleton _, List.nodup_nil]
  case blockOf =>
    intro n d
    rw [hget, hblock]
    split_ifs with hn hd hd
    · simp [hn, hd]
    · exact iff_of_false (fun h => hd (Option.some.inj h).symm) List.not_mem_nil
    · simp [Ne.symm hn]
    · exact iff_of_false (fun h => nomatch h) List.not_mem_nil
  case start => rw [hget, if_pos rfl]
  case terminator =>
    intro d t ht
    rw [hblock] at ht
    split_ifs at ht <;> exact nomatch ht
  case fresh_lt =>
    intro d hd
    rw [hsize, List.mem_singleton.mp hd]
    exact Nat.zero_lt_one
  case fresh_nodup => exact List.nodup_singleton _
  case fresh_ctrl =>
    intro d hd
    rw [hblock, if_pos (List.mem_singleton.mp hd)]
  case fresh_terminator =>
    intro d hd
    rw [hblock, if_pos (List.mem_singleton.mp hd)]

theorem built_of_ofGraph (hg : g.WellFormed) (h : ofGraph g = .ok c) : Built g c := by
  unfold ofGraph at h
  obtain ⟨c₁, hdiscover, h⟩ := Except.bind_eq_ok h
  obtain ⟨c₂, hpreds, h⟩ := Except.bind_eq_ok h
  obtain ⟨c₃, hsuccs, h⟩ := Except.bind_eq_ok h
  obtain rfl := Except.ok.inj h
  obtain ⟨hchained, hfollowed⟩ := (chained_start hg).discover hg (g.size + 1)
    (fun b hb hnot => by
      rw [size_addBlock] at hb
      obtain rfl := Nat.lt_one_iff.mp hb
      exact absurd List.mem_cons_self hnot)
    (by rw [size_addBlock]; simp) hdiscover
  obtain ⟨halike₂, hpreds₂⟩ := preds_of_foldlM hpreds
  obtain ⟨halike₃, hpreds₃, hsuccs₃⟩ := succs_of_foldlM hsuccs
  have halike := halike₂.trans halike₃
  have hbuilt : Built g c₃ := {
    chained := halike.chained hchained
    followed := fun b hb => halike.followed (hfollowed b (halike.size ▸ hb))
    preds := fun b hb => by rw [halike.predsOf, hpreds₃, hpreds₂ b (halike.size ▸ hb)]
    succs := fun b hb => by rw [halike₃.succsOf, hsuccs₃ b (halike₃.size ▸ hb)] }
  have hnumber : Alike c₃ c₃.number := ⟨rfl, rfl, fun _ => rfl, fun _ => rfl, fun _ => rfl⟩
  exact hnumber.built (fun _ => rfl) (fun _ => rfl) hbuilt

theorem block_setLoopDepths (c : Cfg) (f : LoopForest) (b : BlockId) (hb : b < c.size) :
    (c.setLoopDepths f).block b = { c.block b with loopDepth := f.loopDepth b } := by
  simp only [setLoopDepths, block, Array.getD_eq_getD_getElem?, Array.getElem?_mapIdx,
    Array.getElem?_eq_getElem hb, Option.map_some, Option.getD_some]

theorem size_setLoopDepths (c : Cfg) (f : LoopForest) : (c.setLoopDepths f).size = c.size :=
  Array.size_mapIdx

theorem setLoopDepths_cases (c : Cfg) (f : LoopForest) (b : BlockId) :
    ∃ depth, (c.setLoopDepths f).block b = { c.block b with loopDepth := depth } := by
  by_cases hb : b < c.size
  · exact ⟨_, block_setLoopDepths c f b hb⟩
  · have hsize : (c.setLoopDepths f).size ≤ b := (size_setLoopDepths c f).le.trans (Nat.le_of_not_lt hb)
    rw [block_of_size_le hsize, block_of_size_le (Nat.le_of_not_lt hb)]
    exact ⟨_, rfl⟩

theorem preds_setLoopDepths (c : Cfg) (f : LoopForest) (b : BlockId) :
    ((c.setLoopDepths f).block b).preds = (c.block b).preds := by
  obtain ⟨depth, h⟩ := setLoopDepths_cases c f b
  rw [h]

theorem Built.setLoopDepths (h : Built g c) (f : LoopForest) : Built g (c.setLoopDepths f) := by
  have halike : Alike c (c.setLoopDepths f) := by
    refine ⟨size_setLoopDepths c f, rfl, fun b => ?_, fun b => ?_, fun b => ?_⟩ <;>
      obtain ⟨depth, h⟩ := setLoopDepths_cases c f b <;> rw [h]
  refine halike.built (preds_setLoopDepths c f) (fun b => ?_) h
  obtain ⟨depth, h⟩ := setLoopDepths_cases c f b
  rw [h]

theorem Built.blockOf_terminator (h : Built g c) (ht : (c.block b).terminator = some t) :
    c.blockOf.get t = some b :=
  (h.chained.blockOf t b).mpr (List.mem_of_getLast? (h.chained.terminator b t ht).1)

theorem Built.entry_lt (h : Built g c) : entry < c.size :=
  lt_of_mem_ctrl ((h.chained.blockOf _ _).mp h.chained.start)

end Cfg

namespace Cfg

variable {g : Graph} {c : Cfg} {b d p : BlockId} {n r t x : NodeId} {i j : Nat}

namespace Built

theorem head_of_region (h : Built g c) (hr : (g.op r).isRegion) (hb : c.blockOf.get r = some b) :
    (c.block b).head = r := by
  rcases h.chained.head_or_continues ((h.chained.blockOf r b).mp hb) with hhead | ⟨_, _, _, -, hcont⟩
  · exact hhead.symm
  · rw [hcont.not_region] at hr
    exact nomatch hr

theorem getLast?_of_fork (h : Built g c) (hn : n ∈ (c.block b).ctrl) (hop : g.op n = .fork) :
    (c.block b).ctrl.getLast? = some n := by
  obtain ⟨pre, post, hsplit⟩ := List.append_of_mem hn
  cases post with
  | nil => rw [hsplit, List.getLast?_append_cons, List.getLast?_singleton]
  | cons y post =>
    have hlinked := h.chained.linked b
    rw [hsplit] at hlinked
    exact absurd hop (List.isChain_append_cons_cons.mp hlinked).2.1.not_fork

theorem before_callEnd (hg : g.WellFormed) (h : Built g c) (hn : n ∈ (c.block b).ctrl)
    (hop : g.op n = .callEnd) (hx : g.input n 0 = some x) :
    ∃ pre post, (c.block b).ctrl = pre ++ x :: n :: post := by
  rcases h.chained.head_or_continues hn with hhead | ⟨pre, y, post, hctrl, hcont⟩
  · have hstarts := h.chained.starts b (lt_of_mem_ctrl hn)
    rw [← hhead] at hstarts
    cases hstarts with
    | start => cases hg.start_op.symm.trans hop
    | region hregion => simp [hop, Op.isRegion] at hregion
    | side hside => cases hside.symm.trans hop
  · obtain rfl : y = x := Option.some.inj (hcont.input.symm.trans hx)
    exact ⟨pre, post, hctrl⟩

theorem eq_of_callEnd (hg : g.WellFormed) (h : Built g c) (hn : n ∈ (c.block b).ctrl)
    (hop : g.op n = .callEnd) (hx : g.input n 0 = some x) (hr : r ∈ (c.block d).ctrl)
    (hrop : g.op r = .callEnd) (hrx : g.input r 0 = some x) : n = r := by
  obtain ⟨pre, post, hctrl⟩ := h.before_callEnd hg hn hop hx
  obtain ⟨pre', post', hctrl'⟩ := h.before_callEnd hg hr hrop hrx
  have hb := (h.chained.blockOf x b).mpr (by rw [hctrl]; simp)
  have hd := (h.chained.blockOf x d).mpr (by rw [hctrl']; simp)
  obtain rfl : b = d := Option.some.inj (hb.symm.trans hd)
  have hnodup := h.chained.nodup b
  rw [hctrl, List.nodup_middle, List.nodup_cons, List.mem_append, not_or] at hnodup
  have hrest := ((List.append_cons_inj_of_notMem hnodup.1.1 hnodup.1.2).mp
    (hctrl.symm.trans hctrl')).2.2
  exact (List.cons.inj hrest).1

theorem preds_of_region (h : Built g c) (hb : b < c.size)
    (hr : (g.op (c.block b).head).isRegion) :
    ((g.inputs (c.block b).head).toList.drop 1).mapM (fun e =>
      match c.ctrlBlock? e with
      | some p => Except.ok p
      | none => malformed (c.block b).head (.predUnreachable e)) = .ok (c.block b).preds := by
  have hpreds := h.preds b hb
  unfold predsOf at hpreds
  dsimp only at hpreds
  split at hpreds
  case h_1 hop => simp [hop, Op.isRegion] at hr
  case h_2 | h_3 => exact hpreds
  case h_4 hregion hloop => exact ((Op.eq_of_isRegion hr).elim hregion hloop).elim

theorem input_of_pred (h : Built g c) (hb : b < c.size) (hr : (g.op (c.block b).head).isRegion)
    (hj : (c.block b).preds[j]? = some p) :
    ∃ x, g.input (c.block b).head (j + 1) = some x ∧ x ∈ (c.block p).ctrl := by
  obtain ⟨e, he, hblock⟩ := Except.exists_of_mapM_getElem? (h.preds_of_region hb hr) hj
  split at hblock
  case h_2 => exact nomatch hblock
  case h_1 q hq =>
    obtain rfl := Except.ok.inj hblock
    obtain ⟨x, rfl, hx⟩ := Option.bind_eq_some_iff.mp hq
    refine ⟨x, ?_, (h.chained.blockOf x q).mp hx⟩
    rw [List.getElem?_drop, Array.getElem?_toList, Nat.add_comm] at he
    rw [Graph.input_eq_getElem?, he]
    rfl

theorem region_of_jump (h : Built g c) (hb : b < c.size) (ht : (c.block b).terminator = none)
    (hd : (c.block b).succs.head? = some d) :
    (g.op (c.block d).head).isRegion ∧ ∀ n ∈ (c.block b).ctrl, g.op n ≠ .fork := by
  obtain ⟨last, hlast, hends⟩ := h.followed b hb
  have hsuccs := h.succs b hb
  rw [ht] at hends
  cases hends with
  | @jump r hfork hret hnext hr _ =>
    refine ⟨?_, fun n hn hop => hfork ?_⟩
    · have hlastD : (c.block b).ctrl.getLastD (c.block b).head = last := by
        rw [List.getLastD_eq_getLast?, hlast]
        rfl
      unfold succsOf at hsuccs
      rw [hlastD] at hsuccs
      dsimp only at hsuccs
      split at hsuccs
      case h_1 hop => exact absurd hop hfork
      case h_2 hop => exact absurd hop hret
      case h_3 =>
        rw [hnext] at hsuccs
        have heq := Except.ok.inj hsuccs
        rw [← heq] at hd
        have hblock : c.blockOf.get r = some d := by
          cases hget : c.ctrlBlock? (some r) with
          | none =>
            rw [hget] at hd
            exact nomatch hd
          | some e =>
            rw [hget] at hd
            exact hget.trans hd
        rwa [h.head_of_region hr hblock]
    · rw [Option.some.inj (hlast.symm.trans (h.getLast?_of_fork hn hop))]
      exact hop

/-- A block that ends with a branch goes on to its sides. -/
theorem side_of_fork (hg : g.WellFormed) (h : Built g c) (hb : b < c.size)
    (ht : (c.block b).terminator = some t) (hop : g.op t = .fork)
    (hd : (c.block b).succs[i]? = some d) :
    g.op (c.block d).head = .ctrlProj i ∧ g.input (c.block d).head 0 = some t := by
  obtain ⟨last, hlast, hends⟩ := h.followed b hb
  have hsuccs := h.succs b hb
  rw [ht] at hends
  cases hends with
  | ret hn =>
    rw [hop] at hn
    cases hn
  | fork _ hsides =>
    have hlastD : (c.block b).ctrl.getLastD (c.block b).head = t := by
      rw [List.getLastD_eq_getLast?, hlast]
      rfl
    have htlive : t ∈ g.live := h.chained.live b t (List.mem_of_getLast? hlast)
    -- both sides are found, so the edge for side `i` is at place `i`
    obtain ⟨u₀, hu₀, hb₀⟩ := hsides 0 (by omega)
    obtain ⟨u₁, hu₁, hb₁⟩ := hsides 1 (by omega)
    obtain ⟨d₀, hd₀⟩ := Option.isSome_iff_exists.mp hb₀
    obtain ⟨d₁, hd₁⟩ := Option.isSome_iff_exists.mp hb₁
    unfold succsOf at hsuccs
    rw [hlastD] at hsuccs
    simp only [hop] at hsuccs
    have heq : [d₀, d₁] = (c.block b).succs := by
      rw [← Except.ok.inj hsuccs]
      simp [hu₀, hu₁, ctrlBlock?, hd₀, hd₁]
    have hhead {u : NodeId} {k : Nat} {e : BlockId} (hu : g.side? t k = some u)
        (he : c.blockOf.get u = some e) :
        g.op (c.block e).head = .ctrlProj k ∧ g.input (c.block e).head 0 = some t := by
      obtain ⟨-, huop, huinput⟩ := hg.of_side? htlive hu
      rcases h.chained.head_or_continues ((h.chained.blockOf u e).mp he) with
        hue | ⟨_, x, _, -, hcont⟩
      · rw [← hue]
        exact ⟨huop, huinput⟩
      · rw [hcont.input, Option.some.injEq] at huinput
        rw [← huinput] at hop
        exact absurd hop hcont.not_fork
    rw [← heq] at hd
    rcases i with _ | _ | i
    · exact Option.some.inj hd ▸ hhead hu₀ hd₀
    · exact Option.some.inj hd ▸ hhead hu₁ hd₁
    · cases hd

end Built

end Cfg

end SeaNodes
