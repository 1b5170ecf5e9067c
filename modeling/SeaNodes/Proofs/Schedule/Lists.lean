import SeaNodes.Proofs.Flow.DomTree
import SeaNodes.Proofs.Flow.Layout
import SeaNodes.Proofs.Schedule.Counting

namespace SeaNodes

theorem Graph.live_sorted (g : Graph) : g.live.Pairwise (· < ·) :=
  List.pairwise_lt_range.filter _

namespace Schedule

variable {g : Graph} {s s' : Schedule} {n m : NodeId} {b : BlockId}

/-- Only nodes of `p` were placed or moved. -/
structure Moves (p : NodeId → Prop) (s s' : Schedule) : Prop where
  cfg : s'.cfg = s.cfg
  dom : s'.dom = s.dom
  frame : ∀ m, ¬ p m → s'.blockOf.get m = s.blockOf.get m
  grows : ∀ m, (s.blockOf.get m).isSome → (s'.blockOf.get m).isSome

namespace Moves

variable {p q : NodeId → Prop}

theorem refl (p : NodeId → Prop) (s : Schedule) : Moves p s s :=
  ⟨rfl, rfl, fun _ _ => rfl, fun _ => id⟩

theorem trans {s'' : Schedule} (h : Moves p s s') (h' : Moves p s' s'') : Moves p s s'' where
  cfg := h'.cfg.trans h.cfg
  dom := h'.dom.trans h.dom
  frame m hm := (h'.frame m hm).trans (h.frame m hm)
  grows m hm := h'.grows m (h.grows m hm)

theorem mono (h : Moves p s s') (hpq : ∀ m, p m → q m) : Moves q s s' :=
  { h with frame := fun m hm => h.frame m fun hp => hm (hpq m hp) }

end Moves

theorem get_place (s : Schedule) (n m : NodeId) (b : BlockId) :
    (s.place n b).blockOf.get m = if n = m then some b else s.blockOf.get m :=
  SideTable.get_set ..

theorem moves_place (s : Schedule) (n : NodeId) (b : BlockId) : Moves (· = n) s (s.place n b) where
  cfg := rfl
  dom := rfl
  frame m hm := by rw [get_place, if_neg (Ne.symm hm)]
  grows m hm := by
    rw [get_place]
    split_ifs
    · rfl
    · exact hm

/-- Pinned nodes are in the blocks of their control. -/
structure Pinned (s : Schedule) (g : Graph) : Prop where
  ctrl : ∀ n ∈ g.live, (g.op n).isCfg → g.op n ≠ .stop → g.op n ≠ .dead →
    (s.blockOf.get n).isSome ∧ s.blockOf.get n = s.cfg.blockOf.get n
  data : ∀ n ∈ g.live, (g.op n).isCfg = false → g.floats n = false →
    dataBlock? g s n = .ok (s.blockOf.get n)

theorem dataBlock?_of_cfg (h : s'.cfg = s.cfg) (n : NodeId) :
    dataBlock? g s' n = dataBlock? g s n := by
  simp only [dataBlock?, pinnedBlock, h]

theorem dataBlock?_of_isCfg (h : (g.op n).isCfg) : dataBlock? g s n = .ok none := by
  unfold dataBlock?
  split <;> simp_all [Op.isCfg]

theorem dataBlock?_of_floats (h : g.floats n) : dataBlock? g s n = .ok none := by
  unfold dataBlock?
  split <;> simp_all [Graph.floats, Op.isFloating]

theorem pinCtrl_spec (h : pinCtrl g s n = .ok s') : Moves (· = n) s s' ∧
    ((g.op n).isCfg = false → s' = s) ∧
    ((g.op n).isCfg → g.op n ≠ .stop → g.op n ≠ .dead →
      (s'.blockOf.get n).isSome ∧ s'.blockOf.get n = s.cfg.blockOf.get n) := by
  unfold pinCtrl at h
  split at h
  case isTrue hn =>
    split at h
    case h_1 b hb =>
      obtain rfl := Except.ok.inj h
      refine ⟨s.moves_place n b, fun hcfg => ?_, fun _ _ _ => ?_⟩
      · simp [hcfg] at hn
      · rw [get_place, if_pos rfl]
        exact ⟨rfl, hb.symm⟩
    case h_2 => exact nomatch h
  case isFalse hn =>
    obtain rfl := Except.ok.inj h
    refine ⟨.refl _ s, fun _ => rfl, fun hcfg hstop hdead => ?_⟩
    simp [hcfg, hstop, hdead] at hn

theorem pinData_spec (h : pinData g s n = .ok s') : Moves (· = n) s s' ∧
    (dataBlock? g s n = .ok none ∧ s' = s ∨
      (s'.blockOf.get n).isSome ∧ dataBlock? g s n = .ok (s'.blockOf.get n)) := by
  obtain ⟨place, hplace, h⟩ := Except.bind_eq_ok h
  cases place with
  | none =>
    obtain rfl := Except.ok.inj h
    exact ⟨.refl _ s, .inl ⟨hplace, rfl⟩⟩
  | some b =>
    obtain rfl := Except.ok.inj h
    refine ⟨s.moves_place n b, .inr ?_⟩
    rw [get_place, if_pos rfl, hplace]
    exact ⟨rfl, rfl⟩

theorem floats_eq_false_of_isCfg (h : (g.op n).isCfg) : g.floats n = false := by
  unfold Graph.floats
  cases hop : g.op n <;> simp_all [Op.isCfg, Op.isFloating]

theorem pinCtrl_all (h : g.live.foldlM (pinCtrl g) s = .ok s') :
    Moves (fun n => (g.op n).isCfg) s s' ∧
      ∀ n ∈ g.live, (g.op n).isCfg → g.op n ≠ .stop → g.op n ≠ .dead →
        (s'.blockOf.get n).isSome ∧ s'.blockOf.get n = s.cfg.blockOf.get n := by
  refine Except.foldlM_processed (P := fun done s' => Moves (fun n => (g.op n).isCfg) s s' ∧
    ∀ n ∈ done, (g.op n).isCfg → g.op n ≠ .stop → g.op n ≠ .dead →
      (s'.blockOf.get n).isSome ∧ s'.blockOf.get n = s.cfg.blockOf.get n) h ⟨.refl _ s, by simp⟩ ?_
  intro done n s₁ s₂ _ ⟨hmoves, hdone⟩ hstep
  obtain ⟨hstep, hsame, hnew⟩ := pinCtrl_spec hstep
  rw [hmoves.cfg] at hnew
  refine ⟨hmoves.trans { hstep with frame := fun m hm => ?_ }, fun m hm => ?_⟩ <;>
    by_cases hmn : m = n
  · subst hmn
    rw [hsame (Bool.eq_false_iff.mpr hm)]
  · exact hstep.frame m hmn
  · exact hmn ▸ hnew
  · rw [hstep.frame m hmn]
    exact hdone m ((List.mem_append.mp hm).resolve_right (by simpa using hmn))

theorem pinData_all (hempty : ∀ n, (g.op n).isCfg = false → s.blockOf.get n = none)
    (h : g.live.foldlM (pinData g) s = .ok s') :
    Moves (fun n => (g.op n).isCfg = false ∧ g.floats n = false) s s' ∧
      ∀ n ∈ g.live, (g.op n).isCfg = false → dataBlock? g s n = .ok (s'.blockOf.get n) := by
  have hspec := Except.foldlM_processed (P := fun done s' =>
    Moves (fun n => (g.op n).isCfg = false ∧ g.floats n = false) s s' ∧
    (∀ n, (g.op n).isCfg = false → s'.blockOf.get n = none ∨
      dataBlock? g s n = .ok (s'.blockOf.get n)) ∧
    ∀ n ∈ done, (g.op n).isCfg = false → dataBlock? g s n = .ok (s'.blockOf.get n)) h
    ⟨.refl _ s, fun n hn => .inl (hempty n hn), by simp⟩
    (fun done n s₁ s₂ _ ⟨hmoves, hall, hdone⟩ hstep => by
      obtain ⟨hstep, hcases⟩ := pinData_spec hstep
      rw [dataBlock?_of_cfg hmoves.cfg] at hcases
      -- what a step finds is what it would have found at first, as blocks do not change
      have hnew (hcfg : (g.op n).isCfg = false) : dataBlock? g s n = .ok (s₂.blockOf.get n) := by
        rcases hcases with ⟨hnone, rfl⟩ | ⟨-, hsome⟩
        · rcases hall n hcfg with h | h
          · rw [h, hnone]
          · exact h
        · exact hsome
      refine ⟨hmoves.trans { hstep with frame := fun m hm => ?_ }, fun m hm => ?_,
        fun m hm => ?_⟩ <;> by_cases hmn : m = n
      · subst hmn
        have hnone : dataBlock? g s m = .ok none := by
          by_cases hcfg : (g.op m).isCfg
          · exact dataBlock?_of_isCfg hcfg
          · exact dataBlock?_of_floats (by simpa [Bool.eq_false_iff.mpr hcfg] using hm)
        rcases hcases with ⟨-, rfl⟩ | ⟨hisSome, hsome⟩
        · rfl
        · rw [hnone, Except.ok.injEq] at hsome
          rw [← hsome] at hisSome
          exact nomatch hisSome
      · exact hstep.frame m hmn
      · subst hmn
        exact .inr (hnew hm)
      · rw [hstep.frame m hmn]
        exact hall m hm
      · exact hmn ▸ hnew
      · rw [hstep.frame m hmn]
        exact hdone m ((List.mem_append.mp hm).resolve_right (by simpa using hmn)))
  exact ⟨hspec.1, hspec.2.2⟩

theorem pinned_pin (hempty : ∀ n, s.blockOf.get n = none) (h : pin g s = .ok s') :
    Moves (fun n => g.floats n = false) s s' ∧ Pinned s' g := by
  obtain ⟨s₁, hctrl, hdata⟩ := Except.bind_eq_ok h
  obtain ⟨hmoves₁, hctrl⟩ := pinCtrl_all hctrl
  have hnone (n : NodeId) (hn : (g.op n).isCfg = false) : s₁.blockOf.get n = none :=
    (hmoves₁.frame n (by simp [hn])).trans (hempty n)
  obtain ⟨hmoves₂, hdata⟩ := pinData_all hnone hdata
  have hcfg := hmoves₂.cfg.trans hmoves₁.cfg
  refine ⟨(hmoves₁.mono fun m => floats_eq_false_of_isCfg).trans (hmoves₂.mono fun m hm => hm.2),
    fun n hn hop hstop hdead => ?_, fun n hn hop _ => ?_⟩
  · rw [hmoves₂.frame n (by simp [hop]), hcfg]
    exact hctrl n hn hop hstop hdead
  · rw [← hdata n hn hop]
    exact dataBlock?_of_cfg hmoves₂.cfg n

theorem Pinned.moves (h : Pinned s g) (hmoves : Moves (fun n => g.floats n) s s') :
    Pinned s' g where
  ctrl n hn hop hstop hdead := by
    have hn' : ¬ g.floats n := by simp [floats_eq_false_of_isCfg hop]
    rw [hmoves.frame n hn', hmoves.cfg]
    exact h.ctrl n hn hop hstop hdead
  data n hn hop hfloats := by
    rw [hmoves.frame n (by simp [hfloats]), dataBlock?_of_cfg hmoves.cfg]
    exact h.data n hn hop hfloats

/-- What a walk over floating nodes does: it places what it sees. -/
structure EarlyWalk.Extends (g : Graph) (w w' : EarlyWalk) : Prop where
  moves : Moves (fun n => g.floats n) w.schedule w'.schedule
  seen : ∀ m, w.seen.contains m → w'.seen.contains m
  placed : ∀ m, w'.seen.contains m → w.seen.contains m ∨ (w'.schedule.blockOf.get m).isSome
  done : ∀ m ∈ w'.done, m ∈ w.done ∨ g.floats m

theorem EarlyWalk.Extends.refl (w : EarlyWalk) : w.Extends g w :=
  ⟨.refl _ _, fun _ => id, fun _ => .inl, fun _ => .inl⟩

theorem EarlyWalk.Extends.trans {w w' w'' : EarlyWalk} (h : w.Extends g w') (h' : w'.Extends g w'') :
    w.Extends g w'' where
  moves := h.moves.trans h'.moves
  seen m hm := h'.seen m (h.seen m hm)
  placed m hm := (h'.placed m hm).elim (fun hm => (h.placed m hm).imp_right (h'.moves.grows m)) .inr
  done m hm := (h'.done m hm).elim (h.done m) .inr

theorem visitEarly_extends (k : Nat) {w w' : EarlyWalk} (h : visitEarly g k w n = .ok w') :
    w.Extends g w' ∧ (0 < k → g.floats n → w'.seen.contains n) := by
  induction k generalizing n w w' with
  | zero =>
    obtain rfl := Except.ok.inj h
    exact ⟨.refl w, fun hk => absurd hk (Nat.lt_irrefl 0)⟩
  | succ k ih =>
    rw [visitEarly] at h
    split at h
    case isTrue hskip =>
      obtain rfl := Except.ok.inj h
      refine ⟨.refl w, fun _ hn => ?_⟩
      simpa [hn] using hskip
    case isFalse hvisit =>
      obtain ⟨w₁, hinputs, h⟩ := Except.bind_eq_ok h
      obtain ⟨early, -, h⟩ := Except.bind_eq_ok h
      obtain rfl := Except.ok.inj h
      have hfloats : g.floats n := by
        simp only [Bool.or_eq_true, Bool.not_eq_true', not_or] at hvisit
        simpa using hvisit.1
      have hext : EarlyWalk.Extends g { w with seen := w.seen.insert n } w₁ :=
        Except.foldlM_induction (P := EarlyWalk.Extends g { w with seen := w.seen.insert n }) hinputs
          (.refl _) fun m _ w₁ w₂ hw hstep => hw.trans (ih hstep).1
      have hmoves := (w₁.schedule.moves_place n early).mono
        (q := fun m => g.floats m = true) fun m hm => hm ▸ hfloats
      have hn : w₁.seen.contains n := hext.seen n (by simp)
      have hbound : Moves (fun m => g.floats m) w₁.schedule { w₁.schedule.place n early with
          early := w₁.schedule.early.set n (some early) } :=
        ⟨hmoves.cfg, hmoves.dom, hmoves.frame, hmoves.grows⟩
      refine ⟨⟨hext.moves.trans hbound, fun m hm => hext.seen m (by simp [hm]), fun m hm => ?_,
        fun m hm => ?_⟩, fun _ _ => hn⟩
      · rcases hext.placed m hm with h | h
        · rw [BitSet.contains_insert, Bool.or_eq_true, decide_eq_true_eq] at h
          rcases h with rfl | h
          · right
            show ((w₁.schedule.place m early).blockOf.get m).isSome
            rw [get_place, if_pos rfl]
            rfl
          · exact .inl h
        · exact .inr (hmoves.grows m h)
      · rcases List.mem_cons.mp hm with rfl | hm
        · exact .inr hfloats
        · exact hext.done m hm

theorem placeLate_moves (h : placeLate g s n = .ok s') : Moves (· = n) s s' := by
  obtain ⟨late, -, h⟩ := Except.bind_eq_ok h
  dsimp only at h
  split at h
  · obtain rfl := Except.ok.inj h
    have hmoves (b : BlockId) := s.moves_place n b
    exact ⟨rfl, rfl, (hmoves _).frame, (hmoves _).grows⟩
  · exact nomatch h

theorem placeAll_spec (hempty : ∀ n, s.blockOf.get n = none) (h : placeAll g s = .ok s') :
    s'.cfg = s.cfg ∧ s'.dom = s.dom ∧ Pinned s' g ∧
      ∀ n ∈ g.live, g.floats n → (s'.blockOf.get n).isSome := by
  obtain ⟨s₁, hpin, h⟩ := Except.bind_eq_ok h
  obtain ⟨w, hearly, hlate⟩ := Except.bind_eq_ok h
  obtain ⟨hmoves₁, hpinned⟩ := pinned_pin hempty hpin
  have hwalk := Except.foldlM_processed (P := fun done w =>
    EarlyWalk.Extends g { schedule := s₁ } w ∧ ∀ n ∈ done, g.floats n → w.seen.contains n) hearly
    ⟨.refl _, by simp⟩
    (fun done n w w' _ ⟨hext, hdone⟩ hvisit => by
      obtain ⟨hext', hseen⟩ := visitEarly_extends _ hvisit
      refine ⟨hext.trans hext', fun m hm hfloats => ?_⟩
      rcases List.mem_append.mp hm with hm | hm
      · exact hext'.seen m (hdone m hm hfloats)
      · rw [List.mem_singleton.mp hm] at hfloats ⊢
        exact hseen (Nat.succ_pos _) hfloats)
  have hmoves₂ : Moves (fun n => g.floats n) w.schedule s' :=
    Except.foldlM_induction (P := Moves (fun n => g.floats n) w.schedule) hlate (.refl _ _)
      fun n hn s s' hs hstep => hs.trans ((placeLate_moves hstep).mono fun m hm =>
        hm ▸ (hwalk.1.done n hn).resolve_left List.not_mem_nil)
  have hmoves := hwalk.1.moves.trans hmoves₂
  refine ⟨hmoves.cfg.trans hmoves₁.cfg, hmoves.dom.trans hmoves₁.dom, hpinned.moves hmoves,
    fun n hn hfloats => hmoves₂.grows n ?_⟩
  refine (hwalk.1.placed n (hwalk.2 n hn hfloats)).resolve_left ?_
  exact Bool.false_ne_true

end Schedule

/-- Evaluating the node does something: it gives a value or calls. -/
def Op.isCode (op : Op) : Bool := !op.isCfg || op == .call

theorem Op.isCode_eq_false_of_isRegion {op : Op} (h : op.isRegion) : op.isCode = false := by
  obtain rfl | rfl := eq_of_isRegion h <;> rfl

namespace Schedule

variable {g : Graph} {s : Schedule} {n i : NodeId} {b d : BlockId} {j : Nat}

/-- The orders list what is placed in their blocks. -/
structure Lists (s : Schedule) (g : Graph) : Prop where
  nodup : ∀ b < s.cfg.size, (s.nodes b).Nodup
  mem : ∀ b < s.cfg.size, ∀ n, (g.op n).isCode →
    (n ∈ s.nodes b ↔ n ∈ g.live ∧ s.blockOf.get n = some b)

instance (s : Schedule) (g : Graph) : Decidable (s.Lists g) :=
  decidable_of_iff ((∀ b < s.cfg.size, (s.nodes b).Nodup) ∧ ∀ b < s.cfg.size,
      (∀ n ∈ s.nodes b, (g.op n).isCode → n ∈ g.live ∧ s.blockOf.get n = some b) ∧
      ∀ n ∈ g.live, (g.op n).isCode → s.blockOf.get n = some b → n ∈ s.nodes b)
    ⟨fun h => ⟨h.1, fun b hb n hn => ⟨fun hmem => (h.2 b hb).1 n hmem hn,
        fun hmem => (h.2 b hb).2 n hmem.1 hn hmem.2⟩⟩,
      fun h => ⟨h.nodup, fun b hb => ⟨fun n hmem hn => (h.mem b hb n hn).mp hmem,
        fun n hlive hn hplaced => (h.mem b hb n hn).mpr ⟨hlive, hplaced⟩⟩⟩⟩

theorem filter_three_perm {α : Type} {p q : α → Bool} (hpq : ∀ x, q x → p x = false)
    (l : List α) :
    (l.filter p ++ l.filter q ++ l.filter fun x => !p x && !q x).Perm l := by
  have hq : l.filter q = (l.filter fun x => !p x).filter q := by
    rw [List.filter_filter]
    refine List.filter_congr fun x _ => ?_
    cases hx : q x with
    | false => rfl
    | true => rw [hpq x hx]; rfl
  have hrest : (l.filter fun x => !p x && !q x) = (l.filter fun x => !p x).filter (!q ·) := by
    rw [List.filter_filter]
    exact List.filter_congr fun x _ => Bool.and_comm _ _
  rw [hq, hrest, List.append_assoc]
  exact ((List.filter_append_perm q _).append_left _).trans (List.filter_append_perm p l)

theorem perm_orderBlock {head : NodeId} {terminator : Option NodeId} {nodes order : List NodeId}
    (hsorted : nodes.Pairwise (· < ·)) (h : orderBlock g head terminator nodes = .ok order) :
    order.Perm (head :: (nodes.filter fun n => n != head && some n != terminator) ++
      terminator.toList) := by
  unfold orderBlock at h
  dsimp only at h
  split at h
  case isFalse => exact nomatch h
  case isTrue hlength =>
    obtain rfl := Except.ok.inj h
    have hbody (p q : NodeId → Bool) : ((nodes.filter p).filter q).Pairwise (· < ·) :=
      (hsorted.filter p).filter q
    rw [orderBody_eq_takeFree _ (hbody _ _)] at hlength ⊢
    have hperm := takeFree_perm ((hbody _ _).imp Nat.ne_of_lt) hlength
    refine .append_right _ (.cons head ?_)
    refine (hperm.append_left _).trans (filter_three_perm (fun n hn => ?_) _)
    split at hn
    case h_3 => exact nomatch hn
    all_goals simp_all

/-- What a schedule of a graph consists of. -/
structure OfGraph (g : Graph) (c : Cfg) (s : Schedule) : Prop where
  cfg : ∃ loops, s.cfg = c.setLoopDepths loops
  dom : DomTree.ofCfg? c = some s.dom
  pinned : Pinned s g
  floats : ∀ n ∈ g.live, g.floats n → (s.blockOf.get n).isSome
  order : ∀ b < s.cfg.size, orderBlock g (s.cfg.block b).head (s.cfg.block b).terminator
    (g.live.filter fun n => s.blockOf.get n == some b) = .ok (s.nodes b)

theorem ofGraph_of_schedule (h : g.schedule = .ok s) :
    ∃ c, Cfg.ofGraph g = .ok c ∧ OfGraph g c s := by
  unfold Graph.schedule at h
  obtain ⟨c, hc, h⟩ := Except.bind_eq_ok h
  obtain ⟨dom, htree, h⟩ := Except.bind_eq_ok h
  obtain ⟨s₁, hplace, horder⟩ := Except.bind_eq_ok h
  obtain ⟨hcfg, hdom, hpinned, hfloats⟩ := placeAll_spec (fun _ => rfl) hplace
  have hspec := Except.foldlM_processed (P := fun done s => s.cfg = s₁.cfg ∧ s.dom = s₁.dom ∧
    s.blockOf = s₁.blockOf ∧ ∀ b ∈ done, orderBlock g (s₁.cfg.block b).head
      (s₁.cfg.block b).terminator (g.live.filter fun n => s₁.blockOf.get n == some b) =
        .ok (s.nodes b)) horder ⟨rfl, rfl, rfl, by simp⟩
    (fun done b s s' _ ⟨hcfg, hdom, hblock, hdone⟩ hstep => by
      obtain ⟨order, horder, hstep⟩ := Except.bind_eq_ok hstep
      obtain rfl := Except.ok.inj hstep
      refine ⟨hcfg, hdom, hblock, fun d hd => ?_⟩
      rw [nodes, SideTable.get_set]
      split_ifs with hbd
      · rw [← hbd, ← horder, hcfg, hblock]
      · exact hdone d ((List.mem_append.mp hd).resolve_right (by simpa using Ne.symm hbd)))
  obtain ⟨hcfg', hdom', hblock, horder⟩ := hspec
  refine ⟨c, hc, ⟨_, hcfg'.trans hcfg⟩, ?_, ⟨?_, fun n hn hop hn' => ?_⟩, ?_, ?_⟩
  · rw [hdom', hdom]
    exact DomTree.domTree_eq_ok.mp htree
  · rw [hcfg', hblock]
    exact hpinned.ctrl
  · rw [hblock, dataBlock?_of_cfg hcfg']
    exact hpinned.data n hn hop hn'
  · rw [hblock]
    exact hfloats
  · intro b hb
    rw [hcfg'] at hb
    rw [hcfg', hblock]
    exact horder b (List.mem_range.mpr hb)

theorem isCode_eq_false_of_startsAt {c : Cfg} (hg : g.WellFormed) (h : Cfg.StartsAt g c n) :
    (g.op n).isCode = false ∧ g.op n ≠ .fork ∧ g.op n ≠ .ret := by
  cases h with
  | start => simp [hg.start_op, Op.isCode, Op.isCfg]
  | region hn =>
    exact ⟨Op.isCode_eq_false_of_isRegion hn,
      fun hop => by simp [hop, Op.isRegion] at hn, fun hop => by simp [hop, Op.isRegion] at hn⟩
  | side hn => simp [hn, Op.isCode, Op.isCfg]

theorem OfGraph.built {c : Cfg} (h : OfGraph g c s) (hg : g.WellFormed)
    (hc : Cfg.ofGraph g = .ok c) : s.cfg.Built g := by
  obtain ⟨loops, hcfg⟩ := h.cfg
  rw [hcfg]
  exact (Cfg.built_of_ofGraph hg hc).setLoopDepths loops

theorem OfGraph.dominates {c : Cfg} {a : BlockId} (h : OfGraph g c s) (hg : g.WellFormed)
    (hc : Cfg.ofGraph g = .ok c) (hab : s.dom.dominates a b) : s.cfg.Dominates a b := by
  obtain ⟨loops, hcfg⟩ := h.cfg
  have hrpo (d : BlockId) (hd : d < c.size) : d ∈ c.rpo := (Cfg.mem_rpo_of_ofGraph hg hc).mpr hd
  rw [hcfg]
  exact (DomTree.dominates_sound h.dom hrpo hab).of_preds fun d =>
    (c.preds_setLoopDepths loops d).symm

theorem OfGraph.placed {c : Cfg} (h : OfGraph g c s) (hg : g.WellFormed) (hbuilt : s.cfg.Built g)
    (hb : b < s.cfg.size) (hn : n ∈ s.nodes b) : n ∈ g.live ∧ s.blockOf.get n = some b := by
  have hctrl {x : NodeId} (hx : x ∈ (s.cfg.block b).ctrl)
      (hop : (g.op x).isCfg ∧ g.op x ≠ .stop ∧ g.op x ≠ .dead) :
      x ∈ g.live ∧ s.blockOf.get x = some b := by
    have hlive := hbuilt.chained.live b x hx
    refine ⟨hlive, ?_⟩
    rw [(h.pinned.ctrl x hlive hop.1 hop.2.1 hop.2.2).2]
    exact (hbuilt.chained.blockOf x b).mpr hx
  have hmem := (perm_orderBlock (g.live_sorted.filter _) (h.order b hb)).mem_iff.mp hn
  rw [List.mem_append, List.mem_cons, Option.mem_toList] at hmem
  rcases hmem with (rfl | hmem) | hmem
  · exact hctrl (List.mem_of_mem_head? (hbuilt.chained.head b hb))
      ((hbuilt.chained.starts b hb).isCfg hg)
  · simpa using (List.mem_filter.mp (List.mem_filter.mp hmem).1)
  · obtain ⟨hlast, hop⟩ := hbuilt.chained.terminator b n hmem
    refine hctrl (List.mem_of_getLast? hlast) ?_
    rcases hop with hop | hop <;> simp [hop, Op.isCfg]

/-- A schedule of a well-formed graph lists what it places. The head and the terminator of a block
have no value. -/
theorem OfGraph.lists {c : Cfg} (h : OfGraph g c s) (hg : g.WellFormed) (hbuilt : s.cfg.Built g) :
    s.Lists g := by
  have hhead (b : Nat) (hb : b < s.cfg.size) :=
    isCode_eq_false_of_startsAt hg (hbuilt.chained.starts b hb)
  have hlive : g.live.Nodup := List.nodup_range.filter _
  constructor
  · intro b hb
    rw [(perm_orderBlock (g.live_sorted.filter _) (h.order b hb)).nodup_iff, List.cons_append, List.nodup_cons]
    constructor
    · rw [List.mem_append, not_or, Option.mem_toList]
      refine ⟨by simp, fun ht => ?_⟩
      exact (hbuilt.chained.terminator b _ ht).2.elim (hhead b hb).2.1 (hhead b hb).2.2
    · refine ((hlive.filter _).filter _).append ?_ ?_
      · cases (s.cfg.block b).terminator with
        | none => exact List.nodup_nil
        | some t => exact List.nodup_singleton t
      · intro n hn ht
        rw [Option.mem_toList] at ht
        simp [ht] at hn
  · intro b hb n hn
    have hne : n ≠ (s.cfg.block b).head := by
      rintro rfl
      rw [(hhead b hb).1] at hn
      exact nomatch hn
    have hnt : some n ≠ (s.cfg.block b).terminator := by
      intro ht
      rcases (hbuilt.chained.terminator b n ht.symm).2 with h | h <;>
        simp [h, Op.isCode, Op.isCfg] at hn
    rw [(perm_orderBlock (g.live_sorted.filter _) (h.order b hb)).mem_iff]
    simp [hne, hnt, Ne.symm hnt, Option.mem_toList]

theorem flaws_of_verify (h : s.verify g = .ok ()) : (∀ n ∈ g.live, s.placeFlaw? g n = none) ∧
    ∀ b < s.cfg.size, s.blockFlaw? g b [] (s.nodes b) = none := by
  unfold verify at h
  dsimp only at h
  split at h
  · exact nomatch h
  · rename_i hnone
    rw [Option.or_eq_none_iff, List.findSome?_eq_none_iff, List.findSome?_eq_none_iff] at hnone
    exact ⟨hnone.1, fun b hb => hnone.2 b (List.mem_range.mpr hb)⟩

theorem exists_of_input (h : g.input n j = some i) : (g.inputs n)[j]? = some (some i) := by
  rw [Graph.input_eq_getElem?, Option.join_eq_some_iff] at h
  exact h

theorem dominates_of_verify (h : s.verify g = .ok ()) (hn : n ∈ g.live)
    (hb : s.blockOf.get n = some b) (hregion : (g.op n).isRegion = false)
    (hi : g.input n j = some i) (hphi : ¬ (g.op n = .phi ∧ j = 0))
    (hd : s.blockOf.get i = some d) :
    ∃ p, s.neededAt? g n b j = some p ∧ s.dom.dominates d p := by
  have hplace := (flaws_of_verify h).1 n hn
  simp only [placeFlaw?, hb, hregion, Bool.not_false, guard_true, Option.pure_def,
    Option.bind_eq_bind, Option.bind_some, Option.or_eq_none_iff,
    List.findSome?_eq_none_iff] at hplace
  have hflaw := hplace.1 (some i, j) (by
    rw [List.mem_zipIdx_iff_getElem?, Array.getElem?_toList]
    exact exists_of_input hi)
  have hguard : (!(g.op n == .phi && j == 0)) = true := by
    simpa [← not_and_or] using hphi
  simp only [inputFlaw?, hguard, guard_true, hd, Option.pure_def, Option.bind_eq_bind,
    Option.bind_some] at hflaw
  split at hflaw
  case h_1 => exact nomatch hflaw
  case h_2 p hp =>
    split at hflaw
    case isTrue hdom => exact ⟨p, hp, hdom⟩
    case isFalse => exact nomatch hflaw

theorem orderFlaw_of_blockFlaw {before pre post : List NodeId}
    (h : s.blockFlaw? g b before (pre ++ n :: post) = none) :
    s.orderFlaw? g b (before ++ pre) n = none := by
  induction pre generalizing before with
  | nil =>
    rw [List.nil_append, blockFlaw?, Option.or_eq_none_iff] at h
    rw [List.append_nil]
    exact h.1
  | cons m pre ih =>
    rw [List.cons_append, blockFlaw?, Option.or_eq_none_iff] at h
    have := ih h.2
    rwa [List.append_assoc] at this

theorem before_of_verify (h : s.verify g = .ok ()) (hb : b < s.cfg.size) {pre post : List NodeId}
    (hsplit : s.nodes b = pre ++ n :: post) (hphi : g.op n ≠ .phi)
    (hregion : (g.op n).isRegion = false) (hi : g.input n j = some i)
    (hplaced : s.blockOf.get i = some b) : i ∈ pre := by
  have hblock := (flaws_of_verify h).2 b hb
  rw [hsplit] at hblock
  have horder := orderFlaw_of_blockFlaw hblock
  have hmem : i ∈ (g.inputs n).toList.reduceOption := by
    rw [List.reduceOption_mem_iff, Array.mem_toList_iff]
    exact Array.mem_of_getElem? (exists_of_input hi)
  have hguard : (!(g.op n == .phi || (g.op n).isRegion)) = true := by simp [hphi, hregion]
  simp only [orderFlaw?, hguard, guard_true, Option.pure_def, Option.bind_eq_bind,
    Option.bind_some, List.findSome?_eq_none_iff] at horder
  by_contra hnot
  simpa [hplaced, hnot] using horder i hmem

end Schedule

end SeaNodes
