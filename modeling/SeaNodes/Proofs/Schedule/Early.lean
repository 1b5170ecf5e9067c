import SeaNodes.Proofs.Flow.DomTree
import SeaNodes.Proofs.Graph.WellFormed
import SeaNodes.Proofs.Schedule.Lists

namespace SeaNodes

namespace Graph

variable {g : Graph} {n m i : NodeId}

/-- `n` and its input `m` are both free to move. -/
def FloatsOn (g : Graph) (n m : NodeId) : Prop :=
  n ∈ g.live ∧ g.floats n ∧ g.floats m ∧ some m ∈ g.inputs n

/-- No floating node needs itself. -/
def FloatsApart (g : Graph) : Prop := ∀ n, ¬ Relation.TransGen g.FloatsOn n n

theorem lt_size_of_floats (h : g.floats n) : n < g.size :=
  lt_size_of_op_ne fun hop => by
    rw [floats, hop] at h
    cases h

theorem live_of_floats (hverify : g.verify = .ok ()) (hn : n ∈ g.live) (hm : some m ∈ g.inputs n)
    (hfloats : g.floats m) : m ∈ g.live :=
  mem_live.mpr ⟨lt_size_of_floats hfloats, ((verify_spec hverify hn).1 m hm).1⟩

noncomputable def floatHeight (g : Graph) (n : NodeId) : Nat :=
  {m | Relation.TransGen g.FloatsOn n m}.ncard

theorem FloatsApart.height_lt (h : g.FloatsApart) (hnm : g.FloatsOn n m) :
    g.floatHeight m < g.floatHeight n :=
  ncard_transGen_lt h (fun _ _ hfloats => lt_size_of_floats hfloats.2.2.1) hnm

theorem FloatsApart.height_lt_size (h : g.FloatsApart) (hn : n < g.size) :
    g.floatHeight n < g.size :=
  ncard_transGen_lt_bound h (fun _ _ hfloats => lt_size_of_floats hfloats.2.2.1) hn

end Graph

namespace Schedule

variable {g : Graph} {c : Cfg} {s s' : Schedule} {n m i u : NodeId} {b d e : BlockId}

/-- `s'` extends the placement of the pinned nodes in `s` to one in which every input is known where
it is needed. -/
structure Legal (g : Graph) (s s' : Schedule) : Prop where
  cfg : s'.cfg = s.cfg
  dom : s'.dom = s.dom
  pinned : ∀ n, g.floats n = false → s'.blockOf.get n = s.blockOf.get n
  placed : ∀ n ∈ g.live, g.floats n → ∃ b < s.cfg.size, s'.blockOf.get n = some b
  inputs : ∀ u ∈ g.live, (g.op u).isRegion = false → ∀ b, s'.blockOf.get u = some b →
    ∀ i j, g.input u j = some i → ¬ (g.op u = .phi ∧ j = 0) →
      ∃ p d, s'.neededAt? g u b j = some p ∧ p < s.cfg.size ∧ s'.blockOf.get i = some d ∧
        s.cfg.Dominates d p

theorem neededAt?_of_floats (h : g.floats n) (b : BlockId) (j : Nat) :
    s.neededAt? g n b j = some b := by
  rw [neededAt?, if_neg]
  intro hop
  simp [Graph.floats, hop, Op.isFloating] at h

theorem isRegion_of_floats (h : g.floats n) : (g.op n).isRegion = false := by
  by_contra hregion
  rw [Bool.not_eq_false] at hregion
  obtain hop | hop := Op.eq_of_isRegion hregion <;> simp [Graph.floats, Op.isFloating, hop] at h

theorem Legal.dominates_of_floats (h : Legal g s s') (hn : n ∈ g.live) (hfloats : g.floats n)
    (hb : s'.blockOf.get n = some b) (hi : some i ∈ g.inputs n) :
    ∃ d, s'.blockOf.get i = some d ∧ s.cfg.Dominates d b := by
  obtain ⟨j, hj⟩ := Array.getElem?_of_mem hi
  have hinput : g.input n j = some i := by
    rw [Graph.input_eq_getElem?, hj]
    rfl
  have hphi : ¬ (g.op n = .phi ∧ j = 0) := fun h => by
    simp [Graph.floats, h.1, Op.isFloating] at hfloats
  obtain ⟨p, d, hp, -, hd, hdom⟩ := h.inputs n hn (isRegion_of_floats hfloats) b hb i j hinput hphi
  rw [neededAt?_of_floats hfloats] at hp
  exact ⟨d, hd, Option.some.inj hp ▸ hdom⟩

/-- The blocks of a schedule that are all reached, and their tree. -/
structure Over (c : Cfg) (s : Schedule) : Prop where
  cfg : ∃ loops, s.cfg = c.setLoopDepths loops
  tells : s.dom.Tells c

namespace Over

variable (h : s.Over c)
include h

theorem connected : c.Connected := h.tells.connected

theorem size : s.cfg.size = c.size := by
  obtain ⟨loops, hcfg⟩ := h.cfg
  rw [hcfg, Cfg.size_setLoopDepths]

theorem dominates_iff : s.cfg.Dominates d b ↔ c.Dominates d b := by
  obtain ⟨loops, hcfg⟩ := h.cfg
  have hpreds (b : BlockId) : (s.cfg.block b).preds = (c.block b).preds := by
    rw [hcfg, Cfg.preds_setLoopDepths]
  exact ⟨fun hdom => hdom.of_preds hpreds, fun hdom => hdom.of_preds fun b => (hpreds b).symm⟩

theorem moves {p : NodeId → Prop} (hmoves : Moves p s s') : s'.Over c where
  cfg := hmoves.cfg ▸ h.cfg
  tells := hmoves.dom ▸ h.tells

end Over

/-- Of the blocks of the inputs, which are on the way to block `d`, the deepest is found. -/
theorem exists_earlyBlock (hs : s.Over c) (hd : d < c.size)
    (hinputs : ∀ i, some i ∈ g.inputs n → ∃ b, s.blockOf.get i = some b ∧ c.Dominates b d) :
    ∃ e < c.size, earlyBlock g s n = .ok e ∧ c.Dominates e d ∧
      ∀ i, some i ∈ g.inputs n → ∃ b, s.blockOf.get i = some b ∧ c.Dominates b e := by
  have hc := hs.connected
  obtain ⟨rest, hwalk⟩ := hc d hd
  obtain ⟨deepen, hfold, hdeepen⟩ : ∃ deepen : BlockId → NodeId → Except Fault BlockId,
      earlyBlock g s n = (g.inputs n).toList.reduceOption.foldlM deepen Cfg.entry ∧
      ∀ e i b, s.blockOf.get i = some b →
        deepen e i = .ok (if s.dom.depth e < s.dom.depth b then b else e) :=
    ⟨_, rfl, fun e i b hb => by rw [hb]⟩
  suffices h : ∀ (is : List NodeId) (e : BlockId),
      (∀ i ∈ is, ∃ b, s.blockOf.get i = some b ∧ c.Dominates b d) → c.Dominates e d →
      ∃ e', is.foldlM deepen e = .ok e' ∧ c.Dominates e' d ∧
        c.Dominates e e' ∧ ∀ i ∈ is, ∃ b, s.blockOf.get i = some b ∧ c.Dominates b e' by
    have hmem (i : NodeId) : i ∈ (g.inputs n).toList.reduceOption ↔ some i ∈ g.inputs n := by
      rw [List.reduceOption_mem_iff, Array.mem_toList_iff]
    obtain ⟨e, he, hed, -, hall⟩ := h (g.inputs n).toList.reduceOption Cfg.entry
      (fun i hi => hinputs i ((hmem i).mp hi)) (.of_entry c d)
    exact ⟨e, hed.lt_size hc hd, hfold.trans he, hed, fun i hi => hall i ((hmem i).mpr hi)⟩
  intro is
  induction is with
  | nil => exact fun e _ he => ⟨e, rfl, he, .refl c e, by simp⟩
  | cons i is ih =>
    intro e his he
    obtain ⟨⟨b, hb, hbd⟩, his⟩ := List.forall_mem_cons.mp his
    have hstep : c.Dominates (if s.dom.depth e < s.dom.depth b then b else e) d ∧
        c.Dominates e (if s.dom.depth e < s.dom.depth b then b else e) ∧
        c.Dominates b (if s.dom.depth e < s.dom.depth b then b else e) := by
      have hesize := he.lt_size hc hd
      have hbsize := hbd.lt_size hc hd
      rw [hs.tells.depth e hesize, hs.tells.depth b hbsize]
      split_ifs with hlt
      · refine ⟨hbd, (he.total hbd hwalk).resolve_right fun hbe => ?_, .refl c b⟩
        by_cases heq : b = e
        · exact absurd hlt (heq ▸ lt_irrefl _)
        · exact absurd hlt (Cfg.strictCount_lt hc hesize hbe heq).not_gt
      · refine ⟨he, .refl c e, (he.total hbd hwalk).elim (fun heb => ?_) id⟩
        by_cases heq : e = b
        · exact heq ▸ .refl c e
        · exact absurd (Cfg.strictCount_lt hc hbsize heb heq) hlt
    obtain ⟨e', he', hed, hee, hall⟩ := ih _ his hstep.1
    refine ⟨e', ?_, hed, hstep.2.1.trans hee, fun x hx => ?_⟩
    · rw [List.foldlM_cons, hdeepen e i b hb]
      exact he'
    · rcases List.mem_cons.mp hx with rfl | hx
      · exact ⟨b, hb, hstep.2.2.trans hee⟩
      · exact hall x hx

/-- The first phase has put `n` into the deepest block of its inputs, which dominates the one that
`n` has in the placement `l`. -/
structure Raised (g : Graph) (c : Cfg) (l s : Schedule) (n : NodeId) (e : BlockId) : Prop where
  lt_size : e < c.size
  block : s.blockOf.get n = some e
  early : s.early.get n = some e
  inputs : ∀ i, some i ∈ g.inputs n → ∃ d, s.blockOf.get i = some d ∧ c.Dominates d e
  above : ∃ d, l.blockOf.get n = some d ∧ c.Dominates e d

/-- What holds of the walk over floating nodes between two visits. -/
structure EarlyWalk.Sound (g : Graph) (c : Cfg) (s l : Schedule) (w : EarlyWalk) : Prop where
  moves : Moves (fun n => g.floats n) s w.schedule
  seen : ∀ n ∈ w.done, w.seen.contains n
  floats : ∀ n ∈ w.done, n ∈ g.live ∧ g.floats n
  raised : ∀ n ∈ w.done, ∃ e, Raised g c l w.schedule n e
  nodup : w.done.Nodup
  behind : ∀ pre n post, w.done = pre ++ n :: post →
    ∀ i, g.floats i → some i ∈ g.inputs n → i ∈ post

namespace EarlyWalk

variable {l : Schedule} {w w' w'' : EarlyWalk}

/-- Puts `n` into block `e` once its inputs are done. -/
def finish (w : EarlyWalk) (n : NodeId) (e : BlockId) : EarlyWalk :=
  let s := w.schedule.place n e
  { w with
    schedule := { s with early := s.early.set n (some e) }
    done := n :: w.done }

theorem get_finish (w : EarlyWalk) (n m : NodeId) (e : BlockId) :
    (w.finish n e).schedule.blockOf.get m = if n = m then some e else w.schedule.blockOf.get m :=
  get_place w.schedule n m e

theorem early_finish (w : EarlyWalk) (n m : NodeId) (e : BlockId) :
    (w.finish n e).schedule.early.get m = if n = m then some e else w.schedule.early.get m :=
  SideTable.get_set ..

section Finish

variable (hs : s.Over c) (hl : Legal g s l)
include hs hl

theorem Sound.exists_early (h : w.Sound g c s l) (hn : n ∈ g.live) (hfloats : g.floats n)
    (hdone : ∀ i, g.floats i → some i ∈ g.inputs n → i ∈ w.done) :
    ∃ e < c.size, earlyBlock g w.schedule n = .ok e ∧
      (∃ d, l.blockOf.get n = some d ∧ c.Dominates e d) ∧
      ∀ i, some i ∈ g.inputs n → ∃ d, w.schedule.blockOf.get i = some d ∧ c.Dominates d e := by
  obtain ⟨d, hd, hld⟩ := hl.placed n hn hfloats
  rw [hs.size] at hd
  have hinputs (i : NodeId) (hi : some i ∈ g.inputs n) :
      ∃ b, w.schedule.blockOf.get i = some b ∧ c.Dominates b d := by
    obtain ⟨b, hb, hdom⟩ := hl.dominates_of_floats hn hfloats hld hi
    have hbd := hs.dominates_iff.mp hdom
    by_cases hfi : g.floats i
    · obtain ⟨e, he⟩ := h.raised i (hdone i hfi hi)
      obtain ⟨b', hb', heb⟩ := he.above
      obtain rfl := Option.some.inj (hb.symm.trans hb')
      exact ⟨e, he.block, heb.trans hbd⟩
    · rw [Bool.not_eq_true] at hfi
      rw [hl.pinned i hfi] at hb
      exact ⟨b, (h.moves.frame i (by simp [hfi])).trans hb, hbd⟩
  obtain ⟨e, he, hearly, hed, hall⟩ := exists_earlyBlock (hs.moves h.moves) hd hinputs
  exact ⟨e, he, hearly, ⟨d, hld, hed⟩, hall⟩

theorem Sound.finish (h : w.Sound g c s l) (hn : n ∈ g.live) (hfloats : g.floats n)
    (hseen : w.seen.contains n) (hnew : n ∉ w.done)
    (hdone : ∀ i, g.floats i → some i ∈ g.inputs n → i ∈ w.done) :
    ∃ e, earlyBlock g w.schedule n = .ok e ∧ (w.finish n e).Sound g c s l := by
  obtain ⟨e, hesize, hearly, habove, hinputs⟩ := h.exists_early hs hl hn hfloats hdone
  have hplace := w.schedule.moves_place n e
  have hmoves : Moves (fun n => g.floats n) s (w.finish n e).schedule := by
    have hframe := (hplace.mono (q := fun m => g.floats m = true) fun m hm => hm ▸ hfloats)
    exact h.moves.trans ⟨hframe.cfg, hframe.dom, hframe.frame, hframe.grows⟩
  have hkeep (i : NodeId) (hi : i ≠ n) :
      (w.finish n e).schedule.blockOf.get i = w.schedule.blockOf.get i := by
    rw [get_finish, if_neg (Ne.symm hi)]
  -- the inputs are done and `n` is not, so placing `n` moves none of them
  have hself : some n ∉ g.inputs n := fun hi => hnew (hdone n hfloats hi)
  refine ⟨e, hearly, hmoves, ?_, ?_, ?_, List.nodup_cons.mpr ⟨hnew, h.nodup⟩, ?_⟩
  · exact List.forall_mem_cons.mpr ⟨hseen, h.seen⟩
  · exact List.forall_mem_cons.mpr ⟨⟨hn, hfloats⟩, h.floats⟩
  · refine List.forall_mem_cons.mpr ⟨⟨e, hesize, ?_, ?_, fun i hi => ?_, habove⟩, fun m hm => ?_⟩
    · rw [get_finish, if_pos rfl]
    · rw [early_finish, if_pos rfl]
    · rw [hkeep i fun h => hself (h ▸ hi)]
      exact hinputs i hi
    · obtain ⟨e', he'⟩ := h.raised m hm
      have hmn : m ≠ n := fun h => hnew (h ▸ hm)
      refine ⟨e', he'.lt_size, (hkeep m hmn).trans he'.block, ?_, fun i hi => ?_, he'.above⟩
      · rw [early_finish, if_neg (Ne.symm hmn)]
        exact he'.early
      · have hin : i ≠ n := by
          rintro rfl
          obtain ⟨pre, post, heq⟩ := List.append_of_mem hm
          have := h.behind pre m post heq i hfloats hi
          exact hnew (heq ▸ List.mem_append_right pre (List.mem_cons_of_mem m this))
        rw [hkeep i hin]
        exact he'.inputs i hi
  · intro pre m post heq i hfi hi
    cases pre with
    | nil =>
      obtain ⟨rfl, rfl⟩ := List.cons.inj heq
      exact hdone i hfi hi
    | cons x pre => exact h.behind pre m post (List.cons.inj heq).2 i hfi hi

end Finish

/-- A visit adds to the nodes that are done only such as were not seen before. -/
structure Adds (w w' : EarlyWalk) : Prop where
  done : ∀ m ∈ w.done, m ∈ w'.done
  seen : ∀ m, w.seen.contains m → w'.seen.contains m
  fresh : ∀ m ∈ w'.done, m ∈ w.done ∨ w.seen.contains m = false
  finished : ∀ m, w'.seen.contains m → w.seen.contains m ∨ m ∈ w'.done

theorem Adds.refl (w : EarlyWalk) : w.Adds w :=
  ⟨fun _ => id, fun _ => id, fun _ => .inl, fun _ => .inl⟩

theorem Adds.trans (h : w.Adds w') (h' : w'.Adds w'') : w.Adds w'' where
  done m hm := h'.done m (h.done m hm)
  seen m hm := h'.seen m (h.seen m hm)
  fresh m hm := by
    rcases h'.fresh m hm with hm | hm
    · exact h.fresh m hm
    · exact .inr (Bool.eq_false_iff.mpr fun hs => by simp [h.seen m hs] at hm)
  finished m hm := (h'.finished m hm).elim
    (fun hm => (h.finished m hm).imp_right (h'.done m)) .inr

/-- A new node is done after what was visited since it was seen. -/
theorem Adds.finish (h : EarlyWalk.Adds { w with seen := w.seen.insert n } w')
    (hnew : w.seen.contains n = false) (e : BlockId) : w.Adds (w'.finish n e) where
  done m hm := List.mem_cons_of_mem n (h.done m hm)
  seen m hm := h.seen m (by simp [hm])
  fresh m hm := by
    rcases List.mem_cons.mp hm with rfl | hm
    · exact .inr hnew
    · refine (h.fresh m hm).imp_right fun hm => ?_
      simp only [BitSet.contains_insert, Bool.or_eq_false_iff] at hm
      exact hm.2
  finished m hm := by
    rcases h.finished m hm with hm | hm
    · rw [BitSet.contains_insert, Bool.or_eq_true, decide_eq_true_eq] at hm
      rcases hm with rfl | hm
      · exact .inr List.mem_cons_self
      · exact .inl hm
    · exact .inr (List.mem_cons_of_mem n hm)

end EarlyWalk

open EarlyWalk in
/-- Visiting `n` gets it done. What is seen but not done needs `n`, so it is none of the inputs. -/
theorem exists_visitEarly (hg : g.verify = .ok ()) (hs : s.Over c) {l : Schedule}
    (hl : Legal g s l) (hapart : g.FloatsApart) (k : Nat) {w : EarlyWalk} (h : w.Sound g c s l)
    (hn : g.floats n → n ∈ g.live ∧ g.floatHeight n < k ∧
      ∀ m, w.seen.contains m → m ∈ w.done ∨ g.floatHeight n < g.floatHeight m) :
    ∃ w', visitEarly g k w n = .ok w' ∧ w'.Sound g c s l ∧ w.Adds w' ∧
      (g.floats n → n ∈ w'.done) := by
  induction k generalizing n w with
  | zero => exact ⟨w, rfl, h, .refl w, fun hfloats => absurd (hn hfloats).2.1 (Nat.not_lt_zero _)⟩
  | succ k ih =>
    rw [visitEarly]
    by_cases hfloats : g.floats n
    case neg => exact ⟨w, if_pos (by simp [hfloats]), h, .refl w, fun h => absurd h hfloats⟩
    obtain ⟨hlive, hk, hhigh⟩ := hn hfloats
    by_cases hseen : w.seen.contains n
    · refine ⟨w, if_pos (by simp [hseen]), h, .refl w, fun _ => ?_⟩
      exact (hhigh n hseen).resolve_right (lt_irrefl _)
    rw [if_neg (by simp [hfloats, hseen])]
    rw [Bool.not_eq_true] at hseen
    have hinputs (is : List NodeId) (his : ∀ i ∈ is, some i ∈ g.inputs n) (w : EarlyWalk)
        (h : w.Sound g c s l) (hhigh : ∀ m, w.seen.contains m → m ∈ w.done ∨
          g.floatHeight n ≤ g.floatHeight m) :
        ∃ w', is.foldlM (visitEarly g k) w = .ok w' ∧ w'.Sound g c s l ∧ w.Adds w' ∧
          ∀ i ∈ is, g.floats i → i ∈ w'.done := by
      induction is generalizing w with
      | nil => exact ⟨w, rfl, h, .refl w, by simp⟩
      | cons i is ihis =>
        obtain ⟨hi, his⟩ := List.forall_mem_cons.mp his
        obtain ⟨w₁, hvisit, h₁, hadds₁, hdone₁⟩ := ih (n := i) h fun hfi => by
          have hlt := hapart.height_lt ⟨hlive, hfloats, hfi, hi⟩
          exact ⟨Graph.live_of_floats hg hlive hi hfi, by omega,
            fun m hm => (hhigh m hm).imp_right hlt.trans_le⟩
        obtain ⟨w₂, hfold, h₂, hadds₂, hdone₂⟩ := ihis his w₁ h₁ fun m hm =>
          (hadds₁.finished m hm).elim (fun hm => (hhigh m hm).imp_left (hadds₁.done m)) .inl
        refine ⟨w₂, ?_, h₂, hadds₁.trans hadds₂, List.forall_mem_cons.mpr ⟨fun hfi => ?_, hdone₂⟩⟩
        · rw [List.foldlM_cons, hvisit]
          exact hfold
        · exact hadds₂.done i (hdone₁ hfi)
    have hbegin : EarlyWalk.Sound g c s l { w with seen := w.seen.insert n } :=
      { h with seen := fun m hm => by simp [h.seen m hm] }
    obtain ⟨w₁, hfold, h₁, hadds₁, hdone₁⟩ := hinputs (g.inputs n).toList.reduceOption
      (fun i hi => Array.mem_toList_iff.mp ((List.reduceOption_mem_iff).mp hi)) _ hbegin
      fun m hm => by
        rw [BitSet.contains_insert, Bool.or_eq_true, decide_eq_true_eq] at hm
        rcases hm with rfl | hm
        · exact .inr le_rfl
        · exact (hhigh m hm).imp_right le_of_lt
    have hnew : n ∉ w₁.done := fun hn => by
      rcases hadds₁.fresh n hn with hn | hn
      · rw [h.seen n hn] at hseen
        cases hseen
      · simp at hn
    obtain ⟨e, hearly, hfinish⟩ := h₁.finish hs hl hlive hfloats
      (hadds₁.seen n (by simp)) hnew fun i hfi hi =>
        hdone₁ i (List.reduceOption_mem_iff.mpr (Array.mem_toList_iff.mpr hi)) hfi
    refine ⟨w₁.finish n e, ?_, hfinish, hadds₁.finish hseen e, fun _ => List.mem_cons_self⟩
    simp only [hfold]
    show (earlyBlock g w₁.schedule n >>= fun e => .ok (w₁.finish n e)) = .ok (w₁.finish n e)
    rw [hearly]
    rfl

theorem exists_visitAll (hg : g.verify = .ok ()) (hs : s.Over c) {l : Schedule}
    (hl : Legal g s l) (hapart : g.FloatsApart) :
    ∃ w, g.live.foldlM (visitEarly g (g.size + 1)) { schedule := s } = .ok w ∧
      w.Sound g c s l ∧ ∀ n, n ∈ w.done ↔ n ∈ g.live ∧ g.floats n := by
  suffices h : ∀ (ns : List NodeId) (w : EarlyWalk), (∀ n ∈ ns, n ∈ g.live) → w.Sound g c s l →
      (∀ m, w.seen.contains m → m ∈ w.done) →
      ∃ w', ns.foldlM (visitEarly g (g.size + 1)) w = .ok w' ∧ w'.Sound g c s l ∧ w.Adds w' ∧
        ∀ n ∈ ns, g.floats n → n ∈ w'.done by
    have hstart : EarlyWalk.Sound g c s l { schedule := s } :=
      ⟨.refl _ s, by simp, by simp, by simp, List.nodup_nil, by simp⟩
    obtain ⟨w, hw, hsound, -, hdone⟩ := h g.live _ (fun _ => id) hstart
      fun m hm => absurd hm Bool.false_ne_true
    exact ⟨w, hw, hsound, fun n => ⟨hsound.floats n, fun hn => hdone n hn.1 hn.2⟩⟩
  intro ns
  induction ns with
  | nil => exact fun w _ h _ => ⟨w, rfl, h, .refl w, by simp⟩
  | cons n ns ih =>
    intro w hns h hseen
    obtain ⟨hn, hns⟩ := List.forall_mem_cons.mp hns
    have hheight := hapart.height_lt_size (Graph.mem_live.mp hn).1
    obtain ⟨w₁, hvisit, h₁, hadds₁, hdone₁⟩ := exists_visitEarly hg hs hl hapart (g.size + 1)
      (n := n) h fun _ => ⟨hn, hheight.trans (Nat.lt_succ_self _), fun m hm => .inl (hseen m hm)⟩
    obtain ⟨w₂, hfold, h₂, hadds₂, hdone₂⟩ := ih w₁ hns h₁ fun m hm =>
      (hadds₁.finished m hm).elim (fun hm => hadds₁.done m (hseen m hm)) id
    refine ⟨w₂, ?_, h₂, hadds₁.trans hadds₂, List.forall_mem_cons.mpr ⟨fun hf => ?_, hdone₂⟩⟩
    · rw [List.foldlM_cons, hvisit]
      exact hfold
    · exact hadds₂.done n (hdone₁ hf)

end Schedule

end SeaNodes
