import SeaNodes.Proofs.Flow.Reached
import SeaNodes.Proofs.Schedule.Early
import SeaNodes.Proofs.Schedule.Lists

namespace SeaNodes

namespace Schedule

variable {g : Graph} {c : Cfg} {s s' : Schedule} {n m u : NodeId} {b d e l p : BlockId}
variable {late : Option BlockId} {bs : Set BlockId}

def Needs (s : Schedule) (g : Graph) (u n : NodeId) (b : BlockId) : Prop :=
  ∃ d j, s.blockOf.get u = some d ∧ g.input u j = some n ∧ ¬ (g.op u = .phi ∧ j = 0) ∧
    s.neededAt? g u d j = some b

/-- `late` is the nearest common dominator of the blocks in `bs`, none if there are none. -/
structure Nearest (c : Cfg) (late : Option BlockId) (bs : Set BlockId) : Prop where
  lt_size : ∀ l ∈ late, l < c.size
  dominates : ∀ l ∈ late, ∀ b ∈ bs, c.Dominates l b
  nearest : ∀ d, (∀ b ∈ bs, c.Dominates d b) → ∀ l ∈ late, c.Dominates d l
  isSome : bs.Nonempty → late.isSome

namespace Nearest

theorem empty (c : Cfg) : Nearest c none ∅ :=
  ⟨nofun, nofun, fun _ _ => nofun, fun h => by simp at h⟩

theorem lca {tree : DomTree} (ht : tree.Tells c) (h : Nearest c late bs) (hb : b < c.size) :
    Nearest c (tree.lca late (some b)) (insert b bs) := by
  cases late with
  | none =>
    have hempty : bs = ∅ := by
      by_contra hne
      exact nomatch h.isSome (Set.nonempty_iff_ne_empty.mpr hne)
    subst hempty
    refine ⟨?_, ?_, ?_, fun _ => rfl⟩
    · rintro l ⟨rfl⟩
      exact hb
    · rintro l ⟨rfl⟩ d hd
      rcases hd with rfl | hd
      · exact .refl c d
      · exact absurd hd (Set.notMem_empty d)
    · rintro d hd l ⟨rfl⟩
      exact hd b (Set.mem_insert b ∅)
  | some a =>
    -- what dominates both `a` and `b` dominates `x`, so `x` is as near as can be
    obtain ⟨x, hx, hdom⟩ := ht.exists_lca (h.lt_size a rfl) hb
    obtain ⟨hxa, hxb⟩ := (hdom x).mp (.refl c x)
    rw [hx]
    refine ⟨?_, ?_, ?_, fun _ => rfl⟩
    · rintro l ⟨rfl⟩
      exact hxb.lt_size ht.connected hb
    · rintro l ⟨rfl⟩ d hd
      rcases hd with rfl | hd
      · exact hxb
      · exact hxa.trans (h.dominates a rfl d hd)
    · rintro d hd l ⟨rfl⟩
      refine (hdom d).mpr ⟨?_, hd b (Set.mem_insert b bs)⟩
      exact h.nearest d (fun b hb => hd b (Set.mem_insert_of_mem _ hb)) a rfl

theorem foldl_lca {tree : DomTree} (ht : tree.Tells c) (ps : List BlockId)
    (h : Nearest c late bs) (hps : ∀ p ∈ ps, p < c.size) :
    Nearest c (ps.foldl (fun late p => tree.lca late (some p)) late) (bs ∪ {p | p ∈ ps}) := by
  induction ps generalizing late bs with
  | nil => simpa using h
  | cons p ps ih =>
    rw [List.forall_mem_cons] at hps
    have hset : bs ∪ {q | q ∈ p :: ps} = insert p bs ∪ {q | q ∈ ps} := by
      ext q
      simp only [Set.mem_union, Set.mem_ofPred_eq, List.mem_cons, Set.mem_insert_iff]
      tauto
    rw [hset, List.foldl_cons]
    exact ih (h.lca ht hps.1) hps.2

end Nearest

theorem phiUses_spec (hop : g.op u = .phi) (hd : s.blockOf.get u = some d)
    (hpreds : ∀ j, g.input u (j + 1) = some n → ((s.cfg.block d).preds[j]?).isSome) :
    ∃ ps, phiUses g s n u = .ok ps ∧ ∀ p, p ∈ ps ↔ s.Needs g u n p := by
  have hphi (e : Edge) (j : Nat) : (e, j) ∈ (g.inputs u).toList.zipIdx.drop 1 ↔
      1 ≤ j ∧ (g.inputs u)[j]? = some e := by
    rw [mem_drop_zipIdx, Array.getElem?_toList]
  unfold phiUses
  simp only [hd]
  -- no predecessor is missing, so the loop is a filter
  rw [Except.filterMapM_eq_filterMap (r := fun x : Edge × Nat =>
    if x.1 ≠ some n then none else (s.cfg.block d).preds[x.2 - 1]?)]
  · refine ⟨_, rfl, fun p => ?_⟩
    rw [List.mem_filterMap]
    constructor
    · rintro ⟨⟨e, j⟩, hmem, hp⟩
      obtain ⟨hj, he⟩ := (hphi e j).mp hmem
      split_ifs at hp with hne
      rw [not_not] at hne
      refine ⟨d, j, hd, ?_, by omega, ?_⟩
      · rw [Graph.input_eq_getElem?, he]
        exact hne
      · rw [neededAt?, if_pos hop]
        exact hp
    · rintro ⟨d', j, hd', hinput, hj, hp⟩
      obtain rfl := Option.some.inj (hd.symm.trans hd')
      rw [neededAt?, if_pos hop] at hp
      refine ⟨(some n, j), (hphi _ j).mpr ⟨?_, exists_of_input hinput⟩, ?_⟩
      · exact Nat.one_le_iff_ne_zero.mpr fun h => hj ⟨hop, h⟩
      · simpa using hp
  · rintro ⟨e, j⟩ hmem
    obtain ⟨hj, he⟩ := (hphi e j).mp hmem
    dsimp only
    split_ifs with hne
    · rfl
    · rw [not_not] at hne
      obtain ⟨j, rfl⟩ := Nat.exists_eq_add_of_le' hj
      obtain ⟨p, hp⟩ := Option.isSome_iff_exists.mp (hpreds j (by
        rw [Graph.input_eq_getElem?, he]
        exact hne))
      rw [Nat.add_sub_cancel, hp]

theorem exists_lateUse (hs : s.Over c) (hu : u ∈ g.live) (hn : some n ∈ g.inputs u)
    (hphi : g.op u = .phi → ∃ d, s.blockOf.get u = some d ∧
      ∀ j, g.input u (j + 1) = some n → ((s.cfg.block d).preds[j]?).isSome)
    (hsize : ∀ b, s.Needs g u n b → b < c.size) (h : Nearest c late bs) :
    ∃ late', lateUse g s n late u = .ok late' ∧ Nearest c late' (bs ∪ {b | s.Needs g u n b}) := by
  unfold lateUse
  rw [if_neg (by simp [(Graph.mem_live.mp hu).2])]
  by_cases hop : g.op u = .phi
  · obtain ⟨d, hd, hpreds⟩ := hphi hop
    obtain ⟨ps, hps, hneeds⟩ := phiUses_spec hop hd hpreds
    rw [if_pos hop, hps]
    refine ⟨_, rfl, ?_⟩
    have hset : {b | s.Needs g u n b} = {b | b ∈ ps} := by
      ext b
      exact (hneeds b).symm
    rw [hset]
    exact h.foldl_lca hs.tells ps fun p hp => hsize p ((hneeds p).mp hp)
  · rw [if_neg hop]
    refine ⟨_, rfl, ?_⟩
    cases hd : s.blockOf.get u with
    | none =>
      have hset : {b | s.Needs g u n b} = ∅ := by
        refine Set.eq_empty_of_forall_notMem fun b hb => ?_
        obtain ⟨d, j, hd', -⟩ := hb
        rw [hd] at hd'
        exact nomatch hd'
      rw [hset, Set.union_empty]
      cases late <;> exact h
    | some d =>
      obtain ⟨j, hj⟩ := Array.getElem?_of_mem hn
      have hinput : g.input u j = some n := by
        rw [Graph.input_eq_getElem?, hj]
        rfl
      have hset : {b | s.Needs g u n b} = {d} := by
        ext b
        constructor
        · rintro ⟨d', j, hd', -, -, hb⟩
          rw [neededAt?, if_neg hop] at hb
          rw [← Option.some.inj hb]
          exact (Option.some.inj (hd.symm.trans hd')).symm
        · rintro rfl
          exact ⟨b, j, hd, hinput, fun h => hop h.1, by rw [neededAt?, if_neg hop]⟩
      rw [hset, Set.union_singleton]
      refine h.lca hs.tells (hsize d ?_)
      exact (Set.ext_iff.mp hset d).mpr rfl

theorem exists_range? (hs : s.Over c) (hel : c.Dominates e l) (hl : l < c.size) :
    ∃ path rest, s.range? e l = some path ∧ s.dom.dominators l = path ++ rest ∧
      ∀ b, b ∈ path ↔ c.Dominates e b ∧ c.Dominates b l := by
  have hmem (b : BlockId) : b ∈ s.dom.dominators l ↔ c.Dominates b l :=
    hs.tells.mem_dominators hl
  obtain ⟨pre, post, hup, hpre⟩ := List.eq_append_cons_of_mem ((hmem e).mpr hel)
  have htake : (s.dom.dominators l).takeWhile (· != e) = pre := by
    rw [hup, List.takeWhile_append_of_pos (fun x hx => ?_), List.takeWhile_cons_of_neg (by simp),
      List.append_nil]
    rw [bne_iff_ne]
    rintro rfl
    exact hpre hx
  have hbelow {pre' post' : List BlockId} {d : BlockId}
      (h : s.dom.dominators l = pre' ++ d :: post') : ∀ x ∈ d :: post', c.Dominates x d :=
    hs.tells.dominates_of_pathUp_append hl h
  refine ⟨pre ++ [e], post, ?_, ?_, fun b => ?_⟩
  · unfold range?
    dsimp only
    rw [htake, if_pos (List.contains_iff_mem.mpr ((hmem e).mpr hel))]
  · rw [hup, List.append_assoc, List.singleton_append]
  · rw [List.mem_append, List.mem_singleton]
    constructor
    · rintro (hb | rfl)
      · refine ⟨?_, (hmem b).mp (hup ▸ List.mem_append_left _ hb)⟩
        obtain ⟨pre₁, pre₂, rfl⟩ := List.append_of_mem hb
        rw [List.append_assoc, List.cons_append] at hup
        exact hbelow hup e (List.mem_cons_of_mem b (List.mem_append_right pre₂ List.mem_cons_self))
      · exact ⟨.refl c b, hel⟩
    · rintro ⟨heb, hbl⟩
      have hb := (hmem b).mpr hbl
      rw [hup, List.mem_append, List.mem_cons] at hb
      refine hb.imp_right fun hb => hb.elim id fun hb => ?_
      obtain ⟨rest, hwalk⟩ := hs.connected e (hel.lt_size hs.connected hl)
      exact (hbelow hup b (List.mem_cons_of_mem e hb)).antisymm heb hwalk

theorem foldl_least (key : BlockId → Nat) (xs : List BlockId) (best : BlockId) :
    (xs.foldl (fun best b => if key b < key best then b else best) best = best ∧
      ∀ x ∈ xs, key best ≤ key x) ∨
    ∃ pre r post, xs.foldl (fun best b => if key b < key best then b else best) best = r ∧
      xs = pre ++ r :: post ∧ key r < key best ∧ (∀ x ∈ pre, key r < key x) ∧
      ∀ x ∈ post, key r ≤ key x := by
  induction xs generalizing best with
  | nil => exact .inl ⟨rfl, by simp⟩
  | cons y ys ih =>
    rw [List.foldl_cons]
    by_cases hlt : key y < key best
    · rw [if_pos hlt]
      rcases ih y with ⟨hr, hleast⟩ | ⟨pre, r, post, hr, rfl, hry, hpre, hpost⟩
      · exact .inr ⟨[], y, ys, hr, rfl, hlt, by simp, hleast⟩
      · exact .inr ⟨y :: pre, r, post, hr, rfl, hry.trans hlt,
          List.forall_mem_cons.mpr ⟨hry, hpre⟩, hpost⟩
    · rw [if_neg hlt]
      rcases ih best with ⟨hr, hleast⟩ | ⟨pre, r, post, hr, rfl, hrb, hpre, hpost⟩
      · exact .inl ⟨hr, List.forall_mem_cons.mpr ⟨Nat.le_of_not_lt hlt, hleast⟩⟩
      · exact .inr ⟨y :: pre, r, post, hr, rfl, hrb,
          List.forall_mem_cons.mpr ⟨by omega, hpre⟩, hpost⟩

/-- Block `b` is the best one between `e` and `l`. -/
structure Best (c : Cfg) (s : Schedule) (e l b : BlockId) : Prop where
  below : c.Dominates e b
  above : c.Dominates b l
  best : ∀ d, c.Dominates e d → c.Dominates d l → s.loopDepth b ≤ s.loopDepth d ∧
    (s.loopDepth d = s.loopDepth b → c.Dominates d b)

theorem best_shallowest (hs : s.Over c) (hel : c.Dominates e l) (hl : l < c.size) :
    ∃ path, s.range? e l = some path ∧ Best c s e l (s.shallowest l path) := by
  obtain ⟨path, rest, hpath, hup, hmem⟩ := exists_range? hs hel hl
  refine ⟨path, hpath, ?_⟩
  rcases foldl_least s.loopDepth path l with ⟨hr, hleast⟩ | ⟨pre, r, post, hr, rfl, -, hpre, hpost⟩
  · rw [shallowest, hr]
    exact ⟨hel, .refl c l, fun d hed hdl => ⟨hleast d ((hmem d).mpr ⟨hed, hdl⟩), fun _ => hdl⟩⟩
  · rw [shallowest, hr]
    obtain ⟨her, hrl⟩ := (hmem r).mp (List.mem_append_right pre List.mem_cons_self)
    refine ⟨her, hrl, fun d hed hdl => ?_⟩
    have hd := (hmem d).mpr ⟨hed, hdl⟩
    rcases List.mem_append.mp hd with hd | hd
    · exact ⟨(hpre d hd).le, fun heq => absurd heq (hpre d hd).ne'⟩
    · rw [List.append_assoc] at hup
      have hdr : c.Dominates d r := hs.tells.dominates_of_pathUp_append hl hup d
        (List.mem_append_left rest hd)
      refine ⟨?_, fun _ => hdr⟩
      rcases List.mem_cons.mp hd with rfl | hd
      · exact le_rfl
      · exact hpost d hd

/-- The second phase has put `n` into the best block between its bounds `e` and `l`, and `l`
dominates all blocks in which `n` is needed. -/
structure Lowered (g : Graph) (c : Cfg) (s : Schedule) (n : NodeId) (e l b : BlockId) : Prop where
  lt_size : l < c.size
  early : s.early.get n = some e
  late : s.late.get n = some l
  block : s.blockOf.get n = some b
  best : Best c s e l b
  needs : ∀ u ∈ g.live, ∀ d, s.Needs g u n d → c.Dominates l d

/-- The second phase after the nodes `pre` and before the nodes `rest`. It started from `s`. -/
structure Lowering (g : Graph) (c : Cfg) (s : Schedule) (pre rest : List NodeId) (s' : Schedule) :
    Prop where
  moves : Moves (fun n => g.floats n) s s'
  early : s'.early = s.early
  waiting : ∀ n ∈ rest, s'.blockOf.get n = s.blockOf.get n
  lowered : ∀ n ∈ pre, ∃ e l b, s.blockOf.get n = some e ∧ Lowered g c s' n e l b

/-- Lowering `n` changes its lower bound and its block only. -/
structure Sinks (n : NodeId) (l b : BlockId) (s s' : Schedule) : Prop where
  moves : Moves (· = n) s s'
  early : s'.early = s.early
  late : ∀ m, s'.late.get m = if n = m then some l else s.late.get m
  block : ∀ m, s'.blockOf.get m = if n = m then some b else s.blockOf.get m

theorem sinks_place (s : Schedule) (n : NodeId) (l b : BlockId) :
    Sinks n l b s ({ s with late := s.late.set n (some l) }.place n b) where
  moves :=
    have h := s.moves_place n b
    ⟨rfl, rfl, h.frame, h.grows⟩
  early := rfl
  late _ := SideTable.get_set ..
  block _ := get_place ..

theorem neededAt?_of_cfg (h : s'.cfg = s.cfg) (n : NodeId) (b : BlockId) (j : Nat) :
    s'.neededAt? g n b j = s.neededAt? g n b j := by
  simp only [neededAt?, h]

theorem needs_iff (hcfg : s'.cfg = s.cfg) (hu : s'.blockOf.get u = s.blockOf.get u) :
    s'.Needs g u n b ↔ s.Needs g u n b := by
  simp only [Needs, hu, neededAt?_of_cfg hcfg]

theorem Best.of_cfg (h : Best c s e l b) (hcfg : s'.cfg = s.cfg) : Best c s' e l b := by
  refine ⟨h.below, h.above, fun d hed hdl => ?_⟩
  rw [loopDepth, loopDepth, hcfg]
  exact h.best d hed hdl

theorem Lowered.sinks {n' : NodeId} {l' b' : BlockId} (h : Lowered g c s n e l b)
    (hsinks : Sinks n' l' b' s s') (hne : n' ≠ n) (hinput : some n ∉ g.inputs n') :
    Lowered g c s' n e l b where
  lt_size := h.lt_size
  early := hsinks.early ▸ h.early
  late := by rw [hsinks.late, if_neg hne, h.late]
  block := by rw [hsinks.block, if_neg hne, h.block]
  best := h.best.of_cfg hsinks.moves.cfg
  needs u hu d hd := by
    have hun : u ≠ n' := by
      rintro rfl
      obtain ⟨-, j, -, hj, -⟩ := hd
      exact hinput (Array.mem_of_getElem? (exists_of_input hj))
    rw [needs_iff hsinks.moves.cfg (hsinks.moves.frame u hun)] at hd
    exact h.needs u hu d hd

section Lowering

variable {w : EarlyWalk} {placed : Schedule} {pre rest : List NodeId}
variable (hg : g.WellFormed) (hbuilt : s.cfg.Built g) (hpinned : Pinned s g) (hs : s.Over c)
variable (hslots : ∀ r ∈ g.live, (g.op r).isRegion → ∀ x ∈ g.input r 0, g.floats x = false)
variable (hl : Legal g s placed) (hw : w.Sound g c s placed)
variable (hdone : ∀ n, n ∈ w.done ↔ n ∈ g.live ∧ g.floats n)

include hg hbuilt hpinned hslots in
theorem not_region_of_floats (hu : u ∈ g.live) (hn : some n ∈ g.inputs u)
    (hfloats : g.floats n) : (g.op u).isRegion = false := by
  by_contra hregion
  rw [Bool.not_eq_false] at hregion
  obtain ⟨j, hj⟩ := Array.getElem?_of_mem hn
  have hinput : g.input u j = some n := by
    rw [Graph.input_eq_getElem?, hj]
    rfl
  cases j with
  | zero =>
    rw [hslots u hu hregion n hinput] at hfloats
    cases hfloats
  | succ j =>
    obtain ⟨hcfg, hstop, hdead⟩ := Op.isCfg_of_isRegion hregion
    obtain ⟨hsome, hblock⟩ := hpinned.ctrl u hu hcfg hstop hdead
    rw [hblock] at hsome
    obtain ⟨b, hb⟩ := Option.isSome_iff_exists.mp hsome
    have hhead := hbuilt.head_of_region hregion hb
    have hlt := Cfg.lt_of_mem_ctrl ((hbuilt.chained.blockOf u b).mp hb)
    have hget : ((g.inputs (s.cfg.block b).head).toList.drop 1)[j]? = some (some n) := by
      rw [hhead, List.getElem?_drop, Array.getElem?_toList, Nat.add_comm, hj]
    obtain ⟨q, -, hq⟩ := Except.exists_of_getElem?_mapM
      (hbuilt.preds_of_region hlt (hhead ▸ hregion)) hget
    cases hctrl : s.cfg.ctrlBlock? (some n) with
    | none =>
      rw [hctrl] at hq
      cases hq
    | some d =>
      have hcfg := hbuilt.chained.isCfg_of_mem hg ((hbuilt.chained.blockOf n d).mp hctrl)
      rw [floats_eq_false_of_isCfg hcfg] at hfloats
      cases hfloats

theorem isSome_of_phi (hpinned : Pinned s g) (hu : u ∈ g.live) (hop : g.op u = .phi) :
    ∃ d, s.blockOf.get u = some d := by
  have hblock := hpinned.data u hu (by simp [hop, Op.isCfg])
    (by simp [Graph.floats, hop, Op.isFloating])
  unfold dataBlock? at hblock
  simp only [hop] at hblock
  cases hb : s.pinnedBlock g u (g.input u 0) with
  | error e =>
    rw [hb] at hblock
    cases hblock
  | ok b =>
    rw [hb] at hblock
    exact ⟨b, (Except.ok.inj hblock).symm⟩

include hg hbuilt hpinned hs hslots hl in
/-- The highest block of a node dominates all blocks in which it is needed, if the floating users
have been lowered no further than from their own highest blocks. -/
theorem dominates_of_needs {s₁ : Schedule} (hmoves : Moves (fun n => g.floats n) s s₁)
    (hfloats : g.floats n) (he : Raised g c placed w.schedule n e) (hu : u ∈ g.live)
    (husers : g.floats u → ∃ d l b, Raised g c placed w.schedule u d ∧ Lowered g c s₁ u d l b)
    (hneeds : s₁.Needs g u n b) : c.Dominates e b ∧ b < c.size := by
  obtain ⟨ub, j, hub, hinput, hphi, hb⟩ := hneeds
  have hmem : some n ∈ g.inputs u := Array.mem_of_getElem? (exists_of_input hinput)
  by_cases hfu : g.floats u
  · obtain ⟨d, l, b', hraised, hlow⟩ := husers hfu
    rw [neededAt?_of_floats hfu] at hb
    obtain rfl := Option.some.inj hb
    obtain rfl := Option.some.inj (hub.symm.trans hlow.block)
    obtain ⟨e', he', hdom⟩ := hraised.inputs n hmem
    obtain rfl := Option.some.inj (he'.symm.trans he.block)
    exact ⟨hdom.trans hlow.best.below, hlow.best.above.lt_size hs.connected hlow.lt_size⟩
  · have hregion := not_region_of_floats hg hbuilt hpinned hslots hu hmem hfloats
    rw [Bool.not_eq_true] at hfu
    rw [hmoves.frame u (by simp [hfu]), ← hl.pinned u hfu] at hub
    obtain ⟨p, d, hp, hlt, hd, hdom⟩ := hl.inputs u hu hregion ub hub n j hinput hphi
    rw [neededAt?_of_cfg hl.cfg] at hp
    rw [neededAt?_of_cfg hmoves.cfg, hp] at hb
    obtain rfl := Option.some.inj hb
    obtain ⟨d', hd', hed⟩ := he.above
    obtain rfl := Option.some.inj (hd.symm.trans hd')
    exact ⟨hed.trans (hs.dominates_iff.mp hdom), hs.size ▸ hlt⟩

include hg in
/-- The lowest block of a node is the nearest common dominator of the blocks that need it. -/
theorem exists_lateBlock {s₁ : Schedule} (hs₁ : s₁.Over c) (hn : n ∈ g.live)
    (hphi : ∀ u ∈ g.live, g.op u = .phi → ∃ d, s₁.blockOf.get u = some d ∧
      ∀ j, g.input u (j + 1) = some n → ((s₁.cfg.block d).preds[j]?).isSome)
    (hsize : ∀ u ∈ g.live, ∀ b, s₁.Needs g u n b → b < c.size) :
    ∃ late, (g.usesOf n).toList.foldlM (lateUse g s₁ n) none = .ok late ∧
      Nearest c late {b | ∃ u ∈ g.live, s₁.Needs g u n b} := by
  have huser (u : NodeId) (hu : u ∈ (g.usesOf n).toList) : some n ∈ g.inputs u ∧ u ∈ g.live :=
    hg.user_live hn (Array.mem_toList_iff.mp hu)
  -- over the users that were met so far, whichever blocks `bs` these need
  suffices h : ∀ (us : List NodeId) (late : Option BlockId) (bs : Set BlockId),
      us ⊆ (g.usesOf n).toList → Nearest c late bs →
      ∃ late', us.foldlM (lateUse g s₁ n) late = .ok late' ∧
        Nearest c late' (bs ∪ {b | ∃ u ∈ us, s₁.Needs g u n b}) by
    obtain ⟨late, hlate, hnearest⟩ := h (g.usesOf n).toList none ∅ (List.Subset.refl _) (.empty c)
    have hset : {b | ∃ u ∈ g.live, s₁.Needs g u n b} =
        ∅ ∪ {b | ∃ u ∈ (g.usesOf n).toList, s₁.Needs g u n b} := by
      ext b
      simp only [Set.empty_union, Set.mem_ofPred_eq]
      constructor
      · rintro ⟨u, hu, hneeds⟩
        have hmem : some n ∈ g.inputs u := by
          obtain ⟨-, j, -, hinput, -⟩ := hneeds
          exact Array.mem_of_getElem? (exists_of_input hinput)
        exact ⟨u, Array.mem_toList_iff.mpr ((Graph.verify_spec hg.verified hu).1 n hmem).2, hneeds⟩
      · rintro ⟨u, hu, hneeds⟩
        exact ⟨u, (huser u hu).2, hneeds⟩
    rw [hset]
    exact ⟨late, hlate, hnearest⟩
  intro us
  induction us with
  | nil =>
    intro late bs _ h
    refine ⟨late, rfl, ?_⟩
    simpa using h
  | cons u us ih =>
    intro late bs hus h
    obtain ⟨hu, hus⟩ := List.cons_subset.mp hus
    obtain ⟨hmem, hlive⟩ := huser u hu
    obtain ⟨late₁, hlate₁, h₁⟩ := exists_lateUse hs₁ hlive hmem (hphi u hlive) (hsize u hlive) h
    obtain ⟨late₂, hlate₂, h₂⟩ := ih late₁ _ hus h₁
    have hset : bs ∪ {b | s₁.Needs g u n b} ∪ {b | ∃ v ∈ us, s₁.Needs g v n b} =
        bs ∪ {b | ∃ v ∈ u :: us, s₁.Needs g v n b} := by
      ext b
      simp only [Set.mem_union, Set.mem_ofPred_eq, List.mem_cons, exists_eq_or_imp, or_assoc]
    rw [hset] at h₂
    refine ⟨late₂, ?_, h₂⟩
    rw [List.foldlM_cons, hlate₁]
    exact hlate₂

include hw in
theorem not_input_of_behind (heq : w.done = pre ++ n :: rest) (hfloats : g.floats n)
    (hu : u ∈ n :: rest) : some n ∉ g.inputs u := by
  intro hn
  have hnodup : (n :: rest).Nodup := by
    have := hw.nodup
    rw [heq] at this
    exact (List.nodup_append.mp this).2.1
  obtain ⟨as, bs, hsplit⟩ := List.append_of_mem hu
  have hbehind : n ∈ bs := by
    refine hw.behind (pre ++ as) u bs ?_ n hfloats hn
    rw [heq, hsplit, List.append_assoc]
  have hrest : n ∈ rest := by
    cases as with
    | nil =>
      obtain ⟨-, rfl⟩ := List.cons.inj hsplit
      exact hbehind
    | cons a as =>
      obtain ⟨-, rfl⟩ := List.cons.inj hsplit
      exact List.mem_append_right as (List.mem_cons_of_mem u hbehind)
  exact (List.nodup_cons.mp hnodup).1 hrest

include hg hbuilt hpinned hs hslots hl hw hdone in
theorem Lowering.dominates_of_needs {s₁ : Schedule}
    (h : Lowering g c w.schedule pre (n :: rest) s₁) (heq : w.done = pre ++ n :: rest)
    (hfloats : g.floats n) (he : Raised g c placed w.schedule n e) (hu : u ∈ g.live)
    (hneeds : s₁.Needs g u n b) : c.Dominates e b ∧ b < c.size := by
  have hmem : some n ∈ g.inputs u := by
    obtain ⟨-, j, -, hinput, -⟩ := hneeds
    exact Array.mem_of_getElem? (exists_of_input hinput)
  refine Schedule.dominates_of_needs hg hbuilt hpinned hs hslots hl (hw.moves.trans h.moves) hfloats
    he hu (fun hfu => ?_) hneeds
  have hpre : u ∈ pre := by
    have hu := (hdone u).mpr ⟨hu, hfu⟩
    rw [heq, List.mem_append] at hu
    exact hu.resolve_right fun hu => not_input_of_behind hw heq hfloats hu hmem
  obtain ⟨d, l, b, hd, hlow⟩ := h.lowered u hpre
  obtain ⟨d', hraised⟩ := hw.raised u (heq ▸ List.mem_append_left _ hpre)
  exact ⟨d', l, b, hraised, Option.some.inj (hd.symm.trans hraised.block) ▸ hlow⟩

include hpinned hl in
theorem exists_preds_of_phi {s₁ : Schedule} (hmoves : Moves (fun n => g.floats n) s s₁)
    (hu : u ∈ g.live) (hop : g.op u = .phi) : ∃ d, s₁.blockOf.get u = some d ∧
      ∀ j, g.input u (j + 1) = some n → ((s₁.cfg.block d).preds[j]?).isSome := by
  have hpin : g.floats u = false := by simp [Graph.floats, hop, Op.isFloating]
  obtain ⟨d, hd⟩ := isSome_of_phi hpinned hu hop
  refine ⟨d, (hmoves.frame u (by simp [hpin])).trans hd, fun j hj => ?_⟩
  obtain ⟨p, -, hp, -⟩ := hl.inputs u hu (by simp [hop, Op.isRegion]) d
    ((hl.pinned u hpin).trans hd) n (j + 1) hj (by simp)
  rw [neededAt?_of_cfg hl.cfg, neededAt?, if_pos hop, Nat.add_sub_cancel] at hp
  rw [hmoves.cfg, hp]
  rfl

include hg hbuilt hpinned hs hslots hl hw hdone in
/-- A node whose users are lowered has bounds with a way up between them, and gets the best block on
it. -/
theorem Lowering.exists_placeLate {s₁ : Schedule}
    (h : Lowering g c w.schedule pre (n :: rest) s₁) (heq : w.done = pre ++ n :: rest)
    (hlive : n ∈ g.live) (hfloats : g.floats n) (he : Raised g c placed w.schedule n e) :
    ∃ s₂ l b, placeLate g s₁ n = .ok s₂ ∧ Sinks n l b s₁ s₂ ∧ l < c.size ∧ Best c s₁ e l b ∧
      ∀ u ∈ g.live, ∀ d, s₁.Needs g u n d → c.Dominates l d := by
  have hmoves := hw.moves.trans h.moves
  have hs₁ := hs.moves hmoves
  have hneeds (u : NodeId) (hu : u ∈ g.live) (b : BlockId) (hb : s₁.Needs g u n b) :=
    h.dominates_of_needs hg hbuilt hpinned hs hslots hl hw hdone heq hfloats he hu hb
  obtain ⟨late, hlate, hnearest⟩ := exists_lateBlock hg hs₁ hlive
    (fun u hu hop => exists_preds_of_phi hpinned hl hmoves hu hop)
    fun u hu b hb => (hneeds u hu b hb).2
  have hearly : s₁.early.get n = some e := h.early ▸ he.early
  obtain ⟨l, hl', hlt, hel, hdom⟩ : ∃ l, late.getD e = l ∧ l < c.size ∧ c.Dominates e l ∧
      ∀ u ∈ g.live, ∀ d, s₁.Needs g u n d → c.Dominates l d := by
    cases late with
    | none =>
      refine ⟨e, rfl, he.lt_size, .refl c e, fun u hu d hd => ?_⟩
      cases hnearest.isSome ⟨d, u, hu, hd⟩
    | some l =>
      refine ⟨l, rfl, hnearest.lt_size l rfl, ?_, fun u hu d hd => ?_⟩
      · refine hnearest.nearest e ?_ l rfl
        rintro b ⟨u, hu, hb⟩
        exact (hneeds u hu b hb).1
      · exact hnearest.dominates l rfl d ⟨u, hu, hd⟩
  obtain ⟨path, hpath, hbest⟩ := best_shallowest hs₁ hel hlt
  refine ⟨_, l, s₁.shallowest l path, ?_, s₁.sinks_place n l _, hlt, hbest, hdom⟩
  simp only [placeLate, hlate, hearly, Option.getD_some, bind, Except.bind, hl', hpath]
  rfl

include hg hbuilt hpinned hs hslots hl hw hdone in
/-- Lowering one node. Its users have been lowered, and it needs none of these. -/
theorem Lowering.step {s₁ : Schedule} (h : Lowering g c w.schedule pre (n :: rest) s₁)
    (heq : w.done = pre ++ n :: rest) :
    ∃ s₂, placeLate g s₁ n = .ok s₂ ∧ Lowering g c w.schedule (pre ++ [n]) rest s₂ := by
  have hmem : n ∈ w.done := heq ▸ List.mem_append_right pre List.mem_cons_self
  obtain ⟨hlive, hfloats⟩ := hw.floats n hmem
  obtain ⟨e, he⟩ := hw.raised n hmem
  obtain ⟨s₂, l, b, hplace, hsinks, hlt, hbest, hdom⟩ :=
    h.exists_placeLate hg hbuilt hpinned hs hslots hl hw hdone heq hlive hfloats he
  have hnodup := hw.nodup
  rw [heq, List.nodup_append] at hnodup
  have hself : some n ∉ g.inputs n := not_input_of_behind hw heq hfloats List.mem_cons_self
  refine ⟨s₂, hplace, h.moves.trans (hsinks.moves.mono fun m hm => hm ▸ hfloats),
    hsinks.early.trans h.early, fun m hm => ?_, fun m hm => ?_⟩
  · have hne : m ≠ n := fun heq => (List.nodup_cons.mp hnodup.2.1).1 (heq ▸ hm)
    rw [hsinks.moves.frame m hne]
    exact h.waiting m (List.mem_cons_of_mem n hm)
  · rcases List.mem_append.mp hm with hm | hm
    · obtain ⟨e', l', b', he', hlow⟩ := h.lowered m hm
      refine ⟨e', l', b', he', hlow.sinks hsinks (fun hnm => ?_) fun hinput => ?_⟩
      · exact hnodup.2.2 m hm n List.mem_cons_self hnm.symm
      · have hfm := (hw.floats m (heq ▸ List.mem_append_left _ hm)).2
        have hrest := hw.behind pre n rest heq m hfm hinput
        exact hnodup.2.2 m hm m (List.mem_cons_of_mem n hrest) rfl
    · obtain rfl := List.mem_singleton.mp hm
      refine ⟨e, l, b, he.block, hlt, ?_, ?_, ?_, hbest.of_cfg hsinks.moves.cfg,
        fun u hu d hd => ?_⟩
      · rw [hsinks.early, h.early]
        exact he.early
      · rw [hsinks.late, if_pos rfl]
      · rw [hsinks.block, if_pos rfl]
      · have hum : u ≠ m := by
          rintro rfl
          obtain ⟨-, j, -, hj, -⟩ := hd
          exact hself (Array.mem_of_getElem? (exists_of_input hj))
        rw [needs_iff hsinks.moves.cfg (hsinks.moves.frame u hum)] at hd
        exact hdom u hu d hd

include hg hbuilt hpinned hs hslots hl hw hdone in
theorem exists_placeLates : ∃ s', w.done.foldlM (placeLate g) w.schedule = .ok s' ∧
    Lowering g c w.schedule w.done [] s' := by
  suffices h : ∀ (rest pre : List NodeId) (s₁ : Schedule), w.done = pre ++ rest →
      Lowering g c w.schedule pre rest s₁ →
      ∃ s', rest.foldlM (placeLate g) s₁ = .ok s' ∧ Lowering g c w.schedule w.done [] s' from
    h w.done [] w.schedule rfl ⟨.refl _ _, rfl, fun _ _ => rfl, by simp⟩
  intro rest
  induction rest with
  | nil =>
    intro pre s₁ heq h
    rw [List.append_nil] at heq
    exact ⟨s₁, rfl, heq ▸ h⟩
  | cons n rest ih =>
    intro pre s₁ heq h
    obtain ⟨s₂, hplace, h₂⟩ := h.step hg hbuilt hpinned hs hslots hl hw hdone heq
    obtain ⟨s', hfold, h'⟩ := ih (pre ++ [n]) s₂ (by rw [heq, List.append_assoc]; rfl) h₂
    exact ⟨s', by rw [List.foldlM_cons, hplace]; exact hfold, h'⟩

include hg hbuilt hpinned hs hslots hl hw hdone in
/-- Once all floating nodes are lowered, inputs dominate their users. -/
theorem Lowering.legal {s₁ : Schedule} (h : Lowering g c w.schedule w.done [] s₁) :
    Legal g s s₁ := by
  have hmoves := hw.moves.trans h.moves
  have hs₁ := hs.moves hmoves
  have hlowered (n : NodeId) (hn : n ∈ g.live) (hfloats : g.floats n) : ∃ e l b,
      Raised g c placed w.schedule n e ∧ Lowered g c s₁ n e l b := by
    have hmem := (hdone n).mpr ⟨hn, hfloats⟩
    obtain ⟨e, he⟩ := hw.raised n hmem
    obtain ⟨e', l, b, he', hlow⟩ := h.lowered n hmem
    obtain rfl := Option.some.inj (he'.symm.trans he.block)
    exact ⟨e', l, b, he, hlow⟩
  have hlt {e l b : BlockId} {n : NodeId} (hlow : Lowered g c s₁ n e l b) : b < c.size :=
    hlow.best.above.lt_size hs.connected hlow.lt_size
  refine ⟨hmoves.cfg, hmoves.dom, fun n hn => hmoves.frame n (by simp [hn]), fun n hn hfloats => ?_,
    fun u hu hregion b hb i j hinput hphi => ?_⟩
  · obtain ⟨e, l, b, -, hlow⟩ := hlowered n hn hfloats
    exact ⟨b, hs.size ▸ hlt hlow, hlow.block⟩
  · have hmem : some i ∈ g.inputs u := Array.mem_of_getElem? (exists_of_input hinput)
    obtain ⟨p, hp⟩ : ∃ p, s₁.neededAt? g u b j = some p := by
      by_cases hfu : g.floats u
      · exact ⟨b, neededAt?_of_floats hfu b j⟩
      · rw [Bool.not_eq_true] at hfu
        rw [hmoves.frame u (by simp [hfu]), ← hl.pinned u hfu] at hb
        obtain ⟨p, -, hp, -⟩ := hl.inputs u hu hregion b hb i j hinput hphi
        rw [neededAt?_of_cfg hl.cfg] at hp
        exact ⟨p, (neededAt?_of_cfg hmoves.cfg ..).trans hp⟩
    by_cases hfi : g.floats i
    · have hi := Graph.live_of_floats hg.verified hu hmem hfi
      obtain ⟨e, l, d, he, hlow⟩ := hlowered i hi hfi
      have hneeds : s₁.Needs g u i p := ⟨b, j, hb, hinput, hphi, hp⟩
      have hpsize := (Schedule.dominates_of_needs hg hbuilt hpinned hs hslots hl hmoves hfi he hu
        (fun hfu => hlowered u hu hfu) hneeds).2
      refine ⟨p, d, hp, hs.size ▸ hpsize, hlow.block, hs.dominates_iff.mpr ?_⟩
      exact hlow.best.above.trans (hlow.needs u hu p hneeds)
    · rw [Bool.not_eq_true] at hfi
      have hsame : s₁.blockOf.get i = s.blockOf.get i := hmoves.frame i (by simp [hfi])
      by_cases hfu : g.floats u
      · obtain ⟨e, l, b', he, hlow⟩ := hlowered u hu hfu
        obtain rfl := Option.some.inj (hb.symm.trans hlow.block)
        rw [neededAt?_of_floats hfu] at hp
        obtain rfl := Option.some.inj hp
        obtain ⟨d, hd, hde⟩ := he.inputs i hmem
        refine ⟨b, d, neededAt?_of_floats hfu b j, hs.size ▸ hlt hlow, ?_, ?_⟩
        · rw [hsame, ← hw.moves.frame i (by simp [hfi])]
          exact hd
        · exact hs.dominates_iff.mpr (hde.trans hlow.best.below)
      · rw [Bool.not_eq_true] at hfu
        rw [hmoves.frame u (by simp [hfu]), ← hl.pinned u hfu] at hb
        obtain ⟨p', d, hp', hlt, hd, hdom⟩ := hl.inputs u hu hregion b hb i j hinput hphi
        rw [neededAt?_of_cfg hl.cfg] at hp'
        rw [hl.pinned i hfi] at hd
        exact ⟨p', d, (neededAt?_of_cfg hmoves.cfg ..).trans hp', hlt, hsame.trans hd, hdom⟩

end Lowering

end Schedule

end SeaNodes
