import SeaNodes.Proofs.Schedule.Late

namespace SeaNodes

namespace Schedule

variable {g : Graph} {c : Cfg} {s s' : Schedule} {n : NodeId}

/-- A legal placement inside the bounds passes the check. -/
theorem Legal.placeFlaw?_eq_none (hs : s.Over c) (h : Legal g s s') (hn : n ∈ g.live)
    (hbounds : g.floats n → ∀ b, s'.blockOf.get n = some b → ∃ e l, s'.early.get n = some e ∧
      s'.late.get n = some l ∧ s'.dom.dominates e b ∧ s'.dom.dominates b l) :
    s'.placeFlaw? g n = none := by
  cases hb : s'.blockOf.get n with
  | none => simp [placeFlaw?, hb]
  | some b =>
    by_cases hregion : (g.op n).isRegion
    · simp [placeFlaw?, hb, hregion, guard]
    rw [Bool.not_eq_true] at hregion
    simp only [placeFlaw?, hb, hregion, Bool.not_false, guard_true, Option.pure_def,
      Option.bind_eq_bind, Option.bind_some, Option.or_eq_none_iff, List.findSome?_eq_none_iff]
    constructor
    · rintro ⟨e, j⟩ hmem
      rw [List.mem_zipIdx_iff_getElem?, Array.getElem?_toList] at hmem
      cases e with
      | none => rfl
      | some i =>
        have hinput : g.input n j = some i := by
          rw [Graph.input_eq_getElem?, hmem]
          rfl
        by_cases hphi : g.op n = .phi ∧ j = 0
        · simp [inputFlaw?, hphi.1, hphi.2, guard]
        obtain ⟨p, d, hp, hlt, hd, hdom⟩ := h.inputs n hn hregion b hb i j hinput hphi
        have htree : s'.dom.dominates d p := by
          rw [h.dom, hs.tells.dominates_iff (hs.size ▸ hlt)]
          exact hs.dominates_iff.mp hdom
        have hguard : (!(g.op n == .phi && j == 0)) = true := by simpa [← not_and_or] using hphi
        simp only [inputFlaw?, hguard, guard_true, hd, hp, htree, Option.pure_def,
          Option.bind_eq_bind, Option.bind_some, if_true]
    · unfold boundsFlaw?
      by_cases hop : (g.op n).isFloating
      · have hfloats : g.floats n := by
          unfold Graph.floats
          split
          · rename_i heq
            simp [heq, Op.isFloating] at hop
          · exact hop
        obtain ⟨e, l, he, hl, hel, hbl⟩ := hbounds hfloats b hb
        simp [he, hl, hel, hbl]
      · simp [hop]

/-- If the floating nodes can be placed so that inputs dominate their users, they are placed so,
each between its bounds in the block of least loop depth that is nearest to the lower one. -/
theorem placeAll_best (hg : g.WellFormed) (hjoins : g.JoinsLater) (hc : Cfg.ofGraph g = .ok c)
    (hslots : ∀ r ∈ g.live, (g.op r).isRegion → ∀ x ∈ g.input r 0, g.floats x = false)
    (hapart : g.FloatsApart) :
    ∃ dom, c.domTree = .ok dom ∧ ∀ s placed, pin g (unplaced c dom) = .ok s → Legal g s placed →
      ∃ s', placeAll g (unplaced c dom) = .ok s' ∧ Legal g s s' ∧
        (∀ n ∈ g.live, s'.placeFlaw? g n = none) ∧
        ∀ n ∈ g.live, g.floats n → ∃ e l b, s'.early.get n = some e ∧ s'.late.get n = some l ∧
          s'.blockOf.get n = some b ∧ s'.dom.dominates e b ∧ s'.dom.dominates b l ∧
          ∀ d, s'.dom.dominates e d → s'.dom.dominates d l → s'.loopDepth b ≤ s'.loopDepth d ∧
            (s'.loopDepth d = s'.loopDepth b → s'.dom.dominates d b) := by
  have hbuilt₀ := Cfg.built_of_ofGraph hg hc
  have hfound := Cfg.found_of_ofGraph hg hc
  obtain ⟨dom, hdom, htells⟩ := DomTree.exists_tells (Cfg.numbered_of_ofGraph hg hjoins hc)
    (fun b hb => hbuilt₀.exists_walk hg hfound hjoins hb) fun b p => hbuilt₀.pred_lt
  refine ⟨dom, DomTree.domTree_eq_ok.mpr hdom, fun s placed hpin hl => ?_⟩
  obtain ⟨hmoves, hpinned⟩ := pinned_pin (s := unplaced c dom) (fun _ => rfl) hpin
  have hs : s.Over c := by
    refine ⟨⟨LoopForest.ofCfg c dom, hmoves.cfg⟩, ?_⟩
    rw [hmoves.dom]
    exact htells
  have hbuilt : s.cfg.Built g := by
    rw [hmoves.cfg]
    exact hbuilt₀.setLoopDepths _
  obtain ⟨w, hw, hsound, hdone⟩ := exists_visitAll hg.verified hs hl hapart
  obtain ⟨s', hfold, hlow⟩ := exists_placeLates hg hbuilt hpinned hs hslots hl hsound hdone
  have hlegal := hlow.legal hg hbuilt hpinned hs hslots hl hsound hdone
  have hs' := hs.moves (hsound.moves.trans hlow.moves)
  have hbest (n : NodeId) (hn : n ∈ g.live) (hfloats : g.floats n) : ∃ e l b,
      s'.early.get n = some e ∧ s'.late.get n = some l ∧ s'.blockOf.get n = some b ∧
        s'.dom.dominates e b ∧ s'.dom.dominates b l ∧
        ∀ d, s'.dom.dominates e d → s'.dom.dominates d l → s'.loopDepth b ≤ s'.loopDepth d ∧
          (s'.loopDepth d = s'.loopDepth b → s'.dom.dominates d b) := by
    obtain ⟨e, l, b, -, h⟩ := hlow.lowered n ((hdone n).mpr ⟨hn, hfloats⟩)
    have hb := h.best.above.lt_size hs.connected h.lt_size
    refine ⟨e, l, b, h.early, h.late, h.block, (hs'.tells.dominates_iff hb).mpr h.best.below,
      (hs'.tells.dominates_iff h.lt_size).mpr h.best.above, fun d hed hdl => ?_⟩
    have hdl := (hs'.tells.dominates_iff h.lt_size).mp hdl
    have hed := (hs'.tells.dominates_iff (hdl.lt_size hs.connected h.lt_size)).mp hed
    obtain ⟨hle, hnear⟩ := h.best.best d hed hdl
    exact ⟨hle, fun heq => (hs'.tells.dominates_iff hb).mpr (hnear heq)⟩
  refine ⟨s', ?_, hlegal, fun n hn => hlegal.placeFlaw?_eq_none hs hn fun hfloats b hb => ?_, hbest⟩
  · unfold placeAll
    rw [hpin]
    show (g.live.foldlM (visitEarly g (g.size + 1)) { schedule := s } >>= fun w =>
      w.done.foldlM (placeLate g) w.schedule) = _
    rw [hw]
    exact hfold
  · obtain ⟨e, l, b', he, hl', hb', heb, hbl, -⟩ := hbest n hn hfloats
    obtain rfl := Option.some.inj (hb.symm.trans hb')
    exact ⟨e, l, he, hl', heb, hbl⟩

theorem floatsApart_of_lt (h : ∀ n ∈ g.live, g.floats n →
    ∀ m ∈ (g.inputs n).toList.reduceOption, g.floats m → m < n) : g.FloatsApart := by
  have hstep (n m : NodeId) (hnm : g.FloatsOn n m) : m < n := by
    obtain ⟨hn, hfn, hfm, hm⟩ := hnm
    exact h n hn hfn m (List.reduceOption_mem_iff.mpr (Array.mem_toList_iff.mpr hm)) hfm
  have hlt (n m : NodeId) (hnm : Relation.TransGen g.FloatsOn n m) : m < n := by
    induction hnm with
    | single hnm => exact hstep _ _ hnm
    | tail _ hnm ih => exact (hstep _ _ hnm).trans ih
  exact fun n hn => (hlt n n hn).false

def InputsKnown (s : Schedule) (g : Graph) : Prop :=
  (∀ n ∈ g.live, g.floats n → (s.blockOf.get n).any (· < s.cfg.size)) ∧
    ∀ u ∈ g.live, (g.op u).isRegion = false → ∀ b ∈ s.blockOf.get u,
      ∀ j < (g.inputs u).size, ∀ i ∈ g.input u j, ¬ (g.op u = .phi ∧ j = 0) →
        (s.neededAt? g u b j).any fun p =>
          p < s.cfg.size ∧ (s.blockOf.get i).any (· ∈ s.dom.dominators p)

instance (s : Schedule) (g : Graph) : Decidable (s.InputsKnown g) :=
  inferInstanceAs (Decidable (_ ∧ _))

/-- Ancestors dominate, so inputs that are known in ancestors make a placement legal. -/
theorem legal_of_moves {dom : DomTree} (hg : g.WellFormed) (hc : Cfg.ofGraph g = .ok c)
    (hdom : c.domTree = .ok dom) (hpin : pin g (unplaced c dom) = .ok s)
    (hmoves : Moves (fun n => g.floats n) s s') (h : s'.InputsKnown g) : Legal g s s' := by
  obtain ⟨hpinned, -⟩ := pinned_pin (s := unplaced c dom) (fun _ => rfl) hpin
  refine ⟨hmoves.cfg, hmoves.dom, fun n hn => hmoves.frame n (by simp [hn]), fun n hn hfloats => ?_,
    fun u hu hregion b hb i j hinput hphi => ?_⟩
  · obtain ⟨b, hb, hlt⟩ := (Option.any_eq_true _ _).mp (h.1 n hn hfloats)
    rw [hmoves.cfg] at hlt
    exact ⟨b, by simpa using hlt, hb⟩
  · have hj : j < (g.inputs u).size := by
      by_contra hbig
      rw [Graph.input_eq_getElem?, Array.getElem?_eq_none (Nat.le_of_not_lt hbig)] at hinput
      cases hinput
    obtain ⟨p, hp, hknown⟩ :=
      (Option.any_eq_true _ _).mp (h.2 u hu hregion b hb j hj i hinput hphi)
    obtain ⟨hlt, hany⟩ := of_decide_eq_true hknown
    obtain ⟨d, hd, hmem⟩ := (Option.any_eq_true _ _).mp hany
    rw [hmoves.cfg] at hlt
    refine ⟨p, d, hp, hlt, hd, ?_⟩
    rw [hmoves.dom, hpinned.dom] at hmem
    rw [hpinned.cfg]
    have hrpo (b : BlockId) (hb : b < c.size) : b ∈ c.rpo := (Cfg.mem_rpo_of_ofGraph hg hc).mpr hb
    exact (DomTree.dominates_of_mem_dominators (DomTree.domTree_eq_ok.mp hdom) hrpo
      (of_decide_eq_true hmem)).of_preds fun b => (c.preds_setLoopDepths _ b).symm

def placeEach (s : Schedule) (ps : List (NodeId × BlockId)) : Schedule :=
  ps.foldl (fun s (n, b) => s.place n b) s

theorem moves_placeEach (s : Schedule) {ps : List (NodeId × BlockId)}
    (h : ∀ p ∈ ps, g.floats p.1) : Moves (fun n => g.floats n) s (s.placeEach ps) := by
  induction ps generalizing s with
  | nil => exact .refl _ s
  | cons p ps ih =>
    obtain ⟨hp, hps⟩ := List.forall_mem_cons.mp h
    exact ((s.moves_place p.1 p.2).mono fun m hm => hm ▸ hp).trans (ih _ hps)

/-- Adds the product of the last two arguments to a counter while it is below the first. -/
def invariantLoop : Graph :=
  let (bound, g) := Graph.empty.add (.param 0) #[some Graph.start] .anyInt
  let (x, g) := g.add (.param 1) #[some Graph.start] .anyInt
  let (y, g) := g.add (.param 2) #[some Graph.start] .anyInt
  let (first, g) := g.const (.ofInt 0)
  let (loop, g) := g.add .loop #[none, some Graph.start]
  let (count, g) := g.add .phi #[some loop, some first] .anyInt
  let (below, g) := g.add (.cmp .lt) #[none, some count, some bound]
  let (fork, g) := g.add .fork #[some loop, some below]
  let (again, g) := g.add (.ctrlProj 0) #[some fork]
  let (done, g) := g.add (.ctrlProj 1) #[some fork]
  let (product, g) := g.add (.arith .mul) #[none, some x, some y]
  let (next, g) := g.add (.arith .add) #[none, some count, some product]
  let (ret, g) := g.add .ret #[some done, none, some count]
  ((g.pushInput loop (some again)).pushInput count (some next)).pushInput Graph.stop (some ret)

/-- With the product in the loop the placement is legal. The best one has it at the entry. -/
theorem placeAll_best_invariantLoop : ∃ c dom s placed s', Cfg.ofGraph invariantLoop = .ok c ∧
    c.domTree = .ok dom ∧ pin invariantLoop (unplaced c dom) = .ok s ∧
    Legal invariantLoop s placed ∧ placed.blockOf.get 13 = some 2 ∧
    placeAll invariantLoop (unplaced c dom) = .ok s' ∧ Legal invariantLoop s s' ∧
    s'.blockOf.get 13 = some 0 := by
  obtain ⟨c, hc, htrees⟩ := Except.exists_of_any (x := Cfg.ofGraph invariantLoop)
    (p := fun c => c.domTree.toOption.any fun dom =>
      (pin invariantLoop (unplaced c dom)).toOption.any fun s =>
        let placed := s.placeEach [(6, 0), (9, 1), (13, 2), (14, 2)]
        placed.InputsKnown invariantLoop ∧ placed.blockOf.get 13 = some 2 ∧
          (placeAll invariantLoop (unplaced c dom)).toOption.any (·.blockOf.get 13 = some 0))
    (by decide +kernel)
  have hg : invariantLoop.WellFormed ∧ invariantLoop.JoinsLater := by decide +kernel
  obtain ⟨dom, hdom, hall⟩ := placeAll_best hg.1 hg.2 hc (by decide +kernel)
    (floatsApart_of_lt (by decide +kernel))
  rw [hdom, Except.toOption, Option.any_some] at htrees
  obtain ⟨s, hpin, hknown, hblock, hbest⟩ := Except.exists_of_any htrees
  have hlegal := legal_of_moves hg.1 hc hdom hpin
    (moves_placeEach s (by decide +kernel)) hknown
  obtain ⟨s', hs', hlegal', -, -⟩ := hall s _ hpin hlegal
  rw [hs'] at hbest
  exact ⟨c, dom, s, _, s', hc, hdom, hpin, hlegal, hblock, hs', hlegal', of_decide_eq_true hbest⟩

/-- A sum on the true side of a branch, which nothing uses but the region at its unused input. -/
def sumAtRegion : Graph :=
  let (x, g) := Graph.empty.add (.param 0) #[some Graph.start] .anyInt
  let (fork, g) := g.add .fork #[some Graph.start, some x]
  let (onTrue, g) := g.add (.ctrlProj 0) #[some fork]
  let (onFalse, g) := g.add (.ctrlProj 1) #[some fork]
  let (cast, g) := g.add .cast #[some onTrue, some x] .anyInt
  let (sum, g) := g.add (.arith .add) #[none, some cast, some cast]
  let (region, g) := g.add .region #[some sum, some onTrue, some onFalse]
  let (ret, g) := g.add .ret #[some region, none, some x]
  g.pushInput Graph.stop (some ret)

/-- A loop whose back edge goes over a region that has a side of the first branch at its unused
input. -/
def joinsEarly : Graph :=
  let (x, g) := Graph.empty.add (.param 0) #[some Graph.start] .anyInt
  let (fork, g) := g.add .fork #[some Graph.start, some x]
  let (onTrue, g) := g.add (.ctrlProj 0) #[some fork]
  let (onFalse, g) := g.add (.ctrlProj 1) #[some fork]
  let (entered, g) := g.add .region #[none, none, some onTrue]
  let (count, g) := g.add .phi #[some entered, none, some x] .anyInt
  let (fork, g) := g.add .fork #[some entered, some count]
  let (again, g) := g.add (.ctrlProj 0) #[some fork]
  let (done, g) := g.add (.ctrlProj 1) #[some fork]
  let (next, g) := g.add (.arith .add) #[none, some count, some x]
  let (back, g) := g.add .region #[some onFalse, some again]
  let (ret, g) := g.add .ret #[some done, none, some count]
  ((g.setInput entered 1 (some back)).setInput count 1 (some next)).pushInput Graph.stop (some ret)

/-- The sum can be on the true side, but its lowest block is taken to be that of the region. The
counter can go up at the back edge, but that block gets its depth before the block above it does, and
the check takes its inputs for blocks of another path. -/
theorem legal_not_placed :
    (∃ c dom s placed, sumAtRegion.WellFormed ∧ sumAtRegion.FloatsApart ∧
      Cfg.ofGraph sumAtRegion = .ok c ∧ c.domTree = .ok dom ∧
      pin sumAtRegion (unplaced c dom) = .ok s ∧ Legal sumAtRegion s placed ∧
      (placeAll sumAtRegion (unplaced c dom)).map (fun _ => ()) =
        .error (.internal .schedule (some (some 8)) (.earlyBelowLate 1 3))) ∧
    ∃ c dom s placed s', joinsEarly.WellFormed ∧ joinsEarly.FloatsApart ∧
      (∀ r ∈ joinsEarly.live, (joinsEarly.op r).isRegion →
        ∀ x ∈ joinsEarly.input r 0, joinsEarly.floats x = false) ∧
      Cfg.ofGraph joinsEarly = .ok c ∧ c.domTree = .ok dom ∧
      pin joinsEarly (unplaced c dom) = .ok s ∧ Legal joinsEarly s placed ∧
      placeAll joinsEarly (unplaced c dom) = .ok s' ∧ 12 ∈ joinsEarly.live ∧
      s'.placeFlaw? joinsEarly 12 ≠ none := by
  constructor
  · obtain ⟨c, hc, htrees⟩ := Except.exists_of_any (x := Cfg.ofGraph sumAtRegion)
      (p := fun c => c.domTree.toOption.any fun dom =>
        (pin sumAtRegion (unplaced c dom)).toOption.any fun s =>
          (s.placeEach [(8, 1)]).InputsKnown sumAtRegion ∧
            (placeAll sumAtRegion (unplaced c dom)).map (fun _ => ()) =
              .error (.internal .schedule (some (some 8)) (.earlyBelowLate 1 3)))
      (by decide +kernel)
    obtain ⟨dom, hdom, hpins⟩ := Except.exists_of_any_toOption htrees
    obtain ⟨s, hpin, hknown, hfails⟩ := Except.exists_of_any hpins
    have hg : sumAtRegion.WellFormed := by decide +kernel
    exact ⟨c, dom, s, _, hg, floatsApart_of_lt (by decide +kernel), hc, hdom, hpin,
      legal_of_moves hg hc hdom hpin (moves_placeEach s (by decide +kernel)) hknown, hfails⟩
  · obtain ⟨c, hc, htrees⟩ := Except.exists_of_any (x := Cfg.ofGraph joinsEarly)
      (p := fun c => c.domTree.toOption.any fun dom =>
        (pin joinsEarly (unplaced c dom)).toOption.any fun s =>
          (s.placeEach [(12, 3)]).InputsKnown joinsEarly ∧
            (placeAll joinsEarly (unplaced c dom)).toOption.any fun s' =>
              s'.placeFlaw? joinsEarly 12 ≠ none)
      (by decide +kernel)
    obtain ⟨dom, hdom, hpins⟩ := Except.exists_of_any_toOption htrees
    obtain ⟨s, hpin, hknown, hplaced⟩ := Except.exists_of_any hpins
    obtain ⟨s', hs', hflaw⟩ := Except.exists_of_any_toOption hplaced
    have hg : joinsEarly.WellFormed := by decide +kernel
    exact ⟨c, dom, s, _, s', hg, floatsApart_of_lt (by decide +kernel), by decide +kernel, hc, hdom,
      hpin, legal_of_moves hg hc hdom hpin (moves_placeEach s (by decide +kernel)) hknown, hs',
      by decide +kernel, of_decide_eq_true hflaw⟩

end Schedule

end SeaNodes
