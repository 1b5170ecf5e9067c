import SeaNodes.Proofs.Graph.Mirrored
import SeaNodes.Proofs.Flow.Reached
import SeaNodes.Proofs.Opt.Gate

namespace SeaNodes

namespace Graph

variable {g : Graph} {n m : NodeId}

/-- How control ends and joins in a graph that was finished. -/
structure Finished (g : Graph) : Prop where
  roots : g.op stop = .stop ∧ g.op deadCtrl = .dead
  returns : ∀ n ∈ g.live, g.op n = .stop → ∀ e ∈ g.inputs n, ∀ r ∈ e, g.op r = .ret
  joins : ∀ n ∈ g.live, (g.op n).isRegion → g.input n 0 = none
  closed : ∀ n ∈ g.live, g.op n ≠ .scope

instance (g : Graph) : Decidable g.Finished :=
  decidable_of_iff ((g.op stop = .stop ∧ g.op deadCtrl = .dead) ∧
      (∀ n ∈ g.live, g.op n = .stop → ∀ e ∈ g.inputs n, ∀ r ∈ e, g.op r = .ret) ∧
      (∀ n ∈ g.live, (g.op n).isRegion → g.input n 0 = none) ∧ ∀ n ∈ g.live, g.op n ≠ .scope)
    ⟨fun ⟨h₁, h₂, h₃, h₄⟩ => ⟨h₁, h₂, h₃, h₄⟩, fun h => ⟨h.roots, h.returns, h.joins, h.closed⟩⟩

theorem WellFormed.live_of_uses (hg : g.WellFormed) (h : g.Uses n m) :
    n ∈ g.live ∧ (m < g.size → m ∈ g.live) := by
  have hn : n ∈ g.live := by
    refine mem_live.mpr ⟨?_, ?_⟩
    · by_contra hbig
      rw [Uses, inputs_of_size_le (Nat.le_of_not_lt hbig)] at h
      exact Array.not_mem_empty _ h
    · by_contra hdead
      rw [Uses, hg.dead_inputs n (Bool.eq_true_of_not_eq_false hdead)] at h
      exact Array.not_mem_empty _ h
  exact ⟨hn, fun hm => mem_live.mpr ⟨hm, ((verify_spec hg.verified hn).1 m h).1⟩⟩

theorem Optimal.uses_of_mem_live (h : g.Optimal) (hg : g.WellFormed) (hs : g.Shaped)
    (hf : g.Finished) (hn : n ∈ g.live) :
    Relation.ReflTransGen g.Uses stop n ∨ n = start ∨ n = deadCtrl := by
  have hnone := h.reached
  unfold unreachable at hnone
  rw [List.filter_eq_nil_iff] at hnone
  have hseen := hnone n hn
  rw [Bool.not_eq_true', Bool.not_eq_false] at hseen
  have hroot {r : NodeId} (hinputs : g.inputs r = #[]) (hpath : Relation.ReflTransGen g.Uses r n) :
      n = r := by
    rcases hpath.cases_head with heq | ⟨m, hm, -⟩
    · exact heq.symm
    · rw [Uses, hinputs] at hm
      exact absurd hm (Array.not_mem_empty _)
  rcases exists_uses_of_reachable _ _ _ hseen with hempty | ⟨m, hm, hpath⟩
  · rw [BitSet.contains_withCapacity] at hempty
    exact nomatch hempty
  · simp only [List.mem_cons, List.not_mem_nil, or_false] at hm
    rcases hm with rfl | rfl | rfl
    · exact .inl hpath
    · exact .inr (.inl (hroot hg.start_inputs hpath))
    · by_cases hdead : g.isDead deadCtrl
      · exact .inr (.inr (hroot (hg.dead_inputs _ hdead) hpath))
      · by_cases hlt : deadCtrl < g.size
        · refine .inr (.inr (hroot (hs.root _ (mem_live.mpr ⟨hlt, ?_⟩) (.inr hf.roots.2)) hpath))
          exact Bool.eq_false_of_not_eq_true hdead
        · exact .inr (.inr (hroot (inputs_of_size_le (Nat.le_of_not_lt hlt)) hpath))

theorem Optimal.exists_return (h : g.Optimal) (hg : g.WellFormed) (hf : g.Finished)
    (hreturns : (g.inputs stop).isEmpty = false) :
    ∃ r ∈ g.live, g.Uses stop r ∧ g.op r = .ret := by
  obtain ⟨e, he⟩ : ∃ e, e ∈ g.inputs stop := by
    rw [Array.isEmpty_eq_false_iff] at hreturns
    exact Array.exists_mem_of_ne_empty _ hreturns
  have hstop : stop ∈ g.live := by
    refine mem_live.mpr ⟨?_, ?_⟩
    · by_contra hbig
      rw [inputs_of_size_le (Nat.le_of_not_lt hbig)] at he
      exact Array.not_mem_empty _ he
    · by_contra hdead
      rw [hg.dead_inputs stop (Bool.eq_true_of_not_eq_false hdead)] at he
      exact Array.not_mem_empty _ he
  have hty := (h.unimproved stop hstop (by simp [hf.roots.1])).ty_of_mem_stop hf.roots.1 he
  cases e with
  | none => exact nomatch hty
  | some r =>
    have hop := hf.returns stop hstop hf.roots.1 _ he r rfl
    exact ⟨r, (hg.live_of_uses he).2 (lt_size_of_op_ne (by simp [hop])), he, hop⟩

end Graph

namespace Cfg

variable {g : Graph} {c : Cfg} {a b p : BlockId} {rest : List BlockId}

/-- A walk from the entry to a return goes through block `b`. -/
def Returns (g : Graph) (c : Cfg) (b : BlockId) : Prop :=
  ∃ walk d t, c.Walk (d :: walk) ∧ b ∈ d :: walk ∧ (c.block d).terminator = some t ∧ g.op t = .ret

theorem Returns.of_dominates (h : Returns g c b) (hdom : c.Dominates a b) : Returns g c a := by
  obtain ⟨walk, d, t, hwalk, hb, ht, hop⟩ := h
  obtain ⟨pre, post, heq, hpost⟩ := hwalk.exists_of_mem hb
  refine ⟨walk, d, t, hwalk, ?_, ht, hop⟩
  rw [heq]
  exact List.mem_append_right pre (hdom post hpost)

theorem Returns.of_pred (h : Returns g c b) (hp : p ∈ (c.block b).preds)
    (hwalk : c.Walk (p :: rest)) : Returns g c p := by
  obtain ⟨walk, d, t, hd, hb, ht, hop⟩ := h
  obtain ⟨pre, post, heq, -⟩ := hd.exists_of_mem hb
  rw [heq] at hd
  have hnew := hd.replace pre (hwalk.step hp)
  cases pre with
  | nil =>
    obtain ⟨rfl, -⟩ := List.cons.inj heq
    exact ⟨p :: rest, d, t, hnew, by simp, ht, hop⟩
  | cons x pre =>
    obtain ⟨rfl, -⟩ := List.cons.inj heq
    exact ⟨pre ++ b :: p :: rest, d, t, hnew, by simp, ht, hop⟩

theorem Built.terminator_of_ret (h : Built g c) {t : NodeId} (ht : t ∈ (c.block b).ctrl)
    (hop : g.op t = .ret) : (c.block b).terminator = some t := by
  have hlast : (c.block b).ctrl.getLast? = some t := by
    obtain ⟨pre, post, hsplit⟩ := List.append_of_mem ht
    cases post with
    | nil => rw [hsplit, List.getLast?_append_cons, List.getLast?_singleton]
    | cons y post =>
      have hlinked := h.chained.linked b
      rw [hsplit] at hlinked
      exact absurd hop (List.isChain_append_cons_cons.mp hlinked).2.1.not_ret
  obtain ⟨n, hn, hends⟩ := h.followed b (lt_of_mem_ctrl ht)
  obtain rfl := Option.some.inj (hlast.symm.trans hn)
  generalize (c.block b).terminator = e at hends
  cases hends with
  | ret => rfl
  | fork hfork => exact absurd (hop.symm.trans hfork) nofun
  | jump _ hret => exact absurd hop hret

end Cfg

namespace Schedule

variable {g : Graph} {s : Schedule} {n u : NodeId} {b d : BlockId}

namespace Covers

theorem blockOf_of_mem_ctrl (h : s.Covers g) (hg : g.WellFormed) (hshape : g.Shaped)
    (hn : n ∈ (s.cfg.block b).ctrl) : s.blockOf.get n = some b := by
  have hlive := h.built.chained.live b n hn
  have hop : (g.op n).isCfg ∧ g.op n ≠ .stop ∧ g.op n ≠ .dead := by
    rcases h.built.chained.head_or_continues hn with hhead | ⟨_, x, _, -, hcont⟩
    · have hstarts := h.built.chained.starts b (Cfg.lt_of_mem_ctrl hn)
      exact (hhead ▸ hstarts).isCfg hg
    · refine ⟨hcont.isCfg, hcont.not_stop, fun hdead => ?_⟩
      have hinput := hcont.input
      rw [Graph.input_eq_none_of_inputs (hshape.root n hlive (.inr hdead))] at hinput
      exact nomatch hinput
  rw [(h.pinned.ctrl n hlive hop.1 hop.2.1 hop.2.2).2]
  exact (h.built.chained.blockOf n b).mpr hn

/-- What the stop node uses is on the way to a return. -/
theorem returns_of_uses (h : s.Covers g)
    (hfloats : ∀ n ∈ g.live, g.floats n → (s.blockOf.get n).isSome) (hg : g.WellFormed)
    (hshape : g.Shaped) (hf : g.Finished)
    (hwalks : ∀ b < s.cfg.size, ∃ rest, s.cfg.Walk (b :: rest))
    (hpath : Relation.TransGen g.Uses Graph.stop n) (hb : s.blockOf.get n = some b) :
    Cfg.Returns g s.cfg b := by
  have hret {u m : NodeId} {d : BlockId} (hop : g.op u = .stop) (hm : g.Uses u m)
      (hd : s.blockOf.get m = some d) : Cfg.Returns g s.cfg d := by
    have hmret := hf.returns u (hg.live_of_uses hm).1 hop _ hm m rfl
    have hmlt : m < g.size := Graph.lt_size_of_op_ne (by simp [hmret])
    have hmem := h.mem_ctrl_of_isCfg ((hg.live_of_uses hm).2 hmlt) (by rw [hmret]; rfl)
      (by simp [hmret]) (by simp [hmret]) hd
    obtain ⟨walk, hwalk⟩ := hwalks d (Cfg.lt_of_mem_ctrl hmem)
    exact ⟨walk, d, m, hwalk, List.mem_cons_self, h.built.terminator_of_ret hmem hmret, hmret⟩
  induction hpath generalizing b with
  | single hm => exact hret hf.roots.1 hm hb
  | @tail u m _ hm ih =>
    obtain ⟨hulive, -⟩ := hg.live_of_uses hm
    by_cases hstop : g.op u = .stop
    · exact hret hstop hm hb
    have hdead : g.op u ≠ .dead := by
      intro hdead
      rw [Graph.Uses, hshape.root u hulive (.inr hdead)] at hm
      exact Array.not_mem_empty _ hm
    obtain ⟨d, hd⟩ := Option.isSome_iff_exists.mp
      (h.isSome_blockOf hfloats hulive hstop hdead (hf.closed u hulive))
    have hreturns := ih hd
    obtain ⟨j, hj⟩ := Array.getElem?_of_mem hm
    have hinput : g.input u j = some m := by
      rw [Graph.input_eq_getElem?, hj]
      rfl
    by_cases hregion : (g.op u).isRegion
    · have humem := h.mem_ctrl_of_isCfg hulive (Op.isCfg_of_isRegion hregion).1 hstop hdead hd
      have hdlt := Cfg.lt_of_mem_ctrl humem
      obtain rfl := h.built.head_of_region hregion ((h.built.chained.blockOf u d).mpr humem)
      cases j with
      | zero => cases (hf.joins _ hulive hregion).symm.trans hinput
      | succ j =>
        obtain ⟨p, hp, hblock⟩ := Except.exists_of_getElem?_mapM
          (h.built.preds_of_region hdlt hregion) (x := some m) (j := j) (by
            rw [List.getElem?_drop, Array.getElem?_toList, Nat.add_comm, hj])
        split at hblock
        case h_2 => cases hblock
        case h_1 q hq =>
          obtain rfl := Except.ok.inj hblock
          have hmmem := (h.built.chained.blockOf m q).mp hq
          obtain rfl := Option.some.inj
            (hb.symm.trans (h.blockOf_of_mem_ctrl hg hshape hmmem))
          obtain ⟨walk, hwalk⟩ := hwalks b (Cfg.lt_of_mem_ctrl hmmem)
          exact hreturns.of_pred (List.mem_of_getElem? hp) hwalk
    · rw [Bool.not_eq_true] at hregion
      by_cases hphi : g.op u = .phi
      · have hdata := h.pinned.data u hulive (by rw [hphi]; rfl) (floats_of_phi hphi)
        rw [hd] at hdata
        simp only [dataBlock?, hphi] at hdata
        obtain ⟨r, hr, hrmem⟩ := h.ctrl_of_pinnedBlock hdata
        obtain ⟨r', hr', hrregion⟩ := hshape.phisOnRegions u hulive hphi
        obtain rfl := Option.some.inj (hr.symm.trans hr')
        cases j with
        | zero =>
          obtain rfl := Option.some.inj (hinput.symm.trans hr)
          obtain rfl := Option.some.inj (hb.symm.trans (h.blockOf_of_mem_ctrl hg hshape hrmem))
          exact hreturns
        | succ j =>
          obtain ⟨p, hp, hdom⟩ := dominates_of_verify h.runnable.verify hulive hd hregion hinput
            (fun h => by cases h.2) hb
          rw [neededAt?, if_pos hphi] at hp
          obtain rfl := h.built.head_of_region hrregion ((h.built.chained.blockOf r d).mpr hrmem)
          obtain ⟨x, -, hx⟩ := h.built.input_of_pred (Cfg.lt_of_mem_ctrl hrmem) hrregion hp
          obtain ⟨walk, hwalk⟩ := hwalks p (Cfg.lt_of_mem_ctrl hx)
          exact (hreturns.of_pred (List.mem_of_getElem? hp) hwalk).of_dominates
            (h.runnable.dom b p hdom)
      · obtain ⟨p, hp, hdom⟩ := dominates_of_verify h.runnable.verify hulive hd hregion hinput
          (fun h => hphi h.1) hb
        rw [neededAt?, if_neg hphi, Option.some.injEq] at hp
        exact hreturns.of_dominates (h.runnable.dom b d (hp ▸ hdom))

end Covers

end Schedule

/-- A way to a return leads through every block of an accepted function. -/
theorem returns_of_accepted {p : Program} {cfg : OptConfig} {fs : List Scheduled} {ctx : Context}
    (hp : p.schedule cfg = .ok (fs, ctx)) {f : Scheduled} (hf : f ∈ fs) (hg : f.graph.WellFormed)
    (hshape : f.graph.Shaped) (hfinished : f.graph.Finished)
    (hverify : f.schedule.verify f.graph = .ok ()) {b : BlockId} (hb : b < f.schedule.cfg.size) :
    ∃ walk d t, f.schedule.cfg.Walk (d :: walk) ∧ b ∈ d :: walk ∧
      (f.schedule.cfg.block d).terminator = some t ∧ f.graph.op t = .ret := by
  have haccepted := Program.accepted_of_schedule hp hf
  obtain ⟨ctx', name, hcheck⟩ := haccepted.checked
  have hcovers := Schedule.covers_of_schedule hg haccepted.schedule hverify
  obtain ⟨c, hc, hof⟩ := Schedule.ofGraph_of_schedule haccepted.schedule
  obtain ⟨loops, hloops⟩ := hof.cfg
  have hwalks (d : BlockId) (hd : d < f.schedule.cfg.size) :
      ∃ rest, f.schedule.cfg.Walk (d :: rest) := by
    refine hcovers.built.exists_walk hg ?_ (.of_none hfinished.joins) hd
    rw [hloops]
    exact (Cfg.found_of_ofGraph hg hc).setLoopDepths loops
  have huses {n : NodeId} {d : BlockId}
      (hpath : Relation.TransGen f.graph.Uses Graph.stop n) (hd : f.schedule.blockOf.get n = some d) :=
    hcovers.returns_of_uses hof.floats hg hshape hfinished hwalks hpath hd
  have hhead : (f.schedule.cfg.block b).head ∈ (f.schedule.cfg.block b).ctrl := by
    refine List.mem_of_mem_head? ?_
    rw [hcovers.built.chained.head b hb]
    exact rfl
  have hlive := hcovers.built.chained.live b _ hhead
  have hplaced := hcovers.blockOf_of_mem_ctrl hg hshape hhead
  obtain ⟨-, hstop, hdead⟩ := (hcovers.built.chained.starts b hb).isCfg hg
  rcases haccepted.optimal.uses_of_mem_live hg hshape hfinished hlive with hpath | hstart | hmarker
  · rcases Relation.reflTransGen_iff_eq_or_transGen.mp hpath with heq | hpath
    · exact absurd (heq ▸ hfinished.roots.1) hstop
    · exact huses hpath hplaced
  · -- every walk comes from the entry, and there is one to a return
    obtain ⟨r, hr, huse, hret⟩ := haccepted.optimal.exists_return hg hfinished
      (Graph.nodeFault?_of_typeCheck hcheck).1
    obtain ⟨d, hd⟩ := Option.isSome_iff_exists.mp (hcovers.isSome_blockOf hof.floats hr
      (by simp [hret]) (by simp [hret]) (by simp [hret]))
    obtain ⟨walk, e, t, hwalk, -, ht, hop⟩ := huses (.single huse) hd
    have hentry : b = Cfg.entry := by
      have hblock := (hcovers.built.chained.blockOf _ b).mpr hhead
      rw [hstart] at hblock
      exact Option.some.inj (hblock.symm.trans hcovers.built.chained.start)
    exact ⟨walk, e, t, hwalk, hentry ▸ hwalk.entry_mem, ht, hop⟩
  · exact absurd (hmarker ▸ hfinished.roots.2) hdead

def countDown : Program where
  functions := [{
    name := "f", params := [("n", .int)], ret := .int
    body := [.loop (.var "n") [.assign "n" (.binary .sub (.var "n") (.int 1))], .ret (.var "n")] }]

/-- From the body of the loop control comes to the return. -/
theorem countDown_returns : ∃ (f : Scheduled) (ctx : Context),
    countDown.schedule {} = .ok ([f], ctx) ∧
    (f.graph.WellFormed ∧ f.graph.Shaped ∧ f.graph.Finished ∧
      f.schedule.verify f.graph = .ok () ∧ 2 < f.schedule.cfg.size) ∧
    ∃ walk d t, f.schedule.cfg.Walk (d :: walk) ∧ 2 ∈ d :: walk ∧
      (f.schedule.cfg.block d).terminator = some t ∧ f.graph.op t = .ret := by
  obtain ⟨⟨fs, ctx⟩, hp, hlength, hall⟩ := Except.exists_of_any (x := countDown.schedule {})
    (p := fun p => p.1.length = 1 ∧ ∀ f ∈ p.1, f.graph.WellFormed ∧ f.graph.Shaped ∧
      f.graph.Finished ∧ f.schedule.verify f.graph = .ok () ∧ 2 < f.schedule.cfg.size)
    (by decide +kernel)
  obtain ⟨f, rfl⟩ := List.length_eq_one_iff.mp hlength
  have hf := hall f (List.mem_singleton_self f)
  obtain ⟨hg, hshape, hfinished, hverify, hb⟩ := id hf
  exact ⟨f, ctx, hp, hf, returns_of_accepted hp (List.mem_singleton_self f) hg hshape hfinished
    hverify hb⟩

/-- Loops forever if the argument is not zero. -/
def loopForever : Program where
  functions := [{
    name := "f", params := [("n", .int)], ret := .int
    body := [.branch (.var "n") [.loop (.int 1) []] [], .ret (.int 0)] }]

/-- A loop without an exit is reported as a defect of the compiler. -/
theorem loopForever_internal : (loopForever.schedule {}).map (fun _ => ()) =
    .error (.internal .schedule (some (some 6)) .missingProjection) := by
  decide +kernel

end SeaNodes
