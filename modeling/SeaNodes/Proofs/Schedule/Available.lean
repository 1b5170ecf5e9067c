import SeaNodes.Proofs.Eval.Points
import SeaNodes.Proofs.Flow.Edges
import SeaNodes.Proofs.Opt.Shape
import SeaNodes.Proofs.Schedule.CodeMotion

namespace SeaNodes

namespace Schedule

variable {g : Graph} {s s' : Schedule} {a a' : Activation} {n i c : NodeId} {b d : BlockId}
  {pre post : List NodeId} {v : Value}

/-- A schedule that can be run over the blocks of a graph, in which what hangs on control is where
its control is. -/
structure Covers (s : Schedule) (g : Graph) : Prop where
  runnable : s.Runnable g
  built : s.cfg.Built g
  pinned : s.Pinned g

theorem covers_of_schedule (hg : g.WellFormed) (hs : g.schedule = .ok s)
    (hverify : s.verify g = .ok ()) : s.Covers g := by
  obtain ⟨cfg, hcfg, hof⟩ := ofGraph_of_schedule hs
  exact ⟨runnable_of_schedule hg hs hverify, hof.built hg hcfg, hof.pinned⟩

theorem Covers.rival (h : s.Covers g) (hs' : s.IsRival s' g) : s'.Covers g := by
  refine ⟨hs'.runnable h.runnable h.built, hs'.cfg ▸ h.built, fun n hn hop hstop hdead => ?_,
    fun n hn hop hfloats => ?_⟩
  · rw [hs'.pinned n hn (floats_eq_false_of_isCfg hop), hs'.cfg]
    exact h.pinned.ctrl n hn hop hstop hdead
  · rw [hs'.pinned n hn hfloats, dataBlock?_of_cfg hs'.cfg]
    exact h.pinned.data n hn hop hfloats

namespace Covers

theorem mem_ctrl_of_isCfg (h : s.Covers g) (hn : n ∈ g.live) (hop : (g.op n).isCfg)
    (hstop : g.op n ≠ .stop) (hdead : g.op n ≠ .dead) (hb : s.blockOf.get n = some b) :
    n ∈ (s.cfg.block b).ctrl := by
  rw [(h.pinned.ctrl n hn hop hstop hdead).2] at hb
  exact (h.built.chained.blockOf n b).mp hb

/-- Every node has a block. -/
theorem isSome_blockOf (h : s.Covers g)
    (hfloats : ∀ n ∈ g.live, g.floats n → (s.blockOf.get n).isSome) (hn : n ∈ g.live)
    (hstop : g.op n ≠ .stop) (hdead : g.op n ≠ .dead) (hscope : g.op n ≠ .scope) :
    (s.blockOf.get n).isSome := by
  cases hcfg : (g.op n).isCfg with
  | true => exact (h.pinned.ctrl n hn hcfg hstop hdead).1
  | false =>
    cases hfloating : g.floats n with
    | true => exact hfloats n hn hfloating
    | false =>
      have hdata := h.pinned.data n hn hcfg hfloating
      have hmap {x : NodeId} {e : Edge} {r : Option BlockId}
          (heq : some <$> s.pinnedBlock g x e = .ok r) : r.isSome := by
        cases hblock : s.pinnedBlock g x e with
        | ok d =>
          rw [hblock] at heq
          exact Except.ok.inj heq ▸ rfl
        | error f =>
          rw [hblock] at heq
          exact nomatch heq
      unfold dataBlock? at hdata
      cases hop : g.op n with
      | param _ | startMem =>
        simp only [hop] at hdata
        exact Except.ok.inj hdata ▸ rfl
      | phi | load | store | alloc =>
        simp only [hop] at hdata
        exact hmap hdata
      | cast =>
        simp only [hop, hfloating, Bool.false_eq_true, if_false] at hdata
        exact hmap hdata
      | proj _ =>
        simp only [hop] at hdata
        split at hdata
        · split_ifs at hdata
          · exact hmap hdata
          · exact hmap hdata
        · exact nomatch hdata
      | _ =>
        simp [Graph.floats, Op.isFloating, Op.isCfg, hop] at hcfg hfloating hstop hdead hscope

theorem ctrl_of_pinnedBlock (h : s.Covers g) {e : Edge}
    (hb : some <$> s.pinnedBlock g n e = .ok (some b)) :
    ∃ c, e = some c ∧ c ∈ (s.cfg.block b).ctrl := by
  unfold pinnedBlock at hb
  split_ifs at hb with hnone
  · exact nomatch hb
  · split at hb
    case h_2 => exact nomatch hb
    case h_1 b' hb' =>
      obtain rfl := Option.some.inj (Except.ok.inj hb)
      obtain ⟨c, hc, hcb⟩ := Option.bind_eq_some_iff.mp hb'
      exact ⟨c, hc, (h.built.chained.blockOf c b').mp hcb⟩

theorem ctrl_of_pinned (h : s.Covers g) (hn : s.Listed g n b)
    (hop : (g.op n).usesMemory ∨ g.op n = .phi) :
    ∃ c, g.input n 0 = some c ∧ c ∈ (s.cfg.block b).ctrl := by
  obtain ⟨hlive, hblock⟩ := hn.live h.runnable
  have hdata := h.pinned.data n hlive
    (by rcases hop with hop | hop <;> cases hop' : g.op n <;> simp_all [Op.usesMemory, Op.isCfg])
    (by
      unfold Graph.floats
      rcases hop with hop | hop <;> cases hop' : g.op n <;>
        simp_all [Op.usesMemory, Op.isFloating])
  refine h.ctrl_of_pinnedBlock (n := n) ?_
  rw [← hblock, ← hdata]
  unfold dataBlock?
  rcases hop with hop | hop <;> cases hop' : g.op n <;> simp_all [Op.usesMemory]

theorem ctrl_of_cast (h : s.Covers g) (hn : s.Listed g n b) (hop : g.op n = .cast) {c : NodeId}
    (hc : g.input n 0 = some c) : c ∈ (s.cfg.block b).ctrl := by
  obtain ⟨hlive, hblock⟩ := hn.live h.runnable
  have hfloats : g.floats n = false := by simp [Graph.floats, hop, hc]
  have hdata := h.pinned.data n hlive (by simp [hop, Op.isCfg]) hfloats
  simp only [hblock, dataBlock?, hop, hfloats, Bool.false_eq_true, if_false] at hdata
  obtain ⟨c', hc', hmem⟩ := h.ctrl_of_pinnedBlock hdata
  obtain rfl := Option.some.inj (hc.symm.trans hc')
  exact hmem

theorem source_of_proj (h : s.Covers g) (hn : s.Listed g n b) {k : Nat} (hop : g.op n = .proj k)
    (hsrc : g.input n 0 = some i) :
    (g.op i = .alloc → dataBlock? g s i = .ok (some b)) ∧
      (g.op i ≠ .alloc → i ∈ (s.cfg.block b).ctrl) := by
  obtain ⟨hlive, hblock⟩ := hn.live h.runnable
  have hdata := h.pinned.data n hlive (by simp [hop, Op.isCfg])
    (by simp [Graph.floats, hop, Op.isFloating])
  rw [hblock] at hdata
  simp only [dataBlock?, hop, hsrc] at hdata
  constructor
  · intro halloc
    rw [if_pos halloc] at hdata
    simp only [dataBlock?, halloc]
    exact hdata
  · intro hne
    rw [if_neg hne] at hdata
    obtain ⟨c, hc, hmem⟩ := h.ctrl_of_pinnedBlock hdata
    exact Option.some.inj hc ▸ hmem

theorem mem_of_call (h : s.Covers g) (hg : g.WellFormed) (hn : s.Listed g n b) {k : Nat}
    (hop : g.op n = .proj k) (hsrc : g.input n 0 = some i) (hend : g.op i = .callEnd)
    (hc : g.input i 0 = some c) (hcode : (g.op c).isCode) (hsplit : s.nodes b = pre ++ n :: post) :
    s.Listed g c b ∧ c ∈ pre := by
  have hverify := h.runnable.verify
  have hmem := (h.source_of_proj hn hop hsrc).2 (by simp [hend])
  have hblock : s.blockOf.get i = some b := by
    rw [(h.pinned.ctrl i (h.built.chained.live b i hmem) (by rw [hend]; rfl)
      (by simp [hend]) (by simp [hend])).2]
    exact (h.built.chained.blockOf i b).mpr hmem
  obtain ⟨_, _, hctrl⟩ := h.built.before_callEnd hg hmem hend hc
  have hprev : c ∈ (s.cfg.block b).ctrl := by
    rw [hctrl]
    simp
  have hclive := h.built.chained.live b c hprev
  have hcall : g.op c = .call := by
    have hcfg := h.built.chained.isCfg_of_mem hg hprev
    simpa [Op.isCode, hcfg] using hcode
  have hcblock : s.blockOf.get c = some b := by
    rw [(h.pinned.ctrl c hclive (by rw [hcall]; rfl) (by simp [hcall]) (by simp [hcall])).2]
    exact (h.built.chained.blockOf c b).mpr hprev
  refine ⟨listed_of_placed h.runnable hn.lt hclive hcode hcblock, ?_⟩
  have hbefore := before_of_verify hverify hn.lt hsplit (by simp [hop]) (by simp [hop, Op.isRegion])
    hsrc hblock
  obtain ⟨pre', mid, rfl⟩ := List.append_of_mem hbefore
  rw [List.append_assoc, List.cons_append] at hsplit
  exact List.mem_append_left _ (before_of_verify hverify hn.lt hsplit (by simp [hend])
    (by simp [hend, Op.isRegion]) hc hcblock)

theorem head_entry (h : s.Covers g) (hg : g.WellFormed) :
    (s.cfg.block Cfg.entry).head = Graph.start := by
  have hmem := (h.built.chained.blockOf _ _).mp h.built.chained.start
  rcases h.built.chained.head_or_continues hmem with hhead | ⟨_, _, _, -, hcont⟩
  · exact hhead.symm
  · have hinput := hcont.input
    rw [Graph.input_eq_none_of_inputs hg.start_inputs] at hinput
    exact nomatch hinput

theorem head_of_phi (h : s.Covers g) (hphis : g.PhisOnRegions) (hn : s.Listed g n b)
    (hop : g.op n = .phi) :
    g.input n 0 = some (s.cfg.block b).head ∧ (g.op (s.cfg.block b).head).isRegion := by
  obtain ⟨c, hc, hmem⟩ := h.ctrl_of_pinned hn (.inr hop)
  obtain ⟨r, hr, hregion⟩ := hphis n (hn.live h.runnable).1 hop
  obtain rfl := Option.some.inj (hc.symm.trans hr)
  have hhead := h.built.head_of_region hregion ((h.built.chained.blockOf c b).mpr hmem)
  rw [hhead]
  exact ⟨hc, hregion⟩

theorem ne_phi_of_entry (h : s.Covers g) (hg : g.WellFormed) (hphis : g.PhisOnRegions)
    (hn : s.Listed g n Cfg.entry) : g.op n ≠ .phi := by
  intro hop
  have hregion := (h.head_of_phi hphis hn hop).2
  rw [h.head_entry hg, hg.start_op] at hregion
  exact nomatch hregion

end Covers

/-- In block `b` after the nodes `pre`, the nodes of the other dominators, the phis of `b` and `pre`
have values. -/
def Available (s : Schedule) (g : Graph) (a : Activation) (b : BlockId) (pre : List NodeId) : Prop :=
  ∀ d n, s.Listed g n d → s.cfg.Dominates d b → (d = b → n ∈ pre ∨ g.op n = .phi) →
    (a.value n).isSome

namespace Available

theorem mono (h : s.Available g a b pre) (hvalue : ∀ m, (a.value m).isSome → (a'.value m).isSome) :
    s.Available g a' b pre :=
  fun d m hm hdom hpre => hvalue m (h d m hm hdom hpre)

theorem input (h : s.Available g a b pre) (hs : s.Covers g) {rest : List BlockId}
    (hwalk : s.cfg.Walk (b :: rest)) (hn : s.Listed g n b) (hphi : g.op n ≠ .phi)
    (hsplit : s.nodes b = pre ++ n :: post) {j : Nat} (hi : g.input n j = some i)
    (hlive : i ∈ g.live) (hcode : (g.op i).isCode) (hd : s.blockOf.get i = some d) :
    (a.value i).isSome := by
  obtain ⟨hdom, hbefore⟩ := hn.input hs.runnable hphi hsplit hi hd
  have hlt := lt_of_dominates hs.runnable hwalk hdom
  exact h d i (listed_of_placed hs.runnable hlt hlive hcode hd) hdom fun hdb => .inl (hbefore hdb)

theorem set (h : s.Available g a b pre) (hlt : n < a.values.size) :
    s.Available g (a.set n v) b (pre ++ [n]) := by
  intro d m hm hdom hpre
  by_cases hmn : m = n
  · rw [hmn, Activation.value_set_self hlt]
    rfl
  · refine Activation.isSome_value_set (h d m hm hdom fun hdb => ?_)
    rcases hpre hdb with hmem | hphi
    · exact .inl ((List.mem_append.mp hmem).resolve_right (by simpa using hmn))
    · exact .inr hphi

theorem skip (h : s.Available g a b pre) (hn : (g.op n).isCode = false ∨ g.op n = .phi) :
    s.Available g a b (pre ++ [n]) := by
  intro d m hm hdom hpre
  refine h d m hm hdom fun hdb => ?_
  rcases hpre hdb with hmem | hphi
  · rcases List.mem_append.mp hmem with hmem | hmem
    · exact .inl hmem
    · obtain rfl := List.mem_singleton.mp hmem
      exact .inr (hn.resolve_left fun hcode => by simp [hm.code] at hcode)
  · exact .inr hphi

theorem takePhis (h : s.Available g a d (s.nodes d)) (hs : s.Covers g)
    (hroutine : a.routine = ⟨g, s⟩) (hsize : a.values.size = g.size)
    (hd : d ∈ (s.cfg.block b).preds) (hb : b < s.cfg.size)
    (htake : (a.goTo b).takePhis = .ok a') : s.Available g a' b [] := by
  obtain ⟨j, -, hkeep, hset⟩ := Activation.takePhis_spec (a := a.goTo b) rfl htake
  have hphis : (a.goTo b).phiNodes = (s.nodes b).filter (g.op · == .phi) := by
    simp only [Activation.phiNodes, Activation.goTo, Activation.graph, hroutine]
  have hnodup : (a.goTo b).phiNodes.Nodup := by
    rw [hphis]
    exact (hs.runnable.lists.nodup b hb).filter _
  intro e m hm hdom hpre
  by_cases hmem : m ∈ (a.goTo b).phiNodes
  · obtain ⟨v, -, hvalue⟩ := hset m hmem
    have hlt : m < (a.goTo b).values.size := by
      show m < a.values.size
      rw [hsize]
      exact (Graph.mem_live.mp (hm.live hs.runnable).1).1
    rw [hvalue hnodup hlt]
    rfl
  · rw [hkeep m hmem]
    -- no phi of `b`, so it is from another dominator, and that dominates where control came from
    have hne : e ≠ b := by
      intro heb
      rcases hpre heb with hnil | hphi
      · exact absurd hnil List.not_mem_nil
      · refine hmem ?_
        rw [hphis, List.mem_filter, beq_iff_eq]
        exact ⟨heb ▸ hm.mem, hphi⟩
    exact h e m hm (hdom.of_pred hne hd) fun hed => .inl (hed ▸ hm.mem)

theorem ofCall (hphis : ∀ n, s.Listed g n Cfg.entry → g.op n ≠ .phi) (args : Array Value)
    (depth : Nat) : s.Available g (.ofCall ⟨g, s⟩ args depth) Cfg.entry [] := by
  intro d m hm hdom hpre
  obtain rfl := hdom.eq_entry
  rcases hpre rfl with hnil | hphi
  · exact absurd hnil List.not_mem_nil
  · exact absurd hphi (hphis m hm)

end Available

end Schedule

end SeaNodes
