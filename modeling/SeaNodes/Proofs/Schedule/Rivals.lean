import SeaNodes.Proofs.Eval.Blame
import SeaNodes.Proofs.Eval.Settled

namespace SeaNodes

namespace Schedule

/-- `s` evaluates the floating node `n` where `s'` need not have come to it. -/
def Hoists (s s' : Schedule) (g : Graph) (n : NodeId) : Prop :=
  g.floats n ∧ ∃ b, s.blockOf.get n = some b ∧
    ∀ d, s'.blockOf.get n = some d → s.dom.dominates d b = false

/-- Two schedules of a graph without effects that differ in floating nodes only; the first one has
all of them. -/
structure Rivals (g : Graph) (s s' : Schedule) : Prop where
  isPure : g.IsPure
  runnable : s.Runnable g
  runnable' : s'.Runnable g
  cfg : s'.cfg = s.cfg
  dom : s'.dom = s.dom
  pinned : ∀ n ∈ g.live, g.floats n = false → s'.blockOf.get n = s.blockOf.get n
  placed : ∀ n ∈ g.live, g.floats n → (s.blockOf.get n).isSome

variable {g : Graph} {s s' : Schedule} {a a' : Activation} {n i : NodeId} {b d p : BlockId}
  {pre pre' post : List NodeId} {rest : List BlockId} {v w : Value}

theorem floats_of_phi (h : g.op n = .phi) : g.floats n = false := by
  simp [Graph.floats, h, Op.isFloating]

theorem Rivals.listed_iff (hr : Rivals g s s') (hn : g.floats n = false) :
    s'.Listed g n d ↔ s.Listed g n d := by
  constructor
  · intro h
    obtain ⟨hlive, hd⟩ := h.live hr.runnable'
    rw [hr.pinned n hlive hn] at hd
    exact listed_of_placed hr.runnable (hr.cfg ▸ h.lt) hlive h.code hd
  · intro h
    obtain ⟨hlive, hd⟩ := h.live hr.runnable
    rw [← hr.pinned n hlive hn] at hd
    exact listed_of_placed hr.runnable' (hr.cfg ▸ h.lt) hlive h.code hd

/-- Two runs in block `b`, after the nodes `pre` and `pre'`. They agree on the phis of dominators. -/
structure Agree (g : Graph) (s s' : Schedule) (a a' : Activation) (b : BlockId)
    (pre pre' : List NodeId) : Prop where
  settled : s.Settled g a b pre
  settled' : s'.Settled g a' b pre'
  args : a'.args = a.args
  phis : ∀ n d, g.op n = .phi → s.Listed g n d → s.cfg.Dominates d b → a'.value n = a.value n

/-- What the one run can read at a node that is up to date in both, the other can read as well. -/
theorem Agree.get (h : Agree g s s' a a' b pre pre') (hr : Rivals g s s')
    (hwalk : s.cfg.Walk (b :: rest))
    (hknown : ∀ d, i ∈ g.live → (g.op i).isCode → s.blockOf.get i = some d →
      s.cfg.Dominates d b ∧ (d = b → i ∈ pre))
    (hknown' : ∀ d, s'.Listed g i d → s'.cfg.Dominates d b ∧ (d = b → i ∈ pre'))
    (hget : a'.get (some i) = .ok w) : a.get (some i) = .ok w := by
  cases hv' : a'.value i with
  | none =>
    obtain ⟨t, hop, hconst⟩ := (Activation.get_of_not_value hv').mp hget
    rw [h.settled'.graph, ← h.settled.graph] at hop
    cases hv : a.value i with
    | none => exact (Activation.get_of_not_value hv).mpr ⟨t, hop, hconst⟩
    | some v =>
      rcases h.settled.truthful i t hop with hnone | hsome
      · exact nomatch hv.symm.trans hnone
      · exact Activation.get_of_value (hsome.trans hconst)
  | some v' =>
    rw [Activation.get_of_value hv', Except.ok.injEq] at hget
    subst hget
    have hlisted' : ∃ d, s'.Listed g i d := by
      by_contra hno
      rw [h.settled'.unlisted i (not_exists.mp hno)] at hv'
      exact nomatch hv'
    obtain ⟨d', hd'⟩ := hlisted'
    obtain ⟨hlive, hplaced'⟩ := hd'.live hr.runnable'
    by_cases hphi : g.op i = .phi
    · have hd := (hr.listed_iff (floats_of_phi hphi)).mp hd'
      have hdom := (hknown' d' hd').1
      rw [hr.cfg] at hdom
      exact Activation.get_of_value ((h.phis i d' hphi hd hdom).symm.trans hv')
    · obtain ⟨⟨w', hw', hmeans'⟩, -⟩ := h.settled'.value d' i hd' hphi (hknown' d' hd').1
        (hknown' d' hd').2
      obtain rfl : v' = w' := Option.some.inj (hv'.symm.trans hw')
      have hplaced : ∃ d, s.blockOf.get i = some d := by
        by_cases hfloats : g.floats i
        · exact Option.isSome_iff_exists.mp (hr.placed i hlive hfloats)
        · exact ⟨d', (hr.pinned i hlive (Bool.eq_false_iff.mpr hfloats)).symm.trans hplaced'⟩
      obtain ⟨d, hd⟩ := hplaced
      obtain ⟨hdom, hpre⟩ := hknown d hlive hd'.code hd
      have hlisted : s.Listed g i d :=
        listed_of_placed hr.runnable (lt_of_dominates hr.runnable hwalk hdom) hlive hd'.code hd
      obtain ⟨⟨v, hv, hmeans⟩, -⟩ := h.settled.value d i hlisted hphi hdom hpre
      have hmeans' : g.Means a.args (s.phisAt g a b) i v' := by
        rw [h.args] at hmeans'
        refine hmeans'.mono fun m x hm hx => ?_
        obtain ⟨e, he, hed, hx⟩ := hx
        have he := (hr.listed_iff (floats_of_phi hm)).mp he
        have heb := hed.trans (hknown' d' hd').1
        rw [hr.cfg] at heb
        exact ⟨e, he, heb, (h.phis m e hm he heb).symm.trans hx⟩
      rw [Activation.get_of_value hv, means_unique (means_of_dominates hmeans hdom) hmeans']

theorem Agree.get_finished (h : Agree g s s' a a' b (s.nodes b) (s'.nodes b)) (hr : Rivals g s s')
    (hwalk : s.cfg.Walk (b :: rest))
    (hi : ∀ d, s.blockOf.get i = some d → s.cfg.Dominates d b)
    (hi' : ∀ d, s'.blockOf.get i = some d → s'.cfg.Dominates d b)
    (hget : a'.get (some i) = .ok w) : a.get (some i) = .ok w := by
  refine h.get hr hwalk (fun d hlive hcode hd => ⟨hi d hd, fun hdb => ?_⟩) (fun d hd => ?_) hget
  · have hlt := lt_of_dominates hr.runnable hwalk (hi d hd)
    exact hdb ▸ (listed_of_placed hr.runnable hlt hlive hcode hd).mem
  · exact ⟨hi' d (hd.live hr.runnable').2, fun hdb => hdb ▸ hd.mem⟩

theorem Runnable.dominates_of_terminator (hs : s.Runnable g) {t : NodeId}
    (ht : (s.cfg.block b).terminator = some t) (hop : g.op t = .fork ∨ g.op t = .ret) {j : Nat}
    (hi : g.input t j = some i) (hd : s.blockOf.get i = some d) : s.cfg.Dominates d b := by
  obtain ⟨hlive, hplaced⟩ := hs.terminator b t ht
  have hregion : (g.op t).isRegion = false := by rcases hop with h | h <;> simp [h, Op.isRegion]
  have hphi : g.op t ≠ .phi := by rcases hop with h | h <;> simp [h]
  obtain ⟨p, hp, hdom⟩ := dominates_of_verify hs.verify hlive hplaced hregion hi
    (fun h => hphi h.1) hd
  rw [neededAt?, if_neg hphi, Option.some.injEq] at hp
  exact hs.dom d b (hp ▸ hdom)

/-- Both runs leave a block the same way. -/
theorem Agree.leave (h : Agree g s s' a a' b (s.nodes b) (s'.nodes b)) (hr : Rivals g s s')
    (hwalk : s.cfg.Walk (b :: rest)) (hb : a.block = b) (hb' : a'.block = b) {x : BlockId ⊕ Value}
    (hleave : a'.leave = .ok x) : a.leave = .ok x := by
  have hread {t : NodeId} (ht : (s.cfg.block b).terminator = some t)
      (hop : g.op t = .fork ∨ g.op t = .ret) {j : Nat} {w : Value}
      (hget : a'.get (g.input t j) = .ok w) : a.get (g.input t j) = .ok w := by
    cases hi : g.input t j with
    | none =>
      rw [hi] at hget
      exact absurd hget Activation.get_none
    | some i =>
      rw [hi] at hget
      refine h.get_finished hr hwalk (fun d hd => ?_) (fun d hd => ?_) hget
      · exact hr.runnable.dominates_of_terminator ht hop hi hd
      · exact hr.runnable'.dominates_of_terminator (hr.cfg ▸ ht) hop hi hd
  unfold Activation.leave at hleave ⊢
  simp only [h.settled.graph, h.settled'.graph, h.settled.routine, h.settled'.routine, hb, hb',
    hr.cfg] at hleave ⊢
  split at hleave
  case h_1 => exact hleave
  case h_2 t ht =>
    split at hleave
    case h_1 hop =>
      split at hleave
      case isTrue hsome =>
        obtain ⟨w, hw, hleave⟩ := Except.bind_eq_ok hleave
        simp only [hsome, if_true, hread ht (.inr hop) hw]
        exact hleave
      case isFalse hnone =>
        simp only [hnone]
        exact hleave
    case h_2 hop =>
      obtain ⟨w, hw, hleave⟩ := Except.bind_eq_ok hleave
      simp only [hread ht (.inl hop) hw]
      exact hleave
    case h_3 => exact nomatch hleave

theorem Listed.dominates_of_phi (h : s.Listed g n b) (hs : s.Runnable g) (hphi : g.op n = .phi)
    {j : Nat} (hp : (s.cfg.block b).preds[j]? = some p) (hi : g.input n (j + 1) = some i)
    (hd : s.blockOf.get i = some d) : s.cfg.Dominates d p := by
  obtain ⟨hlive, hplaced⟩ := h.live hs
  obtain ⟨q, hq, hdom⟩ := dominates_of_verify hs.verify hlive hplaced
    (by simp [hphi, Op.isRegion]) hi (by omega) hd
  rw [neededAt?, if_pos hphi, Nat.add_sub_cancel, hp, Option.some.injEq] at hq
  exact hs.dom d p (hq ▸ hdom)

theorem mem_phiNodes_goTo (hroutine : a.routine = ⟨g, s⟩) (hb : b < s.cfg.size) (n : NodeId) :
    n ∈ (a.goTo b).phiNodes ↔ s.Listed g n b ∧ g.op n = .phi := by
  have hroutine : (a.goTo b).routine = ⟨g, s⟩ := hroutine
  have hgraph : (a.goTo b).graph = g := congrArg Routine.graph hroutine
  rw [Activation.mem_phiNodes, hgraph, hroutine]
  exact ⟨fun h => ⟨⟨hb, by simp [h.2, Op.isCode, Op.isCfg], h.1⟩, h.2⟩, fun h => ⟨h.1.mem, h.2⟩⟩

theorem nodup_phiNodes_goTo (hroutine : a.routine = ⟨g, s⟩) (hs : s.Runnable g)
    (hb : b < s.cfg.size) : (a.goTo b).phiNodes.Nodup := by
  have hroutine : (a.goTo b).routine = ⟨g, s⟩ := hroutine
  refine List.Nodup.filter _ ?_
  rw [hroutine]
  exact hs.lists.nodup b hb

/-- The phis of the next block take the same values. -/
theorem Agree.takePhis (h : Agree g s s' a a' p (s.nodes p) (s'.nodes p)) (hr : Rivals g s s')
    (hwalk : s.cfg.Walk (p :: rest)) (hp : a.block = p) (hp' : a'.block = p) {a₁' : Activation}
    (htake : (a'.goTo b).takePhis = .ok a₁') :
    p ∈ (s.cfg.block b).preds ∧
      ∃ a₁, (a.goTo b).takePhis = .ok a₁ ∧ Agree g s s' a₁ a₁' b [] [] := by
  have hprev : (a.goTo b).prev = some p := congrArg some hp
  have hprev' : (a'.goTo b).prev = some p := congrArg some hp'
  have hroutine : (a.goTo b).routine = ⟨g, s⟩ := h.settled.routine
  have hroutine' : (a'.goTo b).routine = ⟨g, s'⟩ := h.settled'.routine
  have hgraph : (a.goTo b).graph = g := congrArg Routine.graph hroutine
  have hgraph' : (a'.goTo b).graph = g := congrArg Routine.graph hroutine'
  obtain ⟨j, hj, hkeep', hset'⟩ := Activation.takePhis_spec hprev' htake
  have hj : (s.cfg.block b).preds.idxOf? p = some j := by
    rw [hroutine'] at hj
    exact hr.cfg ▸ hj
  have hpred : (s.cfg.block b).preds[j]? = some p := Activation.getElem?_of_idxOf? hj
  have hmem : p ∈ (s.cfg.block b).preds := List.mem_of_getElem? hpred
  have hb : b < s.cfg.size := Cfg.lt_size_of_mem_preds hmem
  have hphis := mem_phiNodes_goTo h.settled.routine hb
  -- phis are where their region is, so both schedules list the same ones
  have hphis' (n : NodeId) : n ∈ (a'.goTo b).phiNodes ↔ s.Listed g n b ∧ g.op n = .phi :=
    (mem_phiNodes_goTo h.settled'.routine (hr.cfg ▸ hb) n).trans
      (and_congr_left fun hphi => hr.listed_iff (floats_of_phi hphi))
  have hread (n : NodeId) (hn : s.Listed g n b) (hphi : g.op n = .phi) (v : Value)
      (hv : a'.get (g.input n (j + 1)) = .ok v) : a.get (g.input n (j + 1)) = .ok v := by
    cases hi : g.input n (j + 1) with
    | none =>
      rw [hi] at hv
      exact absurd hv Activation.get_none
    | some i =>
      rw [hi] at hv
      have hn' := (hr.listed_iff (floats_of_phi hphi)).mpr hn
      exact h.get_finished hr hwalk
        (fun d hd => hn.dominates_of_phi hr.runnable hphi hpred hi hd)
        (fun d hd => hn'.dominates_of_phi hr.runnable' hphi (hr.cfg ▸ hpred) hi hd) hv
  obtain ⟨a₁, ha₁⟩ := Activation.exists_takePhis hprev (by rw [hroutine]; exact hj) fun n hn => by
    obtain ⟨hlisted, hphi⟩ := (hphis n).mp hn
    obtain ⟨v, hv, -⟩ := hset' n ((hphis' n).mpr ⟨hlisted, hphi⟩)
    rw [hgraph'] at hv
    rw [hgraph]
    exact ⟨v, hread n hlisted hphi v hv⟩
  obtain ⟨j₁, hj₁, hkeep, hset⟩ := Activation.takePhis_spec hprev ha₁
  obtain rfl : j = j₁ := by
    rw [hroutine] at hj₁
    exact Option.some.inj (hj.symm.trans hj₁)
  have hwalk' : s'.cfg.Walk (b :: p :: rest) := hr.cfg ▸ hwalk.step hmem
  have hsame := Activation.sameCall_takePhis ha₁
  have hsame' := Activation.sameCall_takePhis htake
  refine ⟨hmem, a₁, ha₁, ?_, ?_, ?_, fun n d hphi hn hdom => ?_⟩
  · exact (h.settled.goTo hmem).takePhis hr.runnable rfl (hwalk.step hmem) hb ha₁
  · exact (h.settled'.goTo (hr.cfg ▸ hmem)).takePhis hr.runnable' rfl hwalk' (hr.cfg ▸ hb) htake
  · rw [hsame.args, hsame'.args]
    exact h.args
  · -- a phi of this block took a new value, one of another has kept its own
    by_cases hnb : n ∈ (a.goTo b).phiNodes
    · have hlisted := ((hphis n).mp hnb).1
      have hlt : n < g.size := (Graph.mem_live.mp (hlisted.live hr.runnable).1).1
      have hnodup := nodup_phiNodes_goTo h.settled.routine hr.runnable hb
      have hnodup' := nodup_phiNodes_goTo h.settled'.routine hr.runnable' (hr.cfg ▸ hb)
      obtain ⟨v, hv, hvalue⟩ := hset n hnb
      obtain ⟨v', hv', hvalue'⟩ := hset' n ((hphis' n).mpr ((hphis n).mp hnb))
      rw [hgraph] at hv
      rw [hgraph'] at hv'
      have heq : a.get (g.input n (j + 1)) = .ok v' := hread n hlisted hphi v' hv'
      rw [hvalue hnodup (h.settled.size ▸ hlt), hvalue' hnodup' (h.settled'.size ▸ hlt)]
      exact congrArg some (Except.ok.inj (heq.symm.trans hv))
    · have hdb : d ≠ b := by
        rintro rfl
        exact hnb ((hphis n).mpr ⟨hn, hphi⟩)
      rw [hkeep n hnb, hkeep' n fun hn' => hnb ((hphis n).mpr ((hphis' n).mp hn'))]
      exact h.phis n d hphi hn (hdom.of_pred hdb hmem)

theorem value_steps_of_phi (ns : List NodeId) (h : ns.foldlM Activation.step a = .ok a')
    (hn : a.graph.op n = .phi) : a'.value n = a.value n := by
  refine (Except.foldlM_induction (P := fun a' => a'.graph = a.graph ∧ a'.value n = a.value n) h
    ⟨rfl, rfl⟩ fun m _ a₁ a₂ hkeep hstep => ?_).2
  refine ⟨(Activation.sameCall_step hstep).graph.trans hkeep.1, ?_⟩
  rcases Activation.step_cases hstep with ⟨-, rfl⟩ | ⟨v, hv, rfl⟩
  · exact hkeep.2
  · have hne : m ≠ n := by
      rintro rfl
      rw [Activation.pureValue_of_phi (hkeep.1 ▸ hn)] at hv
      exact nomatch hv
    exact (Activation.value_set_of_ne hne).trans hkeep.2

/-- A node that the other run has come to can be evaluated, and one that hangs on control cannot fail
either: only a hoisted node can. -/
theorem Agree.hoists_of_error (h : Agree g s s' a a' b pre (s'.nodes b)) (hr : Rivals g s s')
    (hwalk : s.cfg.Walk (b :: rest)) (hb : b < s.cfg.size) (hsplit : s.nodes b = pre ++ n :: post)
    {e : EvalError} (herror : a.pureValue n = .error e) : s.Hoists s' g n := by
  have hmem : n ∈ s.nodes b := hsplit ▸ by simp
  have hcode : (g.op n).isCode ∧ g.op n ≠ .phi := by
    rw [← h.settled.graph]
    constructor
    · by_contra hno
      rw [Activation.pureValue_of_not_code (Bool.eq_false_iff.mpr hno)] at herror
      cases herror
    · intro hphi
      rw [Activation.pureValue_of_phi hphi] at herror
      cases herror
  have hlisted : s.Listed g n b := ⟨hb, hcode.1, hmem⟩
  obtain ⟨hlive, hplaced⟩ := hlisted.live hr.runnable
  have hcome (d : BlockId) (hd : s'.blockOf.get n = some d) : ¬ s.cfg.Dominates d b := by
    intro hdom
    have hlisted' : s'.Listed g n d := listed_of_placed hr.runnable'
      (hr.cfg ▸ lt_of_dominates hr.runnable hwalk hdom) hlive hcode.1 hd
    have hvalue' := h.settled'.pureValue hr.runnable' hlisted' hcode.2 (hr.cfg ▸ hdom)
    obtain ⟨pre', post', hsplit'⟩ := List.append_of_mem hlisted'.mem
    have hreads' := Activation.exists_read_of_pureValue hvalue'
    rw [h.settled'.graph] at hreads'
    have hproj : ∀ i, g.op n ≠ .proj i := by
      have := hr.isPure n hlive
      intro i hop
      simp [hop, Op.isStateful] at this
    have hcongr : a.pureValue n = a'.pureValue n := by
      refine Activation.pureValue_congr (h.settled.graph.trans h.settled'.graph.symm) h.args.symm
        (h.settled.graph.symm ▸ hproj) fun j hj => ?_
      rw [h.settled.graph] at hj ⊢
      obtain ⟨w, hw⟩ := hreads' j hj
      cases hi : g.input n j with
      | none =>
        rw [hi] at hw
        exact absurd hw Activation.get_none
      | some i =>
        rw [hi] at hw
        rw [hw]
        refine h.get hr hwalk (fun c _ _ hc => ?_) (fun c hc => ?_) hw
        · exact hlisted.input hr.runnable hcode.2 hsplit hi hc
        · have hcd := (hlisted'.input hr.runnable' hcode.2 hsplit' hi (hc.live hr.runnable').2).1
          exact ⟨hcd.trans (hr.cfg ▸ hdom), fun hcb => hcb ▸ hc.mem⟩
    rw [hcongr, hvalue'] at herror
    cases herror
  have hfloats : g.floats n := by
    by_contra hno
    have hpin := hr.pinned n hlive (Bool.eq_false_iff.mpr hno)
    exact hcome b (hpin.trans hplaced) (.refl _ b)
  refine ⟨hfloats, b, hplaced, fun d hd => Bool.eq_false_iff.mpr fun hdom => ?_⟩
  exact hcome d hd (hr.runnable.dom d b hdom)

theorem Agree.steps (hr : Rivals g s s') (hwalk : s.cfg.Walk (b :: rest)) (hb : b < s.cfg.size)
    (h : Agree g s s' a a' b pre (s'.nodes b)) (hsplit : s.nodes b = pre ++ post) :
    (∃ a₁, post.foldlM Activation.step a = .ok a₁ ∧
      Agree g s s' a₁ a' b (s.nodes b) (s'.nodes b)) ∨
    ∃ n e, post.foldlM Activation.step a = .error e ∧ s.Hoists s' g n ∧ e.IsAt g n := by
  induction post generalizing a pre with
  | nil =>
    rw [List.append_nil] at hsplit
    exact .inl ⟨a, rfl, hsplit ▸ h⟩
  | cons n post ih =>
    rw [List.foldlM_cons]
    cases hstep : a.step n with
    | error e =>
      right
      have herror : a.pureValue n = .error e := by
        rcases Except.bind_eq_error hstep with h | ⟨r, -, h⟩
        · exact h
        · split at h <;> exact nomatch h
      have hhoists := h.hoists_of_error hr hwalk hb hsplit herror
      refine ⟨n, e, rfl, hhoists, ?_⟩
      rw [← h.settled.graph]
      exact Activation.isAt_of_pureValue (h.settled.graph ▸ hhoists.1) herror
    | ok a₁ =>
      have hsettled := h.settled.step hr.runnable hr.isPure hb hsplit hstep
      have hsame := Activation.sameCall_step hstep
      have hagree : Agree g s s' a₁ a' b (pre ++ [n]) (s'.nodes b) := by
        refine ⟨hsettled, h.settled', h.args.trans hsame.args.symm, fun m d hm hd hdom => ?_⟩
        have hkeep : a₁.value m = a.value m :=
          value_steps_of_phi [n] (by rw [List.foldlM_cons, hstep]; rfl)
            (h.settled.graph ▸ hm)
        rw [hkeep]
        exact h.phis m d hm hd hdom
      exact ih hagree (by rw [hsplit]; simp)

/-- Two runs after the same block. -/
structure Finished (g : Graph) (s s' : Schedule) (a a' : Activation) : Prop where
  block : a'.block = a.block
  walk : ∃ rest, s.cfg.Walk (a.block :: rest)
  agree : Agree g s s' a a' a.block (s.nodes a.block) (s'.nodes a.block)

/-- Two runs before the same block. -/
inductive Starting (g : Graph) (s s' : Schedule) : Activation → Activation → Prop where
  | entry (args : Array Value) (depth : Nat) :
      Starting g s s' (.ofCall ⟨g, s⟩ args depth) (.ofCall ⟨g, s'⟩ args depth)
  | next {a a' : Activation} (h : Finished g s s' a a') (b : BlockId) :
      Starting g s s' (a.goTo b) (a'.goTo b)

theorem value_ofCall (r : Routine) (args : Array Value) (depth : Nat) (n : NodeId) :
    (Activation.ofCall r args depth).value n = none := by
  rw [Activation.value, Activation.ofCall, Array.getD_eq_getD_getElem?, Array.getElem?_replicate]
  split <;> rfl

theorem settled_ofCall (s : Schedule) (g : Graph) (args : Array Value) (depth : Nat) :
    s.Settled g (.ofCall ⟨g, s⟩ args depth) Cfg.entry [] where
  routine := rfl
  size := Array.size_replicate
  value _ _ _ _ hdom hpre := absurd (hpre hdom.eq_entry) List.not_mem_nil
  unlisted _ _ := value_ofCall ..
  truthful n _ _ := .inl (value_ofCall _ args depth n)

theorem Starting.takePhis (hr : Rivals g s s') (h : Starting g s s' a a') {a₁' : Activation}
    (htake : a'.takePhis = .ok a₁') : ∃ a₁ rest, a.takePhis = .ok a₁ ∧ a₁'.block = a₁.block ∧
      a₁.block < s.cfg.size ∧ s.cfg.Walk (a₁.block :: rest) ∧
      Agree g s s' a₁ a₁' a₁.block [] [] := by
  cases h with
  | entry args depth =>
    obtain rfl := Except.ok.inj ((Activation.takePhis_of_first rfl).symm.trans htake)
    exact ⟨_, [], Activation.takePhis_of_first rfl, rfl, hr.runnable.entry, .entry,
      settled_ofCall s g args depth, settled_ofCall s' g args depth, rfl, fun n _ _ _ _ =>
        (value_ofCall _ args depth n).trans (value_ofCall _ args depth n).symm⟩
  | @next a a' h b =>
    obtain ⟨rest, hwalk⟩ := h.walk
    obtain ⟨hmem, a₁, ha₁, hagree⟩ := h.agree.takePhis hr hwalk rfl h.block htake
    have hblock : a₁.block = b := (Activation.sameCall_takePhis ha₁).block
    have hblock' : a₁'.block = b := (Activation.sameCall_takePhis htake).block
    have hwalk := hwalk.step hmem
    rw [← hblock] at hwalk hagree
    exact ⟨a₁, _, ha₁, hblock'.trans hblock.symm,
      lt_of_dominates hr.runnable hwalk (.refl _ _), hwalk, hagree⟩

theorem Starting.runBlock (hr : Rivals g s s') (h : Starting g s s' a a') {a₁' : Activation}
    (hrun : a'.runBlock = .ok a₁') :
    (∃ a₁, a.runBlock = .ok a₁ ∧ Finished g s s' a₁ a₁') ∨
      ∃ n e, a.runBlock = .error e ∧ s.Hoists s' g n ∧ e.IsAt g n := by
  obtain ⟨a₂', htake', hsteps'⟩ := Except.bind_eq_ok hrun
  obtain ⟨a₂, rest, htake, hblock, hlt, hwalk, hagree⟩ := h.takePhis hr htake'
  have hrunBlock : a.runBlock = (s.nodes a₂.block).foldlM Activation.step a₂ := by
    rw [Activation.runBlock, htake]
    show (a₂.routine.schedule.nodes a₂.block).foldlM Activation.step a₂ = _
    rw [hagree.settled.routine]
  rw [hagree.settled'.routine, hblock] at hsteps'
  have hsame' := Activation.sameCall_steps hsteps'
  have hagree : Agree g s s' a₂ a₁' a₂.block [] (s'.nodes a₂.block) := by
    refine ⟨hagree.settled, ?_, hsame'.args.trans hagree.args, fun n d hn hd hdom => ?_⟩
    · exact hagree.settled'.steps hr.runnable' hr.isPure (hr.cfg ▸ hlt) rfl hsteps'
    · rw [value_steps_of_phi _ hsteps' (hagree.settled'.graph ▸ hn)]
      exact hagree.phis n d hn hd hdom
  rw [hrunBlock]
  rcases hagree.steps hr hwalk hlt rfl with ⟨a₁, ha₁, hend⟩ | herror
  · have hsame := Activation.sameCall_steps ha₁
    refine .inl ⟨a₁, ha₁, hsame'.block.trans (hblock.trans hsame.block.symm), ?_, ?_⟩
    · exact ⟨rest, hsame.block ▸ hwalk⟩
    · rw [hsame.block]
      exact hend
  · exact .inr herror

end Schedule

end SeaNodes
