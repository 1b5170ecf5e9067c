import SeaNodes.Proofs.Eval.PureRun
import SeaNodes.Proofs.Schedule.Lists

namespace SeaNodes

/-- Reads, makes or passes on the state of memory. -/
def Op.isStateful : Op → Bool
  | .load | .store | .alloc | .call | .callEnd | .proj _ => true
  | _ => false

namespace Op

variable {op : Op}

theorem isCode_of_hasEffect (h : op.hasEffect) : op.isCode := by
  cases op <;> first | rfl | exact nomatch h

theorem isStateful_of_hasEffect (h : op.hasEffect) : op.isStateful := by
  cases op <;> first | rfl | exact nomatch h

end Op

namespace Graph

/-- Nothing that is live has to do with memory or calls. -/
def IsPure (g : Graph) : Prop := ∀ n ∈ g.live, (g.op n).isStateful = false

instance (g : Graph) : Decidable g.IsPure := List.decidableBAll _ _

/-- The value of a node as it follows from the arguments and the values of phis. -/
inductive Means (g : Graph) (args : Array Value) (phis : NodeId → Value → Prop) :
    NodeId → Value → Prop where
  | phi {n : NodeId} {v : Value} (hn : g.op n = .phi) (hv : phis n v) : Means g args phis n v
  | node {n : NodeId} {v : Value} (a : Activation) (hgraph : a.graph = g) (hargs : a.args = args)
      (hphi : g.op n ≠ .phi) (hproj : ∀ i, g.op n ≠ .proj i)
      (hreads : ∀ j ∈ (g.op n).reads, ∀ i w, g.input n j = some i → a.get (some i) = .ok w →
        Means g args phis i w)
      (hv : a.pureValue n = .ok (some v)) : Means g args phis n v

namespace Means

variable {g : Graph} {args : Array Value} {phis phis' : NodeId → Value → Prop} {n : NodeId}
  {v w : Value}

theorem mono (h : g.Means args phis n v)
    (hphis : ∀ n v, g.op n = .phi → phis n v → phis' n v) : g.Means args phis' n v := by
  induction h with
  | phi hn hv => exact .phi hn (hphis _ _ hn hv)
  | node a hgraph hargs hphi hproj _ hv ih => exact .node a hgraph hargs hphi hproj ih hv

theorem pureValue_eq {a a' : Activation} (hgraph : a.graph = g) (hgraph' : a'.graph = g)
    (hargs : a.args = a'.args) (hproj : ∀ i, g.op n ≠ .proj i)
    (hreads : ∀ j ∈ (g.op n).reads, ∀ i w w', g.input n j = some i → a.get (some i) = .ok w →
      a'.get (some i) = .ok w' → w = w')
    (hok : ∀ j ∈ (g.op n).reads, ∃ w, a.get (g.input n j) = .ok w)
    (hok' : ∀ j ∈ (g.op n).reads, ∃ w, a'.get (g.input n j) = .ok w) :
    a.pureValue n = a'.pureValue n := by
  subst hgraph
  refine Activation.pureValue_congr hgraph'.symm hargs hproj fun j hj => ?_
  obtain ⟨w, hw⟩ := hok j hj
  obtain ⟨w', hw'⟩ := hok' j hj
  cases hi : a.graph.input n j with
  | none =>
    rw [hi] at hw
    exact absurd hw Activation.get_none
  | some i =>
    rw [hi] at hw hw'
    rw [hw, hw', hreads j hj i w w' hi hw hw']

theorem unique (hphis : ∀ n v w, phis n v → phis n w → v = w) (h : g.Means args phis n v)
    (h' : g.Means args phis n w) : v = w := by
  induction h generalizing w with
  | phi hn hv =>
    cases h' with
    | phi _ hw => exact hphis _ _ _ hv hw
    | node _ _ _ hphi => exact absurd hn hphi
  | node a hgraph hargs hphi hproj hreads hv ih =>
    cases h' with
    | phi hn => exact absurd hn hphi
    | node a' hgraph' hargs' _ _ hreads' hw =>
      have heq := pureValue_eq hgraph hgraph' (hargs.trans hargs'.symm) hproj
        (fun j hj i w w' hi hw hw' => ih j hj i w hi hw (hreads' j hj i w' hi hw'))
        (fun j hj => hgraph ▸ Activation.exists_read_of_pureValue hv j (hgraph ▸ hj))
        (fun j hj => hgraph' ▸ Activation.exists_read_of_pureValue hw j (hgraph' ▸ hj))
      rw [hv, hw] at heq
      exact Option.some.inj (Except.ok.inj heq)

end Means

end Graph

namespace Schedule

/-- What makes a schedule safe to run: it passes the check, its orders are complete, the tree
answers truly, and the terminators of blocks are in them. -/
structure Runnable (s : Schedule) (g : Graph) : Prop where
  verify : s.verify g = .ok ()
  lists : s.Lists g
  dom : ∀ a b, s.dom.dominates a b → s.cfg.Dominates a b
  entry : Cfg.entry < s.cfg.size
  terminator : ∀ b, ∀ t ∈ (s.cfg.block b).terminator, t ∈ g.live ∧ s.blockOf.get t = some b

/-- The node is evaluated in block `b`. -/
structure Listed (s : Schedule) (g : Graph) (n : NodeId) (b : BlockId) : Prop where
  lt : b < s.cfg.size
  code : (g.op n).isCode
  mem : n ∈ s.nodes b

variable {g : Graph} {s : Schedule} {n i : NodeId} {b d : BlockId}

theorem Listed.live (h : s.Listed g n b) (hs : s.Runnable g) :
    n ∈ g.live ∧ s.blockOf.get n = some b :=
  (hs.lists.mem b h.lt n h.code).mp h.mem

theorem Listed.unique (h : s.Listed g n b) (h' : s.Listed g n d) (hs : s.Runnable g) : b = d :=
  Option.some.inj ((h.live hs).2.symm.trans (h'.live hs).2)

theorem lt_of_dominates {rest : List BlockId} (hs : s.Runnable g) (hwalk : s.cfg.Walk (b :: rest))
    (h : s.cfg.Dominates d b) : d < s.cfg.size :=
  hwalk.lt_size hs.entry d (h rest hwalk)

theorem listed_of_placed (hs : s.Runnable g) (hd : d < s.cfg.size) (hn : n ∈ g.live)
    (hcode : (g.op n).isCode) (h : s.blockOf.get n = some d) : s.Listed g n d :=
  ⟨hd, hcode, (hs.lists.mem d hd n hcode).mpr ⟨hn, h⟩⟩

/-- What the check says about a node `n` of block `b` and its input `i`: the input is in a block that
dominates `b`, or comes before in `b`. -/
theorem Listed.input (h : s.Listed g n b) (hs : s.Runnable g) (hphi : g.op n ≠ .phi)
    {pre post : List NodeId} (hsplit : s.nodes b = pre ++ n :: post) {j : Nat}
    (hi : g.input n j = some i) (hd : s.blockOf.get i = some d) :
    s.cfg.Dominates d b ∧ (d = b → i ∈ pre) := by
  have hregion : (g.op n).isRegion = false := by
    by_contra hregion
    rw [Bool.not_eq_false] at hregion
    exact absurd h.code (by simp [Op.isCode_eq_false_of_isRegion hregion])
  obtain ⟨p, hp, hdom⟩ := dominates_of_verify hs.verify (h.live hs).1 (h.live hs).2 hregion hi
    (fun h => hphi h.1) hd
  rw [neededAt?, if_neg hphi, Option.some.injEq] at hp
  subst hp
  exact ⟨hs.dom d b hdom, fun hdb =>
    before_of_verify hs.verify h.lt hsplit hphi hregion hi (hdb ▸ hd)⟩

end Schedule

namespace Activation

variable {g : Graph} {a a' : Activation} {n m : NodeId} {v : Value}

theorem pureValue_of_phi (h : a.graph.op n = .phi) : a.pureValue n = .ok none := by
  simp only [pureValue, h]
  rfl

theorem pureValue_of_not_code (h : (a.graph.op n).isCode = false) : a.pureValue n = .ok none := by
  unfold pureValue
  cases hop : a.graph.op n <;> simp_all [Op.isCode, Op.isCfg] <;> rfl

theorem pureValue_of_const {t : Ty} (h : a.graph.op n = .const t) :
    a.pureValue n = .ok (some v) ↔ Value.ofConst? t = some v := by
  simp only [pureValue, h]
  cases Value.ofConst? t with
  | none => exact iff_of_false (fun h => by cases h) (fun h => by cases h)
  | some w => exact ⟨fun h => Except.ok.inj h, fun h => congrArg Except.ok h⟩

theorem pureValue_ne_none (hcode : (a.graph.op n).isCode) (hphi : a.graph.op n ≠ .phi)
    (heffect : (a.graph.op n).hasEffect = false) : a.pureValue n ≠ .ok none := by
  intro h
  unfold pureValue at h
  dsimp only at h
  split at h
  case h_1 | h_4 => exact nomatch h
  case h_2 | h_3 => split at h <;> exact nomatch h
  case h_5 | h_10 | h_13 =>
    obtain ⟨x, -, h⟩ := Except.bind_eq_ok h
    exact nomatch h
  case h_7 | h_8 | h_11 | h_12 =>
    obtain ⟨x, -, h⟩ := Except.bind_eq_ok h
    obtain ⟨y, -, h⟩ := Except.bind_eq_ok h
    exact nomatch h
  case h_6 =>
    obtain ⟨x, -, h⟩ := Except.bind_eq_ok h
    obtain ⟨y, -, h⟩ := Except.bind_eq_ok h
    obtain ⟨z, -, h⟩ := Except.bind_eq_ok h
    exact nomatch h
  case h_9 =>
    obtain ⟨x, -, h⟩ := Except.bind_eq_ok h
    split at h <;> exact nomatch h
  case h_14 =>
    split at h
    · obtain ⟨x, -, h⟩ := Except.bind_eq_ok h
      exact nomatch h
    · exact nomatch h
    · exact nomatch h
  case h_15 => cases hop : a.graph.op n <;> simp_all [Op.isCode, Op.isCfg, Op.hasEffect]

end Activation

namespace Schedule

def phisAt (s : Schedule) (g : Graph) (a : Activation) (d : BlockId) (n : NodeId) (v : Value) :
    Prop :=
  ∃ e, s.Listed g n e ∧ s.cfg.Dominates e d ∧ a.value n = some v

theorem means_unique {s : Schedule} {g : Graph} {a : Activation} {args : Array Value} {n : NodeId}
    {b : BlockId} {v w : Value} (hv : g.Means args (s.phisAt g a b) n v)
    (hw : g.Means args (s.phisAt g a b) n w) : v = w := by
  refine hv.unique (fun m x y hx hy => ?_) hw
  obtain ⟨-, -, -, hx⟩ := hx
  obtain ⟨-, -, -, hy⟩ := hy
  exact Option.some.inj (hx.symm.trans hy)

theorem means_of_dominates {s : Schedule} {g : Graph} {a : Activation} {args : Array Value}
    {n : NodeId} {b d : BlockId} {v : Value} (h : g.Means args (s.phisAt g a d) n v)
    (hdom : s.cfg.Dominates d b) : g.Means args (s.phisAt g a b) n v := by
  refine h.mono fun m x _ hx => ?_
  obtain ⟨e, he, hed, hx⟩ := hx
  exact ⟨e, he, hed.trans hdom, hx⟩

/-- In block `b` after the nodes `pre`, the nodes of the other dominators and of `pre` have the values
that the phis of their dominators give them. -/
structure Settled (s : Schedule) (g : Graph) (a : Activation) (b : BlockId) (pre : List NodeId) :
    Prop where
  routine : a.routine = ⟨g, s⟩
  size : a.values.size = g.size
  value : ∀ d n, s.Listed g n d → g.op n ≠ .phi → s.cfg.Dominates d b → (d = b → n ∈ pre) →
    (∃ v, a.value n = some v ∧ g.Means a.args (s.phisAt g a d) n v) ∧
      ∀ j ∈ (g.op n).reads, ∃ w, a.get (g.input n j) = .ok w
  unlisted : ∀ n, (∀ d, ¬ s.Listed g n d) → a.value n = none
  truthful : a.Truthful

variable {g : Graph} {s : Schedule} {a a' : Activation} {n i : NodeId} {b d : BlockId}
  {pre post : List NodeId} {v w : Value}

namespace Settled

theorem graph (h : s.Settled g a b pre) : a.graph = g := congrArg Routine.graph h.routine

theorem means_of_get (h : s.Settled g a b pre)
    (hknown : ∀ d, s.Listed g i d → s.cfg.Dominates d b ∧ (d = b → g.op i ≠ .phi → i ∈ pre))
    (hget : a.get (some i) = .ok w) : g.Means a.args (s.phisAt g a b) i w := by
  by_cases hlisted : ∃ d, s.Listed g i d
  · obtain ⟨d, hd⟩ := hlisted
    by_cases hphi : g.op i = .phi
    · cases hvalue : a.value i with
      | none =>
        obtain ⟨t, hop, -⟩ := (Activation.get_of_not_value hvalue).mp hget
        rw [h.graph, hphi] at hop
        exact nomatch hop
      | some v =>
        rw [Activation.get_of_value hvalue, Except.ok.injEq] at hget
        exact .phi hphi ⟨d, hd, (hknown d hd).1, hget ▸ hvalue⟩
    · obtain ⟨⟨v, hvalue, hmeans⟩, -⟩ := h.value d i hd hphi (hknown d hd).1 fun hdb =>
        (hknown d hd).2 hdb hphi
      rw [Activation.get_of_value hvalue, Except.ok.injEq] at hget
      exact hget ▸ means_of_dominates hmeans (hknown d hd).1
  · rw [not_exists] at hlisted
    obtain ⟨t, hop, hconst⟩ :=
      (Activation.get_of_not_value (h.unlisted i hlisted)).mp hget
    have hop' : g.op i = .const t := h.graph ▸ hop
    exact .node a h.graph rfl (by simp [hop']) (by simp [hop'])
      (by simp [hop', Op.reads]) ((Activation.pureValue_of_const hop).mpr hconst)

theorem phisAt_set (hn : g.op n ≠ .phi) {m : NodeId} (hm : g.op m = .phi)
    (h : s.phisAt g a d m w) : s.phisAt g (a.set n v) d m w := by
  obtain ⟨e, he, hdom, hvalue⟩ := h
  have hne : n ≠ m := by
    rintro rfl
    exact hn hm
  exact ⟨e, he, hdom, (Activation.value_set_of_ne hne).trans hvalue⟩

theorem set (h : s.Settled g a b pre) (hs : s.Runnable g) (hg : g.IsPure)
    (hlisted : s.Listed g n b) (hphi : g.op n ≠ .phi) (hsplit : s.nodes b = pre ++ n :: post)
    (hvalue : a.pureValue n = .ok (some v)) : s.Settled g (a.set n v) b (pre ++ [n]) := by
  have hlive := (hlisted.live hs).1
  have hproj : ∀ i, g.op n ≠ .proj i := by
    have := hg n hlive
    intro i hop
    simp [hop, Op.isStateful] at this
  have hlt : n < a.values.size := h.size ▸ (Graph.mem_live.mp hlive).1
  refine ⟨h.routine, (a.size_set n v).trans h.size, fun d m hm hmphi hdom hpre => ?_,
    fun m hm => ?_, ?_⟩
  · by_cases hmn : m = n
    · subst hmn
      obtain rfl := hm.unique hlisted hs
      refine ⟨⟨v, Activation.value_set_self hlt, ?_⟩, fun j hj => ?_⟩
      · refine Graph.Means.mono (.node a h.graph rfl hphi hproj ?_ hvalue)
          fun _ _ => phisAt_set hphi
        intro j hj i w hi hget
        refine h.means_of_get (fun e he => ?_) hget
        obtain ⟨hdom, hbefore⟩ := hlisted.input hs hphi hsplit hi (he.live hs).2
        exact ⟨hdom, fun heq _ => hbefore heq⟩
      · obtain ⟨w, hw⟩ := Activation.exists_read_of_pureValue hvalue j (h.graph ▸ hj)
        exact Activation.exists_get_set (h.graph ▸ hw)
    · have hpre' : d = b → m ∈ pre := fun hdb =>
        (List.mem_append.mp (hpre hdb)).resolve_right (by simpa using hmn)
      obtain ⟨⟨w, hw, hmeans⟩, hreads⟩ := h.value d m hm hmphi hdom hpre'
      refine ⟨⟨w, (Activation.value_set_of_ne (Ne.symm hmn)).trans hw,
        hmeans.mono fun _ _ => phisAt_set hphi⟩, fun j hj => ?_⟩
      obtain ⟨x, hx⟩ := hreads j hj
      exact Activation.exists_get_set hx
  · have hmn : n ≠ m := by
      rintro rfl
      exact hm b hlisted
    exact (Activation.value_set_of_ne hmn).trans (h.unlisted m hm)
  · exact h.truthful.set fun t ht => (Activation.pureValue_of_const ht).mp hvalue

theorem step (h : s.Settled g a b pre) (hs : s.Runnable g) (hg : g.IsPure) (hb : b < s.cfg.size)
    (hsplit : s.nodes b = pre ++ n :: post) (hstep : a.step n = .ok a') :
    s.Settled g a' b (pre ++ [n]) := by
  have hmem : n ∈ s.nodes b := hsplit ▸ by simp
  by_cases hcode : (g.op n).isCode ∧ g.op n ≠ .phi
  · have hlisted : s.Listed g n b := ⟨hb, hcode.1, hmem⟩
    have heffect : (g.op n).hasEffect = false := by
      rw [Bool.eq_false_iff]
      intro heffect
      exact absurd (hg n (hlisted.live hs).1) (by simp [Op.isStateful_of_hasEffect heffect])
    rw [← h.graph] at hcode heffect
    rcases Activation.step_cases hstep with ⟨hnone, -⟩ | ⟨v, hvalue, rfl⟩
    · exact absurd hnone (Activation.pureValue_ne_none hcode.1 hcode.2 heffect)
    · exact h.set hs hg hlisted (h.graph ▸ hcode.2) hsplit hvalue
  · have hnone : a.pureValue n = .ok none := by
      rw [not_and_or, Bool.not_eq_true, not_not, ← h.graph] at hcode
      exact hcode.elim Activation.pureValue_of_not_code Activation.pureValue_of_phi
    rcases Activation.step_cases hstep with ⟨-, rfl⟩ | ⟨v, hvalue, -⟩
    · refine { h with value := fun d m hm hmphi hdom hpre => h.value d m hm hmphi hdom fun hdb => ?_ }
      refine (List.mem_append.mp (hpre hdb)).resolve_right fun hmn => ?_
      rw [List.mem_singleton.mp hmn] at hm hmphi
      exact hcode ⟨hm.code, hmphi⟩
    · rw [hnone] at hvalue
      cases hvalue

theorem steps (hs : s.Runnable g) (hg : g.IsPure) (hb : b < s.cfg.size)
    (h : s.Settled g a b pre) (hsplit : s.nodes b = pre ++ post)
    (hsteps : post.foldlM Activation.step a = .ok a') : s.Settled g a' b (s.nodes b) := by
  induction post generalizing a pre with
  | nil =>
    obtain rfl := Except.ok.inj hsteps
    rwa [hsplit, List.append_nil]
  | cons n post ih =>
    rw [List.foldlM_cons] at hsteps
    obtain ⟨a₁, hstep, hsteps⟩ := Except.bind_eq_ok hsteps
    exact ih (h.step hs hg hb hsplit hstep) (by rw [hsplit]; simp) hsteps

theorem goTo (h : s.Settled g a d (s.nodes d)) (hd : d ∈ (s.cfg.block b).preds) :
    s.Settled g (a.goTo b) b [] where
  routine := h.routine
  size := h.size
  value e n hn hphi hdom hne := by
    have hneb : e ≠ b := fun heq => absurd (hne heq) List.not_mem_nil
    exact h.value e n hn hphi (hdom.of_pred hneb hd) fun hed => hed ▸ hn.mem
  unlisted := h.unlisted
  truthful := h.truthful

/-- Phis change no value that is settled: those of the block itself are used below it only. -/
theorem takePhis (h : s.Settled g a b []) (hs : s.Runnable g) (hab : a.block = b)
    {rest : List BlockId} (hwalk : s.cfg.Walk (b :: rest)) (hb : b < s.cfg.size)
    (htake : a.takePhis = .ok a') : s.Settled g a' b [] := by
  cases hprev : a.prev with
  | none =>
    rw [Activation.takePhis_of_first hprev, Except.ok.injEq] at htake
    exact htake ▸ h
  | some p =>
    have hsame := Activation.sameCall_takePhis htake
    obtain ⟨j, -, hkeep, hset⟩ := Activation.takePhis_spec hprev htake
    have hmem (n : NodeId) : n ∈ a.phiNodes ↔ n ∈ s.nodes b ∧ g.op n = .phi := by
      rw [Activation.mem_phiNodes, h.graph, h.routine, hab]
    have hisPhi {n : NodeId} (hn : g.op n ≠ .phi) : a'.value n = a.value n :=
      hkeep n fun hmem' => hn ((hmem n).mp hmem').2
    refine ⟨hsame.routine.trans h.routine, hsame.size.trans h.size,
      fun d n hn hphi hdom hne => ?_, fun n hn => ?_, fun n t hop => ?_⟩
    · have hdb : d ≠ b := fun heq => absurd (hne heq) List.not_mem_nil
      obtain ⟨⟨v, hv, hmeans⟩, hreads⟩ := h.value d n hn hphi hdom hne
      refine ⟨⟨v, (hisPhi hphi).trans hv, ?_⟩, fun j hj => ?_⟩
      · rw [hsame.args]
        refine hmeans.mono fun m w _ hw => ?_
        obtain ⟨e, he, hed, hw⟩ := hw
        refine ⟨e, he, hed, (hkeep m fun hm => hdb ?_).trans hw⟩
        have heb : e = b :=
          he.unique ⟨hb, he.code, ((hmem m).mp hm).1⟩ hs
        exact hdom.antisymm (heb ▸ hed) hwalk
      · obtain ⟨w, hw⟩ := hreads j hj
        exact Activation.exists_get_takePhis htake hw
    · rw [hkeep n fun hm => ?_]
      · exact h.unlisted n hn
      · obtain ⟨hmem, hphi⟩ := (hmem n).mp hm
        exact hn b ⟨hb, by simp [hphi, Op.isCode, Op.isCfg], hmem⟩
    · rw [hsame.graph, h.graph] at hop
      have hn : a'.value n = a.value n := hisPhi (by simp [hop])
      have := h.truthful n t (h.graph ▸ hop)
      unfold Activation.value at hn
      rwa [hn]

theorem pureValue (h : s.Settled g a b (s.nodes b)) (hs : s.Runnable g) (hn : s.Listed g n d)
    (hphi : g.op n ≠ .phi) (hdom : s.cfg.Dominates d b) : a.pureValue n = .ok (a.value n) := by
  obtain ⟨⟨v, hv, hmeans⟩, hreads⟩ := h.value d n hn hphi hdom fun hdb => hdb ▸ hn.mem
  obtain ⟨pre, post, hsplit⟩ := List.append_of_mem hn.mem
  cases hmeans with
  | phi hop => exact absurd hop hphi
  | node e hgraph hargs _ hproj hreadsE hvalue =>
    rw [hv, ← hvalue]
    refine Graph.Means.pureValue_eq h.graph hgraph hargs.symm hproj
      (fun j hj i w w' hi hw hw' => ?_) hreads
      fun j hj => hgraph ▸ Activation.exists_read_of_pureValue hvalue j (hgraph ▸ hj)
    refine means_unique (h.means_of_get (fun c hc => ?_) hw)
      (means_of_dominates (hreadsE j hj i w' hi hw') hdom)
    exact ⟨(hn.input hs hphi hsplit hi (hc.live hs).2).1.trans hdom, fun hcb _ => hcb ▸ hc.mem⟩

end Settled

end Schedule

end SeaNodes
