import SeaNodes.Proofs.Flow.Layout
import SeaNodes.Proofs.Schedule.Available
import SeaNodes.Proofs.Select.Nodes

namespace SeaNodes

namespace Graph

/-- The node has a value that is not a state of memory. -/
def hasValue (g : Graph) (n : NodeId) : Bool :=
  match g.op n with
  | .const _ | .param _ | .cast | .arith _ | .bit _ | .floatArith _ | .neg | .not | .cmp _
  | .floatCmp _ | .toFloat | .load | .alloc => true
  | .phi => g.ty (some n) != .mem
  | .proj 1 =>
    g.op? (g.input n 0) == some .callEnd && g.op? (g.inputOf (g.input n 0) 0) == some .call
  | _ => false

def LeadsToValue (g : Graph) (e : Edge) : Prop := ∃ n ∈ g.live, e = some n ∧ g.hasValue n

instance (g : Graph) (e : Edge) : Decidable (g.LeadsToValue e) :=
  inferInstanceAs (Decidable (∃ n ∈ g.live, e = some n ∧ g.hasValue n = true))

/-- The end of a call hangs on one node. -/
def SingleEnds (g : Graph) : Prop :=
  ∀ n ∈ g.live, g.op n = .callEnd → (g.inputs n).size ≤ 1

instance (g : Graph) : Decidable g.SingleEnds :=
  inferInstanceAs (Decidable (∀ n ∈ g.live, g.op n = .callEnd → (g.inputs n).size ≤ 1))

/-- A live result of a call. -/
def isResult (g : Graph) (n : NodeId) : Bool := g.op n == .proj 1 && !g.isDead n

end Graph

/-- What a schedule has to offer to the selection of a function with `count` parameters: operands are
nodes with values, phis have one for each predecessor, all parameters are passed, and calls have one
result. -/
structure Schedule.Selectable (s : Schedule) (g : Graph) (count : Nat) : Prop where
  operands : ∀ n ∈ g.live, ∀ e ∈ g.valueInputs n, g.LeadsToValue e
  phis : ∀ n ∈ g.live, g.op n = .phi → g.ty (some n) ≠ .mem → ∀ b ∈ s.blockOf.get n,
    ∀ j < (s.cfg.block b).preds.length, g.LeadsToValue (g.input n (j + 1))
  params : ∀ n ∈ g.live, ∀ i, g.op n = .param i → i < count
  results : ∀ e ∈ g.live, g.op e = .callEnd → ∀ u ∈ g.usesOf e, ∀ v ∈ g.usesOf e,
    g.isResult u → g.isResult v → u = v

instance (s : Schedule) (g : Graph) (count : Nat) : Decidable (s.Selectable g count) :=
  decidable_of_iff ((∀ n ∈ g.live, ∀ e ∈ g.valueInputs n, g.LeadsToValue e) ∧
      (∀ n ∈ g.live, g.op n = .phi → g.ty (some n) ≠ .mem → ∀ b ∈ s.blockOf.get n,
        ∀ j < (s.cfg.block b).preds.length, g.LeadsToValue (g.input n (j + 1))) ∧
      (∀ n ∈ g.live, ∀ i ∈ (match g.op n with | .param i => some i | _ => none), i < count) ∧
      ∀ e ∈ g.live, g.op e = .callEnd → ∀ u ∈ g.usesOf e, ∀ v ∈ g.usesOf e,
        g.isResult u → g.isResult v → u = v) <| by
    refine ⟨fun ⟨h₁, h₂, h₃, h₄⟩ => ⟨h₁, h₂, fun n hn i hi => h₃ n hn i (by rw [hi]; rfl), h₄⟩,
      fun h => ⟨h.operands, h.phis, fun n hn i hi => h.params n hn i ?_, h.results⟩⟩
    split at hi
    · exact Option.some.inj hi ▸ ‹_›
    · exact nomatch hi

/-- A schedule of a graph from which instructions can be selected. -/
structure Schedule.Supplies (s : Schedule) (g : Graph) (count : Nat) : Prop where
  wellFormed : g.WellFormed
  ends : g.SingleEnds
  covers : s.Covers g
  numbered : s.cfg.Numbered
  succsNoted : s.cfg.SuccsNoted
  floats : ∀ n ∈ g.live, g.floats n → (s.blockOf.get n).isSome
  placed : ∀ b < s.cfg.size, ∀ n ∈ s.nodes b, n ∈ g.live ∧ s.blockOf.get n = some b
  selectable : s.Selectable g count

/-- Where the value of `m` comes from once the nodes of `done` were selected. -/
inductive Source (g : Graph) (count : Nat) (done : List NodeId) (m : NodeId) : Prop where
  | const {t : Ty} (hop : g.op m = .const t)
  | param {i : Nat} (hm : m ∈ g.live) (hop : g.op m = .param i) (hi : i < count)
  | node {x : NodeId} (hx : x ∈ done) (hdef : g.defines? x = some m)

theorem Source.mono {g : Graph} {count : Nat} {done done' : List NodeId} {m : NodeId}
    (h : Source g count done m) (hdone : ∀ x ∈ done, x ∈ done') : Source g count done' m := by
  cases h with
  | const hop => exact .const hop
  | param hm hop hi => exact .param hm hop hi
  | node hx hdef => exact .node (hdone _ hx) hdef

namespace Graph

variable {g : Graph} {n m : NodeId} {e : Edge}

theorem mem_valueInputs (h : e ∈ g.valueInputs n) :
    (∃ j, e = g.input n j) ∧ g.op n ≠ .phi ∧ (g.op n).isRegion = false := by
  unfold valueInputs at h
  cases hop : g.op n
  all_goals
    rw [hop] at h
    simp only [List.mem_cons, List.not_mem_nil, or_false] at h
  case call =>
    obtain ⟨k, hk⟩ := List.mem_iff_getElem?.mp h
    rw [List.getElem?_drop, Array.getElem?_toList] at hk
    exact ⟨⟨3 + k, by rw [input_eq_getElem?, hk, Option.join_some]⟩, nofun, rfl⟩
  case ret =>
    obtain ⟨v, hv, rfl⟩ := List.mem_map.mp h
    exact ⟨⟨2, (Option.filter_eq_some_iff.mp (Option.mem_toList.mp hv)).1.symm⟩, nofun, rfl⟩
  all_goals rcases h with rfl | rfl | rfl <;> exact ⟨⟨_, rfl⟩, nofun, rfl⟩

theorem WellFormed.isFused_eq_false (hg : g.WellFormed) (hn : n ∈ g.live) {j : Nat}
    (hi : g.input n j = some m) (hfork : g.op n ≠ .fork) : g.isFused m = false := by
  have huse : n ∈ g.usesOf m := hg.mem_usesOf hn hi
  by_contra hfused
  have hall : (g.usesOf m).all (g.op · == .fork) := by
    unfold isFused at hfused
    split at hfused <;> simp_all
  rw [Array.all_eq_true_iff_forall_mem] at hall
  exact hfork (by simpa using hall n huse)

theorem isFused_eq_false_of_op (hcmp : ∀ op, g.op m ≠ .cmp op) (hfloat : ∀ op, g.op m ≠ .floatCmp op) :
    g.isFused m = false := by
  unfold isFused
  split
  case h_1 op hop => exact absurd hop (hcmp op)
  case h_2 op hop => exact absurd hop (hfloat op)
  case h_3 => rfl

theorem input_zero_of_size (hsize : (g.inputs n).size ≤ 1) (hm : some m ∈ g.inputs n) :
    g.input n 0 = some m := by
  obtain ⟨j, hj, hget⟩ := Array.mem_iff_getElem.mp hm
  obtain rfl : j = 0 := by omega
  rw [input_eq_getElem?, Array.getElem?_eq_getElem hj, hget]
  rfl

end Graph

namespace Schedule

variable {g : Graph} {s : Schedule} {count : Nat} {n m r x : NodeId} {e : Edge} {b c d q : BlockId}
  {pre post pre' post' : List NodeId}

theorem supplies_of_schedule (hg : g.WellFormed) (hjoins : g.JoinsLater) (hends : g.SingleEnds)
    (hs : g.schedule = .ok s) (hverify : s.verify g = .ok ()) (hselectable : s.Selectable g count) :
    s.Supplies g count := by
  obtain ⟨cfg, hcfg, hof⟩ := ofGraph_of_schedule hs
  have hbuilt := hof.built hg hcfg
  obtain ⟨loops, hloops⟩ := hof.cfg
  refine ⟨hg, hends, covers_of_schedule hg hs hverify, ?_, hbuilt.succsNoted hg hjoins, hof.floats,
    fun b hb n hn => hof.placed hg hbuilt hb hn, hselectable⟩
  rw [hloops]
  exact (Cfg.numbered_of_ofGraph hg hjoins hcfg).setLoopDepths loops

namespace Supplies

theorem lt_of_dominates (h : s.Supplies g count) (hb : b < s.cfg.size)
    (hdom : s.cfg.Dominates c b) : c < s.cfg.size := by
  obtain ⟨rest, hwalk, -⟩ := h.numbered.exists_walk_before hb
  exact Schedule.lt_of_dominates h.covers.runnable hwalk hdom

theorem exists_block (h : s.Supplies g count) (hm : m ∈ g.live) (hvalue : g.hasValue m) :
    (g.op m).isCode ∧ ∃ c, s.blockOf.get m = some c := by
  have hop : (g.op m).isCode ∧ g.op m ≠ .stop ∧ g.op m ≠ .dead ∧ g.op m ≠ .scope := by
    unfold Graph.hasValue at hvalue
    cases hop : g.op m <;> simp_all [Op.isCode, Op.isCfg]
  refine ⟨hop.1, Option.isSome_iff_exists.mp ?_⟩
  exact h.covers.isSome_blockOf h.floats hm hop.2.1 hop.2.2.1 hop.2.2.2

theorem dominates_of_input (h : s.Supplies g count) (hn : n ∈ g.live) (hb : s.blockOf.get n = some b)
    (hphi : g.op n ≠ .phi) (hregion : (g.op n).isRegion = false) {j : Nat}
    (hi : g.input n j = some m) (hc : s.blockOf.get m = some c) : s.cfg.Dominates c b := by
  obtain ⟨p, hp, hdom⟩ := dominates_of_verify h.covers.runnable.verify hn hb hregion hi
    (fun hop => hphi hop.1) hc
  rw [neededAt?, if_neg hphi, Option.some.injEq] at hp
  exact h.covers.runnable.dom c b (hp ▸ hdom)

theorem block_of_callEnd (h : s.Supplies g count) (hr : r ∈ g.live) (hend : g.op r = .callEnd)
    (hx : g.input r 0 = some x) (hcall : g.op x = .call) : ∃ d, r ∈ (s.cfg.block d).ctrl ∧
      s.blockOf.get r = some d ∧ s.blockOf.get x = some d ∧ x ∈ g.live := by
  obtain ⟨hsome, hblock⟩ := h.covers.pinned.ctrl r hr (by rw [hend]; rfl) (by simp [hend])
    (by simp [hend])
  obtain ⟨d, hd⟩ := Option.isSome_iff_exists.mp hsome
  have hctrl := (h.covers.built.chained.blockOf r d).mp (hblock ▸ hd)
  obtain ⟨_, _, hsplit⟩ := h.covers.built.before_callEnd h.wellFormed hctrl hend hx
  have hxctrl : x ∈ (s.cfg.block d).ctrl := by
    rw [hsplit]
    simp
  have hxlive := h.covers.built.chained.live d x hxctrl
  refine ⟨d, hctrl, hd, ?_, hxlive⟩
  rw [(h.covers.pinned.ctrl x hxlive (by rw [hcall]; rfl) (by simp [hcall]) (by simp [hcall])).2]
  exact (h.covers.built.chained.blockOf x d).mpr hxctrl

theorem result_of_callResult? (h : s.Supplies g count) (hx : x ∈ g.live)
    (hr : g.callResult? x = some r) : ∃ e ∈ g.live, g.op e = .callEnd ∧ g.input e 0 = some x ∧
      r ∈ g.live ∧ g.op r = .proj 1 ∧ ∃ j, g.input r j = some e := by
  obtain ⟨e, he, hr⟩ := Option.bind_eq_some_iff.mp hr
  have hend : g.op e = .callEnd := by simpa using Array.find?_some he
  obtain ⟨hinput, hlive⟩ := h.wellFormed.user_live hx (Array.mem_of_find?_eq_some he)
  have hproj : g.op r = .proj 1 := by
    have := Array.find?_some hr
    simp_all
  obtain ⟨hinput', hlive'⟩ := h.wellFormed.user_live hlive (Array.mem_of_find?_eq_some hr)
  obtain ⟨j, hj⟩ := Array.mem_iff_getElem?.mp hinput'
  exact ⟨e, hlive, hend, Graph.input_zero_of_size (h.ends e hlive hend) hinput,
    hlive', hproj, j, by rw [Graph.input_eq_getElem?, hj, Option.join_some]⟩

theorem callResult?_eq_some (h : s.Supplies g count) (hm : m ∈ g.live) (hop : g.op m = .proj 1)
    (he : g.input m 0 = some r) (hend : g.op r = .callEnd) (hx : g.input r 0 = some x)
    (hcall : g.op x = .call) : g.callResult? x = some m := by
  have hrlive : r ∈ g.live :=
    h.wellFormed.input_live hm he (Graph.lt_size_of_op_ne (by simp [hend]))
  obtain ⟨d, hctrl, hrd, -, hxlive⟩ := h.block_of_callEnd hrlive hend hx hcall
  have hfound {e : NodeId} (he : (g.usesOf x).find? (g.op · == .callEnd) = some e) : e = r := by
    have hop' : g.op e = .callEnd := by simpa using Array.find?_some he
    obtain ⟨hinput, hlive⟩ := h.wellFormed.user_live hxlive (Array.mem_of_find?_eq_some he)
    have hinput := Graph.input_zero_of_size (h.ends e hlive hop') hinput
    obtain ⟨d', hctrl', -, -⟩ := h.block_of_callEnd hlive hop' hinput hcall
    exact h.covers.built.eq_of_callEnd h.wellFormed hctrl' hop' hinput hctrl hend hx
  unfold Graph.callResult?
  cases hfind : (g.usesOf x).find? (g.op · == .callEnd) with
  | none =>
    rw [Array.find?_eq_none] at hfind
    exact absurd hend (by simpa using hfind r (h.wellFormed.mem_usesOf hrlive hx))
  | some e =>
    obtain rfl := hfound hfind
    have hresult : g.isResult m := by simp [Graph.isResult, hop, (Graph.mem_live.mp hm).2]
    cases hproj : (g.usesOf e).find? fun u => g.op u == .proj 1 && !g.isDead u with
    | none =>
      rw [Array.find?_eq_none] at hproj
      exact absurd hresult (hproj m (h.wellFormed.mem_usesOf hm he))
    | some u =>
      refine hproj.trans (congrArg some ?_)
      exact h.selectable.results e hrlive hend u (Array.mem_of_find?_eq_some hproj) m
        (h.wellFormed.mem_usesOf hm he) (Array.find?_some hproj) hresult

/-- What a node defines is placed below it, and it is a phi only if the node is. -/
theorem placed_of_defines (h : s.Supplies g count) (hn : n ∈ g.live)
    (hb : s.blockOf.get n = some b) (hr : g.defines? n = some r) :
    (∃ d, s.blockOf.get r = some d ∧ s.cfg.Dominates b d) ∧ (g.op r = .phi → r = n) := by
  by_cases hcall : g.op n = .call
  · simp only [Graph.defines?, hcall] at hr
    obtain ⟨e, he, hend, hx, hrlive, hop, j, hj⟩ := h.result_of_callResult? hn hr
    obtain ⟨d, -, hed, hnd, -⟩ := h.block_of_callEnd he hend hx hcall
    obtain rfl : d = b := Option.some.inj (hnd.symm.trans hb)
    obtain ⟨c, hc⟩ := Option.isSome_iff_exists.mp <|
      h.covers.isSome_blockOf h.floats hrlive (by simp [hop]) (by simp [hop]) (by simp [hop])
    refine ⟨⟨c, hc, ?_⟩, fun hphi => by simp [hop] at hphi⟩
    exact h.dominates_of_input hrlive hc (by simp [hop]) (by simp [hop, Op.isRegion]) hj hed
  · obtain rfl : r = n := by
      unfold Graph.defines? at hr
      split at hr <;> simp_all
    exact ⟨⟨b, hb, .refl _ _⟩, fun _ => rfl⟩

theorem blockOf_param (h : s.Supplies g count) (hm : m ∈ g.live) {i : Nat}
    (hop : g.op m = .param i) : s.blockOf.get m = some Cfg.entry := by
  have hdata := h.covers.pinned.data m hm (by simp [hop, Op.isCfg])
    (by simp [Graph.floats, hop, Op.isFloating])
  simp only [dataBlock?, hop] at hdata
  exact (Except.ok.inj hdata).symm

theorem source_of_mem (h : s.Supplies g count) (hc : c < s.cfg.size) (hm : m ∈ g.live)
    (hvalue : g.hasValue m) (hfused : g.isFused m = false) (hsplit : s.nodes c = pre ++ post)
    (hmem : m ∈ pre) : Source g count pre m := by
  have hcode := (h.exists_block hm hvalue).1
  unfold Graph.hasValue at hvalue
  split at hvalue
  case h_1 t hop => exact .const hop
  case h_2 i hop => exact .param hm hop (h.selectable.params m hm i hop)
  case h_14 hop =>
    exact .node hmem (by simpa [Graph.defines?, hop] using hvalue)
  case h_15 hop =>
    rw [Bool.and_eq_true, beq_iff_eq, beq_iff_eq] at hvalue
    cases he : g.input m 0 with
    | none => simp [he, Graph.op?] at hvalue
    | some r =>
      rw [he] at hvalue
      cases hx : g.input r 0 with
      | none => simp [hx, Graph.inputOf, Graph.op?] at hvalue
      | some x =>
        have hend : g.op r = .callEnd := Option.some.inj hvalue.1
        have hcall : g.op x = .call := by simpa [Graph.inputOf, hx, Graph.op?] using hvalue.2
        obtain ⟨p, q, rfl⟩ := List.append_of_mem hmem
        rw [List.append_assoc, List.cons_append] at hsplit
        have hbefore := (h.covers.mem_of_call h.wellFormed ⟨hc, hcode, by rw [hsplit]; simp⟩ hop he
          hend hx (by rw [hcall]; rfl) hsplit).2
        refine .node (List.mem_append_left _ hbefore) ?_
        rw [Graph.defines?, hcall]
        exact h.callResult?_eq_some hm hop he hend hx hcall
  case h_16 => cases hvalue
  all_goals exact .node hmem (by simp_all [Graph.defines?])

theorem before_of_input (h : s.Supplies g count) (hb : b < s.cfg.size)
    (hsplit : s.nodes b = pre ++ n :: post) (hphi : g.op n ≠ .phi)
    (hregion : (g.op n).isRegion = false) {j : Nat} (hi : g.input n j = some m)
    (hc : s.blockOf.get m = some c) : s.cfg.Dominates c b ∧ (c = b → m ∈ pre) := by
  obtain ⟨hlive, hplaced⟩ := h.placed b hb n (by rw [hsplit]; simp)
  exact ⟨h.dominates_of_input hlive hplaced hphi hregion hi hc, fun hcb =>
    before_of_verify h.covers.runnable.verify hb hsplit hphi hregion hi (hcb ▸ hc)⟩

end Supplies

def FromAbove (s : Schedule) (g : Graph) (count : Nat) (b : BlockId) (pre : List NodeId)
    (m : NodeId) : Prop :=
  ∃ c, s.blockOf.get m = some c ∧ s.cfg.Dominates c b ∧
    Source g count (if c = b then pre else s.nodes c) m

namespace Supplies

theorem fromAbove (h : s.Supplies g count) (hb : b < s.cfg.size) (hsplit : s.nodes b = pre ++ post)
    (hm : m ∈ g.live) (hvalue : g.hasValue m) (hfused : g.isFused m = false)
    (hc : s.blockOf.get m = some c) (hdom : s.cfg.Dominates c b) (hpre : c = b → m ∈ pre) :
    s.FromAbove g count b pre m := by
  refine ⟨c, hc, hdom, ?_⟩
  split_ifs with hcb
  · subst hcb
    exact h.source_of_mem hb hm hvalue hfused hsplit (hpre rfl)
  · have hlt := h.lt_of_dominates hb hdom
    refine h.source_of_mem hlt hm hvalue hfused (List.append_nil _).symm ?_
    exact (listed_of_placed h.covers.runnable hlt hm (h.exists_block hm hvalue).1 hc).mem

theorem fromAbove_of_operand (h : s.Supplies g count) (hb : b < s.cfg.size)
    (hsplit : s.nodes b = pre ++ n :: post) (he : e ∈ g.valueInputs n)
    (hfork : g.op n = .fork → ∀ m ∈ e, g.isFused m = false) :
    ∃ m, e = some m ∧ s.FromAbove g count b pre m := by
  obtain ⟨⟨j, hj⟩, hphi, hregion⟩ := Graph.mem_valueInputs he
  have hn := (h.placed b hb n (by rw [hsplit]; simp)).1
  obtain ⟨m, hm, rfl, hvalue⟩ := h.selectable.operands n hn e he
  obtain ⟨c, hc⟩ := (h.exists_block hm hvalue).2
  obtain ⟨hdom, hpre⟩ := h.before_of_input hb hsplit hphi hregion hj.symm hc
  refine ⟨m, rfl, h.fromAbove hb hsplit hm hvalue ?_ hc hdom hpre⟩
  by_cases hop : g.op n = .fork
  · exact hfork hop m rfl
  · exact h.wellFormed.isFused_eq_false hn hj.symm hop

theorem fromAbove_trans (h : s.Supplies g count) (hb : b < s.cfg.size)
    (hsplit : s.nodes b = pre ++ post) (hc : s.nodes c = pre' ++ m :: post')
    (hdom : s.cfg.Dominates c b) (hpre : c = b → m ∈ pre) (hx : s.FromAbove g count c pre' x) :
    s.FromAbove g count b pre x := by
  obtain ⟨d, hd, hdc, hsource⟩ := hx
  refine ⟨d, hd, hdc.trans hdom, ?_⟩
  split_ifs with hdb
  · obtain ⟨rest, hwalk, -⟩ := h.numbered.exists_walk_before hb
    obtain rfl : c = b := hdom.antisymm (hdb ▸ hdc) hwalk
    rw [if_pos hdb] at hsource
    obtain ⟨p, q, rfl⟩ := List.append_of_mem (hpre rfl)
    rw [List.append_assoc, List.cons_append] at hsplit
    have hnodup := h.covers.runnable.lists.nodup c hb
    rw [hc, List.nodup_middle, List.nodup_cons, List.mem_append, not_or] at hnodup
    obtain rfl := ((List.append_cons_inj_of_notMem hnodup.1.1 hnodup.1.2).mp
      (hc.symm.trans hsplit)).1
    exact hsource.mono fun y hy => List.mem_append_left _ hy
  · refine hsource.mono fun y hy => ?_
    split_ifs at hy with hdc
    · rw [hdc, hc]
      exact List.mem_append_left _ hy
    · exact hy

/-- The values that a node reads are there where it is selected. A branch may be far from the comparison
whose operands it reads. -/
theorem fromAbove_of_read (h : s.Supplies g count) (hb : b < s.cfg.size)
    (hsplit : s.nodes b = pre ++ n :: post) (he : e ∈ g.valuesRead n) :
    ∃ m, e = some m ∧ s.FromAbove g count b pre m := by
  unfold Graph.valuesRead at he
  split_ifs at he with hfork
  case neg => exact h.fromAbove_of_operand hb hsplit he fun hop => absurd hop hfork
  case pos =>
    have hinput : g.input n 1 ∈ g.valueInputs n := by simp [Graph.valueInputs, hfork]
    obtain ⟨m, hm, heq, hvalue⟩ :=
      h.selectable.operands n (h.placed b hb n (by rw [hsplit]; simp)).1 _ hinput
    obtain ⟨hcode, c, hc⟩ := h.exists_block hm hvalue
    obtain ⟨hdom, hpre⟩ := h.before_of_input hb hsplit (by simp [hfork])
      (by simp [hfork, Op.isRegion]) heq hc
    have hlt := h.lt_of_dominates hb hdom
    obtain ⟨pre', post', hsplit'⟩ := List.append_of_mem
      (listed_of_placed h.covers.runnable hlt hm hcode hc).mem
    -- an operand of the comparison comes from above it, hence from above the branch
    have hcompared (hop : g.op m ≠ .fork) (he : e ∈ g.valueInputs m) :
        ∃ x, e = some x ∧ s.FromAbove g count b pre x := by
      obtain ⟨x, hx, habove⟩ := h.fromAbove_of_operand hlt hsplit' he fun hfork => absurd hfork hop
      exact ⟨x, hx, h.fromAbove_trans hb hsplit hsplit' hdom hpre habove⟩
    unfold Graph.tested at he
    rw [heq] at he
    split at he
    case h_1 op hop | h_2 op hop =>
      have hop : g.op m = _ := Option.some.inj hop
      exact hcompared (by simp [hop]) (by simpa [Graph.valueInputs, hop, Graph.inputOf] using he)
    case h_3 hcmp hfloat =>
      rw [List.mem_singleton.mp he]
      refine ⟨m, rfl, h.fromAbove hb hsplit hm hvalue ?_ hc hdom hpre⟩
      exact Graph.isFused_eq_false_of_op (fun op hop => hcmp op (congrArg some hop))
        fun op hop => hfloat op (congrArg some hop)

theorem fromAbove_of_phi (h : s.Supplies g count) (hb : b < s.cfg.size) (hn : n ∈ s.nodes b)
    (hop : g.op n = .phi) (hty : g.ty (some n) ≠ .mem) {j : Nat}
    (hq : (s.cfg.block b).preds[j]? = some q) :
    ∃ m, g.input n (j + 1) = some m ∧ s.FromAbove g count q (s.nodes q) m := by
  obtain ⟨hlive, hplaced⟩ := h.placed b hb n hn
  obtain ⟨m, hm, hi, hvalue⟩ := h.selectable.phis n hlive hop hty b hplaced j
    (List.getElem?_eq_some_iff.mp hq).1
  obtain ⟨hcode, c, hc⟩ := h.exists_block hm hvalue
  have hrunnable := h.covers.runnable
  have hlisted : s.Listed g n b := ⟨hb, by simp [hop, Op.isCode, Op.isCfg], hn⟩
  have hdom := hlisted.dominates_of_phi hrunnable hop hq hi hc
  have hqlt := h.covers.built.pred_lt (List.mem_of_getElem? hq)
  refine ⟨m, hi, h.fromAbove hqlt (List.append_nil _).symm hm hvalue ?_ hc hdom fun hcq => ?_⟩
  · exact h.wellFormed.isFused_eq_false hlive hi (by simp [hop])
  · exact (listed_of_placed hrunnable hqlt hm hcode (hcq ▸ hc)).mem

end Supplies

end Schedule

section

variable {τ : Type}

namespace MachFunction

def Makes (f : MachFunction τ) (R : Nat → VReg → Prop) (a : Nat) (v : VReg) : Prop :=
  v ∈ definedIn (f.block a).insts ∨ R a v

/-- The register is known at the start of block `b`. -/
def KnownBefore (f : MachFunction τ) (R : Nat → VReg → Prop) (b : Nat) (v : VReg) : Prop :=
  R b v ∨ ∃ a, a ≠ b ∧ f.Dominates a b ∧ f.Makes R a v

/-- The register is known at the end of block `b`. -/
def KnownAfter (f : MachFunction τ) (R : Nat → VReg → Prop) (b : Nat) (v : VReg) : Prop :=
  ∃ a, f.Dominates a b ∧ f.Makes R a v

/-- No edge changed, and no register was lost. -/
structure Grows (f f' : MachFunction τ) : Prop where
  preds : ∀ b, (f'.block b).preds = (f.block b).preds
  succs : ∀ b, (f'.block b).succs = (f.block b).succs
  insts : ∀ b, definedIn (f.block b).insts ⊆ definedIn (f'.block b).insts

variable {f f' : MachFunction τ} {R R' : Nat → VReg → Prop} {a b d : Nat} {v : VReg}

theorem Dominates.refl (f : MachFunction τ) (b : Nat) : f.Dominates b b :=
  fun _ _ => List.mem_cons_self

theorem Walk.of_append {rest : List Nat} (pre : List Nat) (h : f.Walk (pre ++ b :: rest)) :
    f.Walk (b :: rest) := by
  induction pre with
  | nil => exact h
  | cons x pre ih =>
    cases pre with
    | nil =>
      cases h with
      | step _ hrest => exact hrest
    | cons y pre =>
      cases h with
      | step _ hrest => exact ih hrest

theorem Dominates.trans (hab : f.Dominates a b) (hbd : f.Dominates b d) : f.Dominates a d := by
  intro rest hwalk
  obtain ⟨pre, post, heq⟩ := List.append_of_mem (hbd rest hwalk)
  rw [heq] at hwalk ⊢
  exact List.mem_append_right pre (hab post (hwalk.of_append pre))

namespace Grows

theorem walk (h : f.Grows f') {walk : List Nat} (hwalk : f'.Walk walk) : f.Walk walk := by
  induction hwalk with
  | entry => exact .entry
  | step hp _ ih => exact .step (by rwa [h.succs, h.preds] at hp) ih

theorem dominates (h : f.Grows f') (hdom : f.Dominates a b) : f'.Dominates a b :=
  fun rest hwalk => hdom rest (h.walk hwalk)

theorem trans {f'' : MachFunction τ} (h : f.Grows f') (h' : f'.Grows f'') : f.Grows f'' where
  preds b := (h'.preds b).trans (h.preds b)
  succs b := (h'.succs b).trans (h.succs b)
  insts b := List.Subset.trans (h.insts b) (h'.insts b)

theorem makes (h : f.Grows f') (hR : ∀ a v, R a v → R' a v) (hv : f.Makes R a v) :
    f'.Makes R' a v :=
  hv.imp (fun hv => h.insts a hv) (hR a v)

theorem knownBefore (h : f.Grows f') (hR : ∀ a v, R a v → R' a v) (hv : f.KnownBefore R b v) :
    f'.KnownBefore R' b v :=
  hv.imp (hR b v) fun ⟨a, hne, hdom, ha⟩ => ⟨a, hne, h.dominates hdom, h.makes hR ha⟩

theorem knownAfter (h : f.Grows f') (hR : ∀ a v, R a v → R' a v) (hv : f.KnownAfter R b v) :
    f'.KnownAfter R' b v :=
  let ⟨a, hdom, ha⟩ := hv
  ⟨a, h.dominates hdom, h.makes hR ha⟩

theorem of_blocks (h : f'.blocks = f.blocks) : f.Grows f' := by
  have hblock (b : Nat) : f'.block b = f.block b := congrArg (·.getD b default) h
  exact ⟨fun b => by rw [hblock], fun b => by rw [hblock], fun b => by
    rw [hblock]
    exact List.Subset.refl _⟩

theorem modifyBlock {put : MachBlock τ → MachBlock τ} (i : Nat)
    (hpreds : (put (f.block i)).preds = (f.block i).preds)
    (hsuccs : (put (f.block i)).succs = (f.block i).succs)
    (hinsts : definedIn (f.block i).insts ⊆ definedIn (put (f.block i)).insts) :
    f.Grows (f.modifyBlock i put) := by
  have hblock (b : Nat) := f.block_modifyBlock i b put
  refine ⟨fun b => ?_, fun b => ?_, fun b => ?_⟩ <;> rw [hblock] <;> split_ifs with hb
  · exact hb.1 ▸ hpreds
  · rfl
  · exact hb.1 ▸ hsuccs
  · rfl
  · exact hb.1 ▸ hinsts
  · exact List.Subset.refl _

end Grows

theorem knownAfter_of (h : f.KnownBefore R b v ∨ v ∈ definedIn (f.block b).insts) :
    f.KnownAfter R b v := by
  rcases h with (hv | ⟨a, -, hdom, hv⟩) | hv
  · exact ⟨b, .refl f b, .inr hv⟩
  · exact ⟨a, hdom, hv⟩
  · exact ⟨b, .refl f b, .inl hv⟩

theorem KnownAfter.trans (h : f.KnownAfter R a v) (hdom : f.Dominates a b) : f.KnownAfter R b v :=
  let ⟨d, hda, hv⟩ := h
  ⟨d, hda.trans hdom, hv⟩

end MachFunction

/-- The blocks have the edges of the schedule. -/
structure MachFunction.Outlined (f : MachFunction τ) (s : Schedule) : Prop where
  size : f.blocks.size = s.layout.length
  preds : ∀ b ∈ s.layout, (f.block (s.layout.idxOf b)).preds =
    (s.cfg.block b).preds.map (s.layout.idxOf ·)
  succs : ∀ b ∈ s.layout, (f.block (s.layout.idxOf b)).succs =
    (s.cfg.block b).succs.map (s.layout.idxOf ·)

theorem MachFunction.Outlined.grows {f f' : MachFunction τ} {s : Schedule} (h : f.Outlined s)
    (hgrows : f.Grows f') (hsize : f'.blocks.size = f.blocks.size) : f'.Outlined s where
  size := hsize.trans h.size
  preds b hb := (hgrows.preds _).trans (h.preds b hb)
  succs b hb := (hgrows.succs _).trans (h.succs b hb)

theorem filterMap_idxOf? {l bs : List BlockId} (h : ∀ b ∈ bs, b ∈ l) :
    bs.filterMap (l.idxOf? ·) = bs.map (l.idxOf ·) := by
  rw [← List.filterMap_eq_map]
  refine List.filterMap_congr fun b hb => ?_
  rw [List.idxOf?, List.findIdx?_eq_guard_findIdx_lt]
  exact Option.guard_eq_some_iff.mpr ⟨rfl, decide_eq_true (List.idxOf_lt_length_iff.mpr (h b hb))⟩

namespace Schedule.Supplies

variable {s : Schedule} {g : Graph} {count : Nat} {f : MachFunction τ} {b c p : BlockId} {i : Nat}
  {walk : List Nat}

theorem mem_layout (h : s.Supplies g count) : b ∈ s.layout ↔ b < s.cfg.size := h.numbered.mem_rpo b

theorem idxOf_eq (h : s.Supplies g count) (hi : s.layout[i]? = some b) : s.layout.idxOf b = i := by
  obtain ⟨hlt, rfl⟩ := List.getElem?_eq_some_iff.mp hi
  exact h.numbered.nodup.idxOf_getElem i hlt

theorem eq_of_idxOf (h : s.Supplies g count) (hb : b < s.cfg.size)
    (heq : s.layout.idxOf b = s.layout.idxOf c) : b = c :=
  (List.idxOf_inj (h.mem_layout.mpr hb)).mp heq

theorem mem_layout_of_pred (h : s.Supplies g count) (hp : p ∈ (s.cfg.block b).preds) :
    p ∈ s.layout := h.mem_layout.mpr (h.covers.built.pred_lt hp)

theorem mem_layout_of_succ (h : s.Supplies g count) (hp : p ∈ (s.cfg.block b).succs) :
    p ∈ s.layout := h.mem_layout.mpr (Cfg.lt_size_of_mem_preds (h.succsNoted b p hp))

theorem outlined (h : s.Supplies g count) (name : String) :
    ({ name, blocks := Select.outline s } : MachFunction τ).Outlined s := by
  have hblock (b : BlockId) (hb : b ∈ s.layout) :
      (Select.outline s : Array (MachBlock τ))[s.layout.idxOf b]? = some
        { preds := (s.cfg.block b).preds.filterMap (s.layout.idxOf? ·)
          succs := (s.cfg.block b).succs.filterMap (s.layout.idxOf? ·)
          loopDepth := (s.cfg.block b).loopDepth.toUInt32 } := by
    rw [Select.outline, List.getElem?_toArray, List.getElem?_map, List.getElem?_idxOf hb,
      Option.map_some]
  refine ⟨?_, fun b hb => ?_, fun b hb => ?_⟩
  · rw [Select.outline, List.size_toArray, List.length_map]
  · rw [MachFunction.block, Array.getD_eq_getD_getElem?, hblock b hb, Option.getD_some]
    exact filterMap_idxOf? fun p hp => h.mem_layout_of_pred hp
  · rw [MachFunction.block, Array.getD_eq_getD_getElem?, hblock b hb, Option.getD_some]
    exact filterMap_idxOf? fun p hp => h.mem_layout_of_succ hp

theorem exists_walk (h : s.Supplies g count) (hf : f.Outlined s) (hwalk : f.Walk walk) :
    ∃ blocks, s.cfg.Walk blocks ∧ (∀ b ∈ blocks, b < s.cfg.size) ∧
      blocks.map (s.layout.idxOf ·) = walk := by
  induction hwalk with
  | entry =>
    refine ⟨[Cfg.entry], .entry, ?_, congrArg (fun i => [i]) h.numbered.entry_first⟩
    exact List.forall_mem_singleton.mpr h.covers.runnable.entry
  | @step i j rest hp _ ih =>
    obtain ⟨blocks, hblocks, hlt, heq⟩ := ih
    obtain ⟨p, blocks, rfl, rfl, rfl⟩ := List.map_eq_cons_iff.mp heq
    have hplt := hlt p List.mem_cons_self
    suffices hstep : ∃ b, p ∈ (s.cfg.block b).preds ∧ s.layout.idxOf b = j by
      obtain ⟨b, hb, rfl⟩ := hstep
      exact ⟨b :: p :: blocks, .step hb hblocks,
        List.forall_mem_cons.mpr ⟨Cfg.lt_size_of_mem_preds hb, hlt⟩, rfl⟩
    rcases hp with hp | hp
    · rw [hf.succs p (h.mem_layout.mpr hplt)] at hp
      obtain ⟨b, hb, rfl⟩ := List.mem_map.mp hp
      exact ⟨b, h.succsNoted p b hb, rfl⟩
    · have hj : j < s.layout.length := by
        rw [← hf.size]
        exact f.lt_of_mem MachBlock.preds rfl hp
      obtain ⟨b, hb⟩ : ∃ b, s.layout[j]? = some b := ⟨_, List.getElem?_eq_getElem hj⟩
      obtain rfl := h.idxOf_eq hb
      rw [hf.preds b (List.mem_of_getElem? hb)] at hp
      obtain ⟨q, hq, heq⟩ := List.mem_map.mp hp
      obtain rfl := h.eq_of_idxOf (h.mem_layout.mp (h.mem_layout_of_pred hq)) heq
      exact ⟨b, hq, rfl⟩

theorem dominates (h : s.Supplies g count) (hf : f.Outlined s) (hb : b < s.cfg.size)
    (hdom : s.cfg.Dominates c b) : f.Dominates (s.layout.idxOf c) (s.layout.idxOf b) := by
  intro rest hwalk
  obtain ⟨blocks, hblocks, -, heq⟩ := h.exists_walk hf hwalk
  obtain ⟨d, blocks, rfl, hd, rfl⟩ := List.map_eq_cons_iff.mp heq
  obtain rfl := h.eq_of_idxOf hb hd.symm
  rw [← heq]
  exact List.mem_map_of_mem (hdom blocks hblocks)

end Schedule.Supplies

end

end SeaNodes
