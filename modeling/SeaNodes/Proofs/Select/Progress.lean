import SeaNodes.Proofs.Select.Sources
import SeaNodes.Proofs.Select.Selected

namespace SeaNodes

variable {τ : Type}

namespace Select

variable {isa : Isa τ} {g : Graph} {s : Schedule} {count i : Nat} {pre post : List NodeId}
  {st st' : State τ} {b : BlockId} {n m r : NodeId} {v : VReg} {values : SideTable (Option VReg)}

/-- Register `v` was made for a phi of the block at `a`. -/
def PhiReg (g : Graph) (s : Schedule) (values : SideTable (Option VReg)) (a : Nat) (v : VReg) : Prop :=
  ∃ b ∈ s.layout, s.layout.idxOf b = a ∧ ∃ m ∈ valuePhis g s b, values.get m = some v

def regsOf (values : SideTable (Option VReg)) (ns : List NodeId) : Multiset VReg :=
  ↑(ns.filterMap values.get)

def phisUpTo (g : Graph) (s : Schedule) (i : Nat) (pre : List NodeId) : List NodeId :=
  (s.layout.take i).flatMap (valuePhis g s) ++
    pre.filter fun n => g.op n == .phi && g.ty (some n) != .mem

theorem mem_valuePhis : m ∈ valuePhis g s b ↔
    m ∈ s.nodes b ∧ g.op m = .phi ∧ g.ty (some m) ≠ .mem := by
  simp [valuePhis]

theorem getElem?_of_zipIdx {α : Type} {l : List α} {x : α} {done rest : List (α × Nat)}
    (h : l.zipIdx = done ++ (x, i) :: rest) : done.length = i ∧ l[i]? = some x := by
  have hget : l.zipIdx[done.length]? = some (x, i) := by
    rw [h, List.getElem?_append_right le_rfl, Nat.sub_self]
    rfl
  rw [List.getElem?_zipIdx, Nat.zero_add] at hget
  obtain ⟨y, hy, heq⟩ := Option.map_eq_some_iff.mp hget
  obtain ⟨rfl, rfl⟩ := Prod.mk.inj heq
  exact ⟨rfl, hy⟩

/-- What holds when the blocks before the one at `i` and the nodes `pre` of that were selected. -/
structure Progress (g : Graph) (s : Schedule) (count i : Nat) (pre : List NodeId) (st : State τ) :
    Prop where
  outlined : st.func.Outlined s
  phis : ∀ a, (st.func.block a).phis = []
  later : ∀ a ≥ i, (st.func.block a).insts = []
  reads : ∀ a, ReadsKnown (st.func.KnownBefore (PhiReg g s st.values) a) (st.func.block a).insts
  out : ReadsKnown (st.func.KnownBefore (PhiReg g s st.values) i) st.out.toList
  once : (st.func.definitions : Multiset VReg) + (definedIn st.out.toList : List VReg) +
    regsOf st.values (phisUpTo g s i pre) = Multiset.range st.func.vregs.size
  /-- A register is known in a block that dominates the one of its node. -/
  sound : ∀ m v, st.values.get m = some v → ∃ c ∈ s.layout,
    (∀ d ∈ s.blockOf.get m, s.cfg.Dominates c d) ∧
    (s.layout.idxOf c < i ∧ st.func.KnownAfter (PhiReg g s st.values) (s.layout.idxOf c) v ∨
      s.layout.idxOf c = i ∧ st.Knows (st.func.KnownBefore (PhiReg g s st.values) i) v)
  /-- The registers of phis are those that were made for them. -/
  joins : ∀ m, g.op m = .phi → (st.values.get m).isSome → m ∈ phisUpTo g s i pre
  params : ∀ m ∈ g.live, ∀ k < count, g.op m = .param k → (st.values.get m).isSome
  done : ∀ c ∈ s.layout, s.layout.idxOf c < i → ∀ x ∈ s.nodes c, ∀ r ∈ g.defines? x,
    (st.values.get r).isSome
  here : ∀ x ∈ pre, ∀ r ∈ g.defines? x, (st.values.get r).isSome

namespace Progress

/-- More of the block was selected. -/
theorem advance {pre' : List NodeId} (h : Progress g s count i pre st)
    (hfill : Filling (st.func.KnownBefore (PhiReg g s st.values) i) st.func.definitions st values
      (regsOf values (phisUpTo g s i pre')) st')
    (hregs : ∀ a v, PhiReg g s st.values a v → PhiReg g s values a v)
    (hkeep : ∀ m, (st.values.get m).isSome → (values.get m).isSome)
    (hsound : ∀ m v, values.get m = some v → st.values.get m = some v ∨
      ∃ c ∈ s.layout, (∀ d ∈ s.blockOf.get m, s.cfg.Dominates c d) ∧ s.layout.idxOf c = i ∧
        st'.Knows (st.func.KnownBefore (PhiReg g s values) i) v)
    (hjoins : ∀ m, g.op m = .phi → (values.get m).isSome → m ∈ phisUpTo g s i pre')
    (hhere : ∀ x ∈ pre', ∀ r ∈ g.defines? x, (values.get r).isSome) :
    Progress g s count i pre' st' := by
  have hgrows : st.func.Grows st'.func := .of_blocks hfill.blocks
  have hvalues := hfill.values
  constructor
  case outlined => exact h.outlined.grows hgrows (congrArg Array.size hfill.blocks)
  case phis => exact fun a => by rw [hfill.block, h.phis]
  case later => exact fun a ha => by rw [hfill.block, h.later a ha]
  case reads =>
    intro a
    rw [hfill.block, hvalues]
    exact (h.reads a).mono fun v => hgrows.knownBefore hregs
  case out =>
    rw [hvalues]
    exact hfill.reads.mono fun v => hgrows.knownBefore hregs
  case once =>
    rw [hvalues, hfill.definitions]
    exact hfill.once
  case sound =>
    intro m v hv
    rw [hvalues] at hv ⊢
    rcases hsound m v hv with hold | ⟨c, hc, hdom, hi, hknown⟩
    · obtain ⟨c, hc, hdom, hcases⟩ := h.sound m v hold
      refine ⟨c, hc, hdom, hcases.imp (fun ⟨hlt, hafter⟩ => ⟨hlt, ?_⟩) fun ⟨hi, hknown⟩ => ⟨hi, ?_⟩⟩
      · exact hgrows.knownAfter hregs hafter
      · exact (hknown.mono fun v => hgrows.knownBefore hregs).later hfill.out
    · exact ⟨c, hc, hdom, .inr ⟨hi, hknown.mono fun v => hgrows.knownBefore fun _ _ => id⟩⟩
  case joins =>
    rw [hvalues]
    exact hjoins
  case params =>
    intro m hm k hk hop
    rw [hvalues]
    exact hkeep m (h.params m hm k hk hop)
  case done =>
    intro c hc hlt x hx r hr
    rw [hvalues]
    exact hkeep r (h.done c hc hlt x hx r hr)
  case here =>
    rw [hvalues]
    exact hhere

theorem filling (h : Progress g s count i pre st) :
    Filling (st.func.KnownBefore (PhiReg g s st.values) i) st.func.definitions st st.values
      (regsOf st.values (phisUpTo g s i pre)) st :=
  ⟨rfl, rfl, List.prefix_refl _, h.out, h.once⟩

theorem value_of_source {done : List NodeId} (h : Progress g s count i pre st)
    (hsource : Source g count done m)
    (hdone : ∀ x ∈ done, ∀ r ∈ g.defines? x, (st.values.get r).isSome) :
    (∃ t, g.op m = .const t) ∨ ∃ v, st.values.get m = some v := by
  cases hsource with
  | const hop => exact .inl ⟨_, hop⟩
  | param hm hop hk => exact .inr (Option.isSome_iff_exists.mp (h.params m hm _ hk hop))
  | node hx hdef => exact .inr (Option.isSome_iff_exists.mp (hdone _ hx m hdef))

/-- What is known at the end of the block that is being filled is known at its start: that block has no
instructions yet. -/
theorem knownBefore_of (h : Progress g s count i pre st) {R : Nat → VReg → Prop}
    (hv : st.func.KnownAfter R i v) : st.func.KnownBefore R i v := by
  obtain ⟨a, hdom, hmakes⟩ := hv
  by_cases ha : a = i
  · rw [ha, MachFunction.Makes, h.later i le_rfl] at hmakes
    exact .inl (hmakes.resolve_left List.not_mem_nil)
  · exact .inr ⟨a, ha, hdom, hmakes⟩

theorem known_of_source (h : Progress g s count i pre st) (hs : s.Supplies g count)
    (hb : b ∈ s.layout) (hm : s.blockOf.get m = some b) (hi : s.layout.idxOf b < i)
    (hsource : Source g count (s.nodes b) m) : (∃ t, g.op m = .const t) ∨
      ∃ v, st.values.get m = some v ∧
        st.func.KnownAfter (PhiReg g s st.values) (s.layout.idxOf b) v := by
  refine (h.value_of_source hsource (h.done b hb hi)).imp_right fun ⟨v, hv⟩ => ⟨v, hv, ?_⟩
  obtain ⟨c, -, hdom, hcases⟩ := h.sound m v hv
  have hblt := hs.mem_layout.mp hb
  -- the register is from a block before, as the block of `m` was filled by then
  rcases hcases with ⟨-, hafter⟩ | ⟨heq, -⟩
  · exact hafter.trans (hs.dominates h.outlined hblt (hdom b hm))
  · have hne : c ≠ b := by
      rintro rfl
      omega
    have : s.layout.idxOf c < s.layout.idxOf b :=
      hs.numbered.idxOf_lt_of_dominates (hdom b hm) hblt hne
    omega

theorem supplied (h : Progress g s count i pre st) (hs : s.Supplies g count) (hb : b ∈ s.layout)
    (hi : s.layout.idxOf b = i) (habove : s.FromAbove g count b pre m) :
    Supplied g (st.func.KnownBefore (PhiReg g s st.values) i) st (some m) := by
  obtain ⟨c, hc, hdom, hsource⟩ := habove
  have hblt := hs.mem_layout.mp hb
  refine ⟨m, rfl, ?_⟩
  split_ifs at hsource with hcb
  · subst hcb
    refine (h.value_of_source hsource h.here).imp_right fun ⟨v, hv⟩ => ⟨v, hv, ?_⟩
    obtain ⟨d, -, hdc, ⟨-, hafter⟩ | ⟨-, hknown⟩⟩ := h.sound m v hv
    · refine .inl (h.knownBefore_of ?_)
      exact hi ▸ hafter.trans (hs.dominates h.outlined hblt (hdc c hc))
    · exact hknown
  · have hcl := hs.mem_layout.mpr (hs.lt_of_dominates hblt hdom)
    have hci : s.layout.idxOf c < i := hi ▸ hs.numbered.idxOf_lt_of_dominates hdom hblt hcb
    refine (h.known_of_source hs hcl hc hci hsource).imp_right
      fun ⟨v, hv, hafter⟩ => ⟨v, hv, .inl (h.knownBefore_of ?_)⟩
    exact hi ▸ hafter.trans (hs.dominates h.outlined hblt hdom)

theorem isSome_get_set (r : NodeId) (v : VReg) (hm : (values.get m).isSome) :
    ((values.set r (some v)).get m).isSome := by
  rw [SideTable.get_set]
  split_ifs
  · rfl
  · exact hm

theorem phiReg_set (hnew : g.op r = .phi → values.get r = none) {a : Nat} {w : VReg}
    (hw : PhiReg g s values a w) : PhiReg g s (values.set r (some v)) a w := by
  obtain ⟨c, hc, hca, m, hm, hmw⟩ := hw
  refine ⟨c, hc, hca, m, hm, ?_⟩
  rw [SideTable.get_set, if_neg, hmw]
  rintro rfl
  cases (hnew (mem_valuePhis.mp hm).2.1).symm.trans hmw

theorem isSome_of_mem_concat (hhere : ∀ x ∈ pre, ∀ r ∈ g.defines? x, (values.get r).isSome)
    (hdef : g.defines? n = some r) (v : VReg) :
    ∀ x ∈ pre ++ [n], ∀ q ∈ g.defines? x, ((values.set r (some v)).get q).isSome := by
  intro x hx q hq
  rcases List.mem_append.mp hx with hx | hx
  · exact isSome_get_set r v (hhere x hx q hq)
  · rw [List.mem_singleton.mp hx, hdef] at hq
    obtain rfl := Option.some.inj hq
    rw [SideTable.get_set, if_pos rfl]
    rfl

theorem regsOf_congr {values' : SideTable (Option VReg)} {ns : List NodeId}
    (h : ∀ m ∈ ns, values'.get m = values.get m) : regsOf values' ns = regsOf values ns :=
  congrArg _ (List.filterMap_congr h)

theorem op_of_mem_phisUpTo (h : m ∈ phisUpTo g s i pre) : g.op m = .phi := by
  rcases List.mem_append.mp h with h | h
  · obtain ⟨c, -, hm⟩ := List.mem_flatMap.mp h
    exact (mem_valuePhis.mp hm).2.1
  · simp_all

/-- Selecting a node that defines the value of another that is no phi. -/
theorem next (h : Progress g s count i pre st) (hs : s.Supplies g count) (hb : b ∈ s.layout)
    (hi : s.layout.idxOf b = i) (hsplit : s.nodes b = pre ++ n :: post) (hphi : g.op n ≠ .phi)
    (hout : Outcome (st.func.KnownBefore (PhiReg g s st.values) i) st.func.definitions
      (regsOf st.values (phisUpTo g s i pre)) st (g.defines? n) st') :
    Progress g s count i (pre ++ [n]) st' := by
  have hphis : phisUpTo g s i (pre ++ [n]) = phisUpTo g s i pre := by
    simp [phisUpTo, hphi]
  have hlive := hs.placed b (hs.mem_layout.mp hb) n (by rw [hsplit]; simp)
  cases hdef : g.defines? n with
  | none =>
    rw [hdef] at hout
    refine h.advance (hphis ▸ hout) (fun _ _ => id) (fun _ => id) (fun _ _ => .inl)
      (hphis ▸ h.joins) fun x hx r hr => ?_
    rcases List.mem_append.mp hx with hx | hx
    · exact h.here x hx r hr
    · rw [List.mem_singleton.mp hx, hdef] at hr
      exact nomatch hr
  | some r =>
    rw [hdef] at hout
    obtain ⟨v, hfill, hv⟩ := hout
    obtain ⟨hplaced, hrphi⟩ := hs.placed_of_defines hlive.1 hlive.2 hdef
    -- the node that gets a register is no phi, so those of phis stay
    have hget (m : NodeId) (hm : g.op m = .phi) :
        (st.values.set r (some v)).get m = st.values.get m := by
      rw [SideTable.get_set, if_neg]
      rintro rfl
      exact hphi (hrphi hm ▸ hm)
    have hnew (hr : g.op r = .phi) : st.values.get r = none := absurd (hrphi hr ▸ hr) hphi
    have hloose : regsOf (st.values.set r (some v)) (phisUpTo g s i (pre ++ [n])) =
        regsOf st.values (phisUpTo g s i pre) := by
      rw [hphis]
      exact regsOf_congr fun m hm => hget m (op_of_mem_phisUpTo hm)
    refine h.advance (hloose ▸ hfill) (fun _ _ => phiReg_set hnew)
      (fun m => isSome_get_set r v) (fun m w hw => ?_) (fun m hm hsome => ?_)
      (isSome_of_mem_concat h.here hdef v)
    · rw [SideTable.get_set] at hw
      split_ifs at hw with hmr
      · subst hmr
        obtain rfl := Option.some.inj hw
        obtain ⟨d, hd, hdom⟩ := hplaced
        refine .inr ⟨b, hb, fun c hc => ?_, hi, hv.mono ?_⟩
        · exact Option.some.inj (hd.symm.trans hc) ▸ hdom
        · exact fun v => (MachFunction.Grows.of_blocks rfl).knownBefore fun _ _ => phiReg_set hnew
      · exact .inl hw
    · rw [hphis]
      exact h.joins m hm (hget m hm ▸ hsome)

/-- Selecting a phi, which is known in its block from then on. -/
theorem next_phi (h : Progress g s count i pre st) (hs : s.Supplies g count) (hb : b ∈ s.layout)
    (hi : s.layout.idxOf b = i) (hsplit : s.nodes b = pre ++ n :: post) (hphi : g.op n = .phi)
    (hout : if g.ty (some n) ≠ .mem then
        ∃ v, Filling (st.func.KnownBefore (PhiReg g s st.values) i) st.func.definitions st
          (st.values.set n (some v)) (v ::ₘ regsOf st.values (phisUpTo g s i pre)) st'
      else Filling (st.func.KnownBefore (PhiReg g s st.values) i) st.func.definitions st st.values
        (regsOf st.values (phisUpTo g s i pre)) st') :
    Progress g s count i (pre ++ [n]) st' := by
  have hblt := hs.mem_layout.mp hb
  have hnb : n ∈ s.nodes b := by
    rw [hsplit]
    simp
  have hplaced := (hs.placed b hblt n hnb).2
  split_ifs at hout with hty
  case neg =>
    have hphis : phisUpTo g s i (pre ++ [n]) = phisUpTo g s i pre := by
      simp [phisUpTo, hphi, hty]
    refine h.advance (hphis ▸ hout) (fun _ _ => id) (fun _ => id) (fun _ _ => .inl)
      (hphis ▸ h.joins) fun x hx r hr => ?_
    rcases List.mem_append.mp hx with hx | hx
    · exact h.here x hx r hr
    · rw [List.mem_singleton.mp hx, Graph.defines?, hphi] at hr
      simp [hty] at hr
  case pos =>
    obtain ⟨v, hfill⟩ := hout
    have hphis : phisUpTo g s i (pre ++ [n]) = phisUpTo g s i pre ++ [n] := by
      simp [phisUpTo, hphi, hty]
    have hnodup := hs.covers.runnable.lists.nodup b hblt
    rw [hsplit, List.nodup_middle, List.nodup_cons, List.mem_append, not_or] at hnodup
    have hnew : n ∉ phisUpTo g s i pre := by
      intro hn
      rcases List.mem_append.mp hn with hn | hn
      · obtain ⟨c, hc, hnc⟩ := List.mem_flatMap.mp hn
        have hcl := hs.mem_layout.mp (List.take_subset i _ hc)
        have hcn := (hs.placed c hcl n (mem_valuePhis.mp hnc).1).2
        obtain rfl : c = b := Option.some.inj (hcn.symm.trans hplaced)
        obtain ⟨k, hk, hget⟩ := List.mem_take_iff_getElem.mp hc
        have := hs.idxOf_eq (List.getElem?_eq_some_iff.mpr ⟨_, hget⟩)
        omega
      · exact hnodup.1.1 (List.mem_filter.mp hn).1
    have hnone : st.values.get n = none := by
      by_contra hsome
      exact hnew (h.joins n hphi (Option.isSome_iff_ne_none.mpr hsome))
    have hdef : g.defines? n = some n := by simp [Graph.defines?, hphi, hty]
    have hloose : regsOf (st.values.set n (some v)) (phisUpTo g s i (pre ++ [n])) =
        v ::ₘ regsOf st.values (phisUpTo g s i pre) := by
      have hold : regsOf (st.values.set n (some v)) (phisUpTo g s i pre) =
          regsOf st.values (phisUpTo g s i pre) := regsOf_congr fun m hm => by
        rw [SideTable.get_set, if_neg]
        rintro rfl
        exact hnew hm
      rw [hphis, regsOf, List.filterMap_append, ← Multiset.coe_add]
      change regsOf (st.values.set n (some v)) _ + _ = _
      rw [hold, Multiset.add_comm]
      simp [SideTable.get_set]
    refine h.advance (hloose ▸ hfill) (fun _ _ => phiReg_set fun _ => hnone)
      (fun m => isSome_get_set n v) (fun m w hw => ?_) (fun m hm hsome => ?_)
      (isSome_of_mem_concat h.here hdef v)
    · rw [SideTable.get_set] at hw
      split_ifs at hw with hmn
      · subst hmn
        refine .inr ⟨b, hb, fun c hc => ?_, hi, .inl (.inl ⟨b, hb, hi, n, ?_, ?_⟩)⟩
        · exact Option.some.inj (hplaced.symm.trans hc) ▸ .refl _ _
        · exact mem_valuePhis.mpr ⟨hnb, hphi, hty⟩
        · rw [SideTable.get_set, if_pos rfl, hw]
      · exact .inl hw
    · rw [hphis, List.mem_append, List.mem_singleton]
      rw [SideTable.get_set] at hsome
      split_ifs at hsome with hmn
      · exact .inr hmn.symm
      · exact .inl (h.joins m hm hsome)

theorem meets_selectNode {succs : List Nat} (h : Progress g s count i pre st) (hisa : isa.Neutral)
    (hs : s.Supplies g count) (hb : b ∈ s.layout) (hi : s.layout.idxOf b = i)
    (hsplit : s.nodes b = pre ++ n :: post) : Meets (selectNode isa g succs n) st fun _ =>
      Progress g s count i (pre ++ [n]) := by
  by_cases hphi : g.op n = .phi
  · exact (meets_selectNode_phi h.filling hphi).mono fun _ _ hout =>
      h.next_phi hs hb hi hsplit hphi hout
  · refine (Select.meets_selectNode hisa h.filling hphi fun e he => ?_).mono fun _ _ hout =>
      h.next hs hb hi hsplit hphi hout
    obtain ⟨m, rfl, habove⟩ := hs.fromAbove_of_read (hs.mem_layout.mp hb) hsplit he
    exact h.supplied hs hb hi habove

/-- The block of the next `i` gets its instructions. -/
theorem close (h : Progress g s count i (s.nodes b) st) (hs : s.Supplies g count)
    (hb : b ∈ s.layout) (hi : s.layout.idxOf b = i) :
    Meets (place (fun insts b => { b with insts }) i) st fun _ st' =>
      Progress g s count (i + 1) [] st' ∧ st'.out = #[] := by
  have hlt : i < st.func.blocks.size := by
    rw [h.outlined.size, ← hi]
    exact List.idxOf_lt_length_iff.mpr hb
  have hget : s.layout[i]? = some b := hi ▸ List.getElem?_idxOf hb
  set put := fun blk : MachBlock τ => { blk with insts := st.out.toList } with hput
  have hblock (a : Nat) := st.func.block_modifyBlock i a put
  have hempty := h.later i le_rfl
  have hgrows : st.func.Grows (st.func.modifyBlock i put) := by
    refine .modifyBlock i rfl rfl ?_
    rw [hempty]
    exact List.nil_subset _
  have hphis : phisUpTo g s (i + 1) [] = phisUpTo g s i (s.nodes b) := by
    simp [phisUpTo, List.take_add_one, hget, valuePhis]
  refine Meets.modify ⟨?_, rfl⟩
  constructor
  case outlined => exact h.outlined.grows hgrows (st.func.size_modifyBlock i put)
  case phis =>
    intro a
    show ((st.func.modifyBlock i put).block a).phis = []
    rw [hblock]
    split_ifs <;> exact h.phis a
  case later =>
    intro a ha
    show ((st.func.modifyBlock i put).block a).insts = []
    rw [hblock, if_neg (by omega)]
    exact h.later a (by omega)
  case reads =>
    intro a
    show ReadsKnown _ ((st.func.modifyBlock i put).block a).insts
    rw [hblock]
    split_ifs with ha
    · obtain ⟨rfl, -⟩ := ha
      exact h.out.mono fun v => hgrows.knownBefore fun _ _ => id
    · exact (h.reads a).mono fun v => hgrows.knownBefore fun _ _ => id
  case out => trivial
  case once =>
    have hdefs := st.func.definitions_modifyBlock put hlt
    have hold : (st.func.block i).definitions = [] := by
      rw [MachBlock.definitions, h.phis, hempty]
      rfl
    have hnew : (put (st.func.block i)).definitions = definedIn st.out.toList := by
      rw [MachBlock.definitions, h.phis]
      rfl
    rw [hold, hnew, Multiset.coe_nil, add_zero] at hdefs
    show ((st.func.modifyBlock i put).definitions : Multiset VReg) + (definedIn [] : List VReg) +
      regsOf st.values (phisUpTo g s (i + 1) []) = Multiset.range st.func.vregs.size
    rw [hdefs, hphis, definedIn_nil, Multiset.coe_nil, add_zero]
    exact h.once
  case sound =>
    intro m v hv
    obtain ⟨c, hc, hplaced, hcases⟩ := h.sound m v hv
    refine ⟨c, hc, hplaced, .inl ?_⟩
    rcases hcases with ⟨hlt, hafter⟩ | ⟨hci, hknown⟩
    · exact ⟨by omega, hgrows.knownAfter (fun _ _ => id) hafter⟩
    · refine ⟨by omega, MachFunction.knownAfter_of (hknown.imp (fun hk => ?_) fun hv => ?_)⟩
      · rw [hci]
        exact hgrows.knownBefore (fun _ _ => id) hk
      · show v ∈ definedIn ((st.func.modifyBlock i put).block _).insts
        rw [hblock, hci, if_pos ⟨rfl, hlt⟩]
        exact hv
  case joins => exact hphis ▸ h.joins
  case params => exact h.params
  case done =>
    intro c hc hlt x hx
    rcases Nat.lt_succ_iff_lt_or_eq.mp hlt with hlt | heq
    · exact h.done c hc hlt x hx
    · obtain rfl := hs.eq_of_idxOf (hs.mem_layout.mp hc) (heq.trans hi.symm)
      exact h.here x hx
  case here => exact fun x hx => absurd hx List.not_mem_nil

theorem meets_fillBlock (h : Progress g s count i [] st) (hisa : isa.Neutral)
    (hs : s.Supplies g count) (hb : b ∈ s.layout) (hi : s.layout.idxOf b = i) :
    Meets (do
      let succs := ((← get).func.block i).succs
      (s.nodes b).forM (selectNode isa g succs)
      match (s.cfg.block b).terminator, succs with
      | none, t :: _ => emit { op := .jump t }
      | _, _ => pure ()
      place (fun insts b => { b with insts }) i) st fun _ st' =>
        Progress g s count (i + 1) [] st' ∧ st'.out = #[] := by
  refine (Meets.get (Q := fun _ st' => st' = st) rfl).bind fun st₁ _ hst => ?_
  subst hst
  refine (Meets.forM (P := fun done _ => Progress g s count i done) h
    fun done n rest st hsplit hdone => hdone.meets_selectNode hisa hs hb hi hsplit).bind
      fun _ st₁ h₁ => ?_
  dsimp only
  split
  · refine (meets_emit_uses rfl h₁.filling (by simp)).bind fun _ st₂ ⟨h₂, _⟩ => ?_
    refine (h₁.advance h₂ (fun _ _ => id) (fun _ => id) (fun _ _ => .inl) h₁.joins
      h₁.here).close hs hb hi
  · exact h₁.close hs hb hi

/-- At first there are the parameters. -/
theorem start {params : List Ty} (hisa : isa.Neutral) (hs : s.Supplies g params.length)
    (name : String) : Meets (selectParams isa g params) { func := { name, blocks := outline s } }
      fun _ => Progress g s params.length 0 [] := by
  have hempty (a : Nat) := block_outline (τ := τ) s name a
  have hnothing : Filling (fun _ => False) 0 { func := { name, blocks := outline s } } {} 0
      ({ func := { name, blocks := outline s } } : State τ) :=
    ⟨rfl, rfl, List.prefix_refl _, trivial, rfl⟩
  refine (meets_selectParams hisa hnothing fun m => rfl).mono fun _ st hst => ?_
  obtain ⟨hfill, harriving⟩ := hst
  have hnone (a : Nat) : (st.func.block a).definitions = [] := by
    rw [hfill.block, MachBlock.definitions, (hempty a).1, (hempty a).2]
    rfl
  constructor
  case outlined =>
    exact (hs.outlined name).grows (.of_blocks hfill.blocks) (congrArg Array.size hfill.blocks)
  case phis =>
    intro a
    rw [hfill.block, (hempty a).2]
  case later =>
    intro a _
    rw [hfill.block, (hempty a).1]
  case reads =>
    intro a
    rw [hfill.block, (hempty a).1]
    trivial
  case out => exact hfill.reads.mono fun _ => False.elim
  case once =>
    have hdefs : st.func.definitions = [] := by
      refine List.flatMap_eq_nil_iff.mpr fun blk hblk => ?_
      obtain ⟨a, ha, rfl⟩ := List.mem_iff_getElem.mp hblk
      rw [Array.getElem_toList, ← MachFunction.block_eq_getElem]
      exact hnone a
    rw [hdefs]
    exact hfill.once
  case sound =>
    intro m v hv
    obtain ⟨⟨hm, k, hop⟩, hknown⟩ := harriving.sound m v hv
    refine ⟨Cfg.entry, hs.mem_layout.mpr hs.covers.runnable.entry, fun c hc => ?_, .inr ?_⟩
    · exact Option.some.inj ((hs.blockOf_param hm hop).symm.trans hc) ▸ .refl _ _
    · exact ⟨hs.numbered.entry_first, hknown.mono fun _ => False.elim⟩
  case joins =>
    intro m hm hsome
    obtain ⟨v, hv⟩ := Option.isSome_iff_exists.mp hsome
    obtain ⟨⟨-, k, hop⟩, -⟩ := harriving.sound m v hv
    cases hm.symm.trans hop
  case params =>
    exact fun m hm k hk hop => (harriving.complete m hm k hk hop).resolve_right not_false
  case done => exact fun c _ hlt => absurd hlt (Nat.not_lt_zero _)
  case here => exact fun x hx => absurd hx List.not_mem_nil

theorem meets_selectBlocks {params : List Ty} (hisa : isa.Neutral)
    (hs : s.Supplies g params.length) (name : String) :
    Meets (s.layout.zipIdx.forM fun (b, i) => selectBlock isa g s params b i)
      { func := { name, blocks := outline s } } fun _ st =>
        Progress g s params.length s.layout.length [] st ∧ st.out = #[] := by
  have hne : s.layout.zipIdx ≠ [] := by
    rw [Ne, List.zipIdx_eq_nil_iff]
    exact List.ne_nil_of_mem (hs.mem_layout.mpr hs.covers.runnable.entry)
  refine (Meets.forM (P := fun done _ st =>
    (done = [] → st = { func := { name, blocks := outline s } }) ∧
      (done ≠ [] → Progress g s params.length done.length [] st ∧ st.out = #[]))
    ⟨fun _ => rfl, fun h => absurd rfl h⟩ ?_).mono fun _ st h => ?_
  · rintro done ⟨b, i⟩ rest st hsplit ⟨hfirst, hlater⟩
    obtain ⟨hi, hget⟩ := getElem?_of_zipIdx hsplit
    have hb := List.mem_of_getElem? hget
    suffices hfill : Meets (selectBlock isa g s params b i) st fun _ st' =>
        Progress g s params.length (i + 1) [] st' ∧ st'.out = #[] by
      refine hfill.mono fun _ st' h => ⟨fun hnil => by simp at hnil, fun _ => ?_⟩
      rwa [List.length_append, hi]
    unfold selectBlock
    split_ifs with hzero
    · subst hzero
      rw [hfirst (List.length_eq_zero_iff.mp hi)]
      exact (start hisa hs name).bind fun _ st h => h.meets_fillBlock hisa hs hb (hs.idxOf_eq hget)
    · have hdone : done ≠ [] := fun h => hzero (by rw [← hi, h]; rfl)
      exact (hi ▸ (hlater hdone).1).meets_fillBlock hisa hs hb (hs.idxOf_eq hget)
  · rw [← List.length_zipIdx (l := s.layout)]
    exact h.2 hne

end Progress

end Select

end SeaNodes
