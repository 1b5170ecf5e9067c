import SeaNodes.Proofs.Flow.Edges
import SeaNodes.Proofs.Lattice.Members
import SeaNodes.Proofs.Opt.PostFixpoint

namespace SeaNodes

/-- Hangs on control and on a state of memory. -/
def Op.usesMemory : Op → Bool
  | .load | .store | .alloc => true
  | _ => false

/-- Stands for a state of memory. -/
def Op.isState : Op → Bool
  | .startMem | .phi | .store | .proj _ => true
  | _ => false

namespace Graph

/-- What the analysis takes for granted about the nodes of a graph: the control at which they hang and
the states of memory they use are of the right kinds. -/
structure Shaped (g : Graph) : Prop where
  /-- The start is live control. -/
  start : g.ty (some Graph.start) = .ctrl
  phi : ∀ n ∈ g.live, g.op n = .phi → (g.input n 0).any fun r => (g.op r).isRegion
  /-- No region waits for a back edge. -/
  closed : ∀ n ∈ g.live, (g.node n).inProgress = false
  /-- Control does not pass through a second start or the marker of dead control. -/
  root : ∀ n ∈ g.live, g.op n = .start ∨ g.op n = .dead → g.inputs n = #[]
  memory : ∀ n ∈ g.live, (g.op n).usesMemory →
    (g.input n 1).any (fun m => (g.op m).isState) ∧ (g.input n 0).all fun c => g.op c != .fork
  /-- A new object is not declared null. -/
  alloc : ∀ n ∈ g.live, g.op n = .alloc → (g.decl n).has (.ref (some 0))
  proj : ∀ n ∈ g.live, (g.op n matches .proj _) →
    (g.input n 0).any fun src => g.op src == .alloc || g.op src == .callEnd

instance (g : Graph) : Decidable g.Shaped :=
  decidable_of_iff (g.ty (some Graph.start) = .ctrl ∧
      (∀ n ∈ g.live, g.op n = .phi → (g.input n 0).any fun r => (g.op r).isRegion) ∧
      (∀ n ∈ g.live, (g.node n).inProgress = false) ∧
      (∀ n ∈ g.live, g.op n = .start ∨ g.op n = .dead → g.inputs n = #[]) ∧
      (∀ n ∈ g.live, (g.op n).usesMemory →
        (g.input n 1).any (fun m => (g.op m).isState) ∧ (g.input n 0).all fun c => g.op c != .fork) ∧
      (∀ n ∈ g.live, g.op n = .alloc → (g.decl n).has (.ref (some 0))) ∧
      ∀ n ∈ g.live, (g.op n matches .proj _) →
        (g.input n 0).any fun src => g.op src == .alloc || g.op src == .callEnd)
    ⟨fun ⟨h₁, h₂, h₃, h₄, h₅, h₆, h₇⟩ => ⟨h₁, h₂, h₃, h₄, h₅, h₆, h₇⟩,
      fun h => ⟨h.start, h.phi, h.closed, h.root, h.memory, h.alloc, h.proj⟩⟩

variable {g g' : Graph} {n m x y r c t : NodeId} {v : Value}

namespace Shaped

theorem phisOnRegions (h : g.Shaped) : g.PhisOnRegions := by
  intro n hn hop
  have hany := h.phi n hn hop
  rwa [Option.any_eq_true] at hany

theorem retyped (h : g.Shaped) (hr : g.Retyped g') (hstart : g'.ty (some Graph.start) = .ctrl) :
    g'.Shaped where
  start := hstart
  phi n hn := by
    simp only [hr.op, hr.input]
    exact h.phi n (hr.live ▸ hn)
  closed n hn := (hr.inProgress n).trans (h.closed n (hr.live ▸ hn))
  root n hn := by
    simp only [hr.op, hr.inputs]
    exact h.root n (hr.live ▸ hn)
  memory n hn := by
    simp only [hr.op, hr.input]
    exact h.memory n (hr.live ▸ hn)
  alloc n hn := by
    simp only [hr.op, hr.decl]
    exact h.alloc n (hr.live ▸ hn)
  proj n hn := by
    simp only [hr.op, hr.input]
    exact h.proj n (hr.live ▸ hn)

end Shaped

theorem WellFormed.retyped (h : g.WellFormed) (hr : g.Retyped g') : g'.WellFormed where
  verified := by
    have hverify : g'.verify = g.verify := by
      unfold verify deadInput? useFlaw? edgeCount
      simp only [hr.live, hr.inputs, hr.isDead, hr.uses]
    rw [hverify]
    exact h.verified
  start_op := (hr.op _).trans h.start_op
  start_inputs := (hr.inputs _).trans h.start_inputs
  start_live := hr.live ▸ h.start_live
  dead_inputs n hn := (hr.inputs n).trans (h.dead_inputs n (hr.isDead n ▸ hn))
  side_inputs n hn i hi := by
    rw [hr.inputs]
    exact h.side_inputs n (hr.live ▸ hn) i (hr.op n ▸ hi)

theorem WellFormed.input_live (hg : g.WellFormed) (hn : n ∈ g.live) {i : Nat}
    (h : g.input n i = some m) (hm : m < g.size) : m ∈ g.live :=
  mem_live.mpr ⟨hm, ((verify_spec hg.verified hn).1 m (mem_inputs_of_input h)).1⟩

namespace Analyzed

theorem ty_of_continues (h : g.Analyzed) (hs : g.Shaped) (hy : y ∈ g.live) (hcont : g.Continues x y)
    (hx : g.ty (some x) = .ctrl) (hfork : g.op y ≠ .fork) : g.ty (some y) = .ctrl := by
  have hpasses : (g.op y).passesControl := by
    have hroot (hop : g.op y = .start ∨ g.op y = .dead) : False := by
      have hinput := hcont.input
      rw [input_eq_none_of_inputs (hs.root y hy hop)] at hinput
      cases hinput
    have hisCfg := hcont.isCfg
    have hstop := hcont.not_stop
    cases hop : g.op y <;> simp_all [Op.isCfg, Op.passesControl]
  have htype : g.typeOf y = .ctrl := by
    have hregion := hcont.not_region
    cases hop : g.op y <;> simp_all [Op.passesControl, Op.isRegion, typeOf, hcont.input, Ty.asCtrl,
      Ty.ctrlProj]
  have hcast : g.op y ≠ .cast := by
    intro hop
    rw [hop] at hpasses
    cases hpasses
  have hsettled := h.settled y hy hcast
  rw [IsSettled, htype] at hsettled
  exact Ty.eq_ctrl_of_meet (h.kinds.ctrl y hy hpasses) hsettled

/-- In a block whose head is live, all control but a branch is. -/
theorem ty_of_mem_ctrl {cfg : Cfg} {b : BlockId} (h : g.Analyzed) (hs : g.Shaped)
    (hcfg : cfg.Built g) (hhead : g.ty (some (cfg.block b).head) = .ctrl)
    (hc : c ∈ (cfg.block b).ctrl) (hfork : g.op c ≠ .fork) : g.ty (some c) = .ctrl := by
  -- by induction on how far `c` is from the head
  obtain ⟨pre, post, hsplit⟩ := List.append_of_mem hc
  induction hk : pre.length generalizing c pre post with
  | zero =>
    obtain rfl := List.length_eq_zero_iff.mp hk
    have hfirst := hcfg.chained.head b (Cfg.lt_of_mem_ctrl hc)
    rw [hsplit] at hfirst
    rw [Option.some.inj hfirst]
    exact hhead
  | succ k ih =>
    rcases List.eq_nil_or_concat pre with rfl | ⟨pre, x, rfl⟩
    · exact nomatch hk
    · rw [List.concat_eq_append, List.append_assoc, List.singleton_append] at hsplit
      have hlinked := hcfg.chained.linked b
      rw [hsplit] at hlinked
      have hcont := (List.isChain_append_cons_cons.mp hlinked).2.1
      have hxmem : x ∈ (cfg.block b).ctrl := by
        rw [hsplit]
        simp
      have hx := ih hxmem hcont.not_fork pre (c :: post) hsplit (by simpa using hk)
      exact h.ty_of_continues hs (hcfg.chained.live b c hc) hcont hx hfork

theorem ty_of_region (h : g.Analyzed) (hr : r ∈ g.live) (hop : (g.op r).isRegion) {j : Nat}
    (hx : g.input r (j + 1) = some x) (hlive : g.ty (some x) = .ctrl) : g.ty (some r) = .ctrl := by
  have htype : g.typeOf r = g.regionType r := by
    unfold typeOf
    cases hop' : g.op r <;> simp_all [Op.isRegion]
  have hmeet {t : Ty} (ht : t.isCtrl) : Ty.ctrl.meet t = .ctrl := by
    cases t <;> first | rfl | cases ht
  have hmeet' {t : Ty} (ht : t.isCtrl) : t.meet .ctrl = .ctrl := by
    cases t <;> first | rfl | cases ht
  have hfold (es : List Edge) (t : Ty) (ht : t.isCtrl) (hmem : t = .ctrl ∨ some x ∈ es) :
      es.foldl (fun t p => t.meet (g.ty p).asCtrl) t = .ctrl := by
    induction es generalizing t with
    | nil => exact hmem.resolve_right List.not_mem_nil
    | cons e es ih =>
      rw [List.foldl_cons]
      refine ih _ (Ty.isCtrl_meet ht (Ty.isCtrl_asCtrl _)) ?_
      rcases hmem with rfl | hmem
      · exact .inl (hmeet (Ty.isCtrl_asCtrl _))
      · rcases List.mem_cons.mp hmem with rfl | hmem
        · left
          rw [hlive]
          exact hmeet' ht
        · exact .inr hmem
  have hmem : some x ∈ (g.inputs r).toList.drop 1 := by
    rw [input_eq_getElem?, Option.join_eq_some_iff] at hx
    refine List.mem_of_getElem? (i := j) ?_
    rw [List.getElem?_drop, Array.getElem?_toList, Nat.add_comm, hx]
  have hpasses : (g.op r).passesControl := by
    cases hop' : g.op r <;> simp_all [Op.isRegion, Op.passesControl]
  have hsettled := h.settled r hr (by cases hop' : g.op r <;> simp_all [Op.isRegion])
  rw [IsSettled, htype, regionType, hfold _ .top rfl (.inr hmem)] at hsettled
  exact Ty.eq_ctrl_of_meet (h.kinds.ctrl r hr hpasses) hsettled

theorem permits_of_fork (h : g.Analyzed) (ht : t ∈ g.live) (hop : g.op t = .fork)
    (hctrl : g.ty (g.input t 0) = .ctrl) (hv : (g.ty (g.input t 1)).has v)
    (hfloat : (g.ty (g.input t 1)).double? = none) : (g.ty (some t)).permits v.isTruthy := by
  have htype : g.typeOf t = (g.ty (g.input t 1)).branchOn := by
    simp only [typeOf, hop, hctrl, if_true]
  have hpermits := Ty.permits_branchOn hv hfloat
  have hsettled := h.settled t ht (by simp [hop])
  have hbranch := h.kinds.fork t ht hop
  rw [IsSettled, htype] at hsettled
  generalize (g.ty (g.input t 1)).branchOn = b at hpermits hsettled
  generalize g.ty (some t) = a at hsettled hbranch
  cases b with
  | branch t₂ f₂ =>
    cases a with
    | top => cases hsettled
    | branch t₁ f₁ =>
      cases hc : v.isTruthy <;> cases t₁ <;> cases f₁ <;> cases t₂ <;> cases f₂ <;>
        simp_all [Ty.permits, Ty.meet]
    | _ => cases hbranch
  | _ => cases hpermits

theorem ty_of_side (h : g.Analyzed) (hn : n ∈ g.live) {b : Bool}
    (hop : g.op n = .ctrlProj (if b then 0 else 1)) (hinput : g.input n 0 = some t)
    (hpermits : (g.ty (some t)).permits b) : g.ty (some n) = .ctrl := by
  have htype : g.typeOf n = .ctrl := by
    simp only [typeOf, hop, hinput]
    cases hty : g.ty (some t) with
    | branch x y => cases b <;> simp_all [Ty.ctrlProj, Ty.permits]
    | _ =>
      rw [hty] at hpermits
      exact nomatch hpermits
  have hsettled := h.settled n hn (by simp [hop])
  rw [IsSettled, htype] at hsettled
  exact Ty.eq_ctrl_of_meet (h.kinds.ctrl n hn (by simp [hop, Op.passesControl])) hsettled

end Analyzed

end Graph

end SeaNodes
