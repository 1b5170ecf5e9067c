import Mathlib.Data.List.ReduceOption
import SeaNodes.Flow.Blocks
import SeaNodes.Graph.Check
import SeaNodes.Proofs.Tables

namespace SeaNodes

namespace Op

variable {op : Op}

theorem eq_of_isRegion (h : op.isRegion) : op = .region ∨ op = .loop := by
  cases op <;> first | exact .inl rfl | exact .inr rfl | exact nomatch h

theorem isCfg_of_isRegion (h : op.isRegion) : op.isCfg ∧ op ≠ .stop ∧ op ≠ .dead := by
  obtain rfl | rfl := eq_of_isRegion h
  · exact ⟨rfl, nofun, nofun⟩
  · exact ⟨rfl, nofun, nofun⟩

end Op

namespace Graph

/-- What the construction of blocks relies on: use lists agree with inputs, a removed node has no
inputs left, control starts at the start node, and a projection hangs on one node. -/
structure WellFormed (g : Graph) : Prop where
  verified : g.verify = .ok ()
  start_op : g.op start = .start
  start_inputs : g.inputs start = #[]
  start_live : start ∈ g.live
  dead_inputs : ∀ n, g.isDead n → g.inputs n = #[]
  side_inputs : ∀ n ∈ g.live, ∀ i, g.op n = .ctrlProj i → (g.inputs n).size = 1

variable {g : Graph} {n u x y : NodeId} {i : Nat}

theorem mem_live : n ∈ g.live ↔ n < g.size ∧ g.isDead n = false := by
  simp [live]

theorem input_eq_getElem? : g.input n i = ((g.inputs n)[i]?).join := rfl

theorem verify_spec (h : g.verify = .ok ()) (hn : n ∈ g.live) :
    (∀ d, some d ∈ g.inputs n → g.isDead d = false ∧ n ∈ g.usesOf d) ∧
      ∀ u ∈ g.usesOf n, some n ∈ g.inputs u := by
  have hflaws : (∀ m ∈ g.live, g.deadInput? m = none) ∧ ∀ m ∈ g.live, g.useFlaw? m = none := by
    unfold verify at h
    split at h
    · exact nomatch h
    · rename_i hnone
      rwa [Option.or_eq_none_iff, List.findSome?_eq_none_iff, List.findSome?_eq_none_iff] at hnone
  have hdead := hflaws.1 n hn
  have huse := hflaws.2 n hn
  rw [deadInput?, Option.map_eq_none_iff, List.find?_eq_none] at hdead
  rw [useFlaw?, Option.or_eq_none_iff, List.findSome?_eq_none_iff,
    List.findSome?_eq_none_iff] at huse
  constructor
  · intro d hd
    have hmem : d ∈ (g.inputs n).toList.reduceOption := by
      rw [List.reduceOption_mem_iff]
      exact Array.mem_toList_iff.mpr hd
    refine ⟨by simpa using hdead d hmem, ?_⟩
    have heq : g.edgeCount n d = (g.usesOf d).count n := by
      by_contra hne
      simpa [hne] using huse.1 d hmem
    rw [← Array.count_pos_iff, ← heq]
    exact Array.count_pos_iff.mpr hd
  · intro u hu
    have heq : g.edgeCount u n = (g.usesOf n).count u := by
      by_contra hne
      simpa [hne] using huse.2 u (Array.mem_toList_iff.mpr hu)
    rw [← Array.count_pos_iff]
    show 0 < g.edgeCount u n
    rw [heq]
    exact Array.count_pos_iff.mpr hu

theorem mem_inputs_of_input (h : g.input n i = some x) : some x ∈ g.inputs n := by
  rw [input_eq_getElem?, Option.join_eq_some_iff] at h
  exact Array.mem_of_getElem? h

theorem WellFormed.mem_usesOf (hg : g.WellFormed) (hn : n ∈ g.live) (h : g.input n i = some x) :
    n ∈ g.usesOf x :=
  ((verify_spec hg.verified hn).1 x (mem_inputs_of_input h)).2

theorem input_eq_none_of_inputs (h : g.inputs n = #[]) (i : Nat) : g.input n i = none := by
  rw [input_eq_getElem?, h]
  rfl

theorem op_of_size_le (h : g.size ≤ n) : g.op n = .start := by
  rw [op, node, Array.getD_eq_getD_getElem?, Array.getElem?_eq_none h]
  rfl

theorem lt_size_of_op_ne (h : g.op n ≠ .start) : n < g.size :=
  Nat.lt_of_not_le fun hbig => h (op_of_size_le hbig)

theorem inputs_of_size_le (h : g.size ≤ n) : g.inputs n = #[] := by
  rw [inputs, node, Array.getD_eq_getD_getElem?, Array.getElem?_eq_none h]
  rfl

instance (g : Graph) : Decidable g.WellFormed :=
  decidable_of_iff (g.verify = .ok () ∧ g.op start = .start ∧ g.inputs start = #[] ∧
      start ∈ g.live ∧ (∀ n < g.size, g.isDead n → g.inputs n = #[]) ∧
      ∀ n ∈ g.live, ((g.op n matches .ctrlProj _) → (g.inputs n).size = 1)) <| by
    constructor
    · rintro ⟨hverify, hop, hinputs, hlive, hdead, hside⟩
      refine ⟨hverify, hop, hinputs, hlive, fun n hn => ?_, fun n hn i hi => ?_⟩
      · rcases Nat.lt_or_ge n g.size with hlt | hge
        · exact hdead n hlt hn
        · exact inputs_of_size_le hge
      · exact hside n hn (by rw [hi])
    · intro h
      refine ⟨h.verified, h.start_op, h.start_inputs, h.start_live, fun n _ => h.dead_inputs n,
        fun n hn hside => ?_⟩
      cases hop : g.op n <;> simp_all
      exact h.side_inputs n hn _ hop

/-- Regions take control at their later inputs only. -/
def JoinsLater (g : Graph) : Prop :=
  ∀ n ∈ g.live, (g.op n).isRegion → ∀ x ∈ g.input n 0, (g.op x).isCfg = false

instance (g : Graph) : Decidable g.JoinsLater :=
  inferInstanceAs (Decidable (∀ n ∈ g.live, (g.op n).isRegion → ∀ x ∈ g.input n 0, _ = false))

theorem JoinsLater.of_none (h : ∀ n ∈ g.live, (g.op n).isRegion → g.input n 0 = none) :
    g.JoinsLater := by
  intro n hn hregion x hx
  rw [h n hn hregion] at hx
  exact nomatch hx

theorem user_live_of_verify (hverify : g.verify = .ok ())
    (hdead : ∀ m, g.isDead m → g.inputs m = #[]) (hn : n ∈ g.live) (hu : u ∈ g.usesOf n) :
    some n ∈ g.inputs u ∧ u ∈ g.live := by
  have hmem := (verify_spec hverify hn).2 u hu
  refine ⟨hmem, mem_live.mpr ⟨?_, ?_⟩⟩
  · by_contra hbig
    rw [inputs_of_size_le (Nat.le_of_not_lt hbig)] at hmem
    exact Array.not_mem_empty _ hmem
  · by_contra hlive
    rw [hdead u (Bool.eq_true_of_not_eq_false hlive)] at hmem
    exact Array.not_mem_empty _ hmem

theorem WellFormed.user_live (hg : g.WellFormed) (hn : n ∈ g.live) (hu : u ∈ g.usesOf n) :
    some n ∈ g.inputs u ∧ u ∈ g.live :=
  user_live_of_verify hg.verified hg.dead_inputs hn hu

theorem WellFormed.of_side? (hg : g.WellFormed) (hn : n ∈ g.live) (h : g.side? n i = some u) :
    u ∈ g.live ∧ g.op u = .ctrlProj i ∧ g.input u 0 = some n := by
  have hop : g.op u = .ctrlProj i := by simpa using Array.find?_some h
  obtain ⟨hmem, hlive⟩ := hg.user_live hn (Array.mem_of_find?_eq_some h)
  refine ⟨hlive, hop, ?_⟩
  obtain ⟨j, hj, hget⟩ := Array.mem_iff_getElem.mp hmem
  have hsize := hg.side_inputs u hlive i hop
  obtain rfl : j = 0 := by omega
  rw [input_eq_getElem?, Array.getElem?_eq_getElem hj, hget]
  rfl

theorem WellFormed.of_nextCtrl (hg : g.WellFormed) (hn : n ∈ g.live)
    (h : g.nextCtrl n = .ok u) : u ∈ g.live ∧ (g.op u).isCfg ∧ g.op u ≠ .stop ∧
      some n ∈ g.inputs u ∧ ((g.op u).isRegion ∨ g.input u 0 = some n) := by
  unfold nextCtrl at h
  split at h
  case h_1 => exact nomatch h
  case h_2 v rest hcons =>
    split at h
    case isFalse => exact nomatch h
    case isTrue =>
      obtain rfl := Except.ok.inj h
      have hmem : v ∈ (g.usesOf n).toList.filter (g.takesControl n) :=
        hcons ▸ List.mem_cons_self
      rw [List.mem_filter, Array.mem_toList_iff] at hmem
      obtain ⟨hin, hlive⟩ := hg.user_live hn hmem.1
      have htakes := hmem.2
      simp only [takesControl, Bool.and_eq_true, bne_iff_ne, Bool.or_eq_true, beq_iff_eq] at htakes
      exact ⟨hlive, htakes.1.1, htakes.1.2, hin, htakes.2⟩

end Graph

end SeaNodes
