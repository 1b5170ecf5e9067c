import Mathlib.Data.Finset.Card
import Mathlib.Data.Finset.Prod
import SeaNodes.Proofs.Sets
import SeaNodes.Registers.Live

namespace SeaNodes

variable {τ : Type}

/-- Some way on from before `rest`, the rest of block `b`, reads `v` before it writes it. -/
inductive MachFunction.LiveFrom (f : MachFunction τ) (v : VReg) : List (Inst τ) → Nat → Prop
  | use {i : Inst τ} {rest : List (Inst τ)} {b : Nat} :
    (∃ o ∈ i.uses, o.vreg = v) → LiveFrom f v (i :: rest) b
  | skip {i : Inst τ} {rest : List (Inst τ)} {b : Nat} :
    (∀ o ∈ i.defs, o.vreg ≠ v) → LiveFrom f v rest b → LiveFrom f v (i :: rest) b
  | leave {b t : Nat} :
    t ∈ (f.block b).succs → LiveFrom f v (f.block t).insts t → LiveFrom f v [] b

/-- `v` is live at the start of block `b`. -/
def MachFunction.LiveInto (f : MachFunction τ) (v : VReg) (b : Nat) : Prop :=
  f.LiveFrom v (f.block b).insts b

theorem Inst.contains_liveBefore (i : Inst τ) (s : BitSet) (v : VReg) :
    (i.liveBefore s).contains v ↔
      (∃ o ∈ i.uses, o.vreg = v) ∨ (s.contains v ∧ ∀ o ∈ i.defs, o.vreg ≠ v) := by
  rw [liveBefore, BitSet.contains_foldl_insert, BitSet.contains_foldl_erase, or_comm]

def liveThrough (is : List (Inst τ)) (out : BitSet) : BitSet :=
  is.foldr (fun i s => i.liveBefore s) out

theorem contains_liveThrough_cons (i : Inst τ) (is : List (Inst τ)) (out : BitSet) (v : VReg) :
    (liveThrough (i :: is) out).contains v ↔ (∃ o ∈ i.uses, o.vreg = v) ∨
      ((liveThrough is out).contains v ∧ ∀ o ∈ i.defs, o.vreg ≠ v) :=
  i.contains_liveBefore _ v

theorem contains_liveThrough (is : List (Inst τ)) (out : BitSet) (v : VReg) :
    (liveThrough is out).contains v ↔ (liveThrough is .empty).contains v ∨
      (out.contains v ∧ ∀ i ∈ is, ∀ o ∈ i.defs, o.vreg ≠ v) := by
  induction is with
  | nil => simp [liveThrough]
  | cons i is ih =>
    rw [contains_liveThrough_cons, contains_liveThrough_cons, ih, List.forall_mem_cons,
      or_and_right, and_assoc, and_comm (a := ∀ j ∈ is, _), or_assoc]

theorem MachBlock.contains_writes (b : MachBlock τ) (v : VReg) :
    b.writes.contains v ↔ ∃ i ∈ b.insts, ∃ o ∈ i.defs, o.vreg = v := by
  have h (is : List (Inst τ)) (s : BitSet) :
      (is.foldl (fun s i => i.defs.foldl (fun s o => s.insert o.vreg) s) s).contains v ↔
        s.contains v ∨ ∃ i ∈ is, ∃ o ∈ i.defs, o.vreg = v := by
    induction is generalizing s with
    | nil => simp
    | cons i is ih =>
      rw [List.foldl_cons, ih, BitSet.contains_foldl_insert]
      simp only [List.mem_cons, exists_eq_or_imp, or_assoc]
  simpa [writes] using h b.insts .empty

theorem MachBlock.contains_liveThrough_insts (b : MachBlock τ) (out : BitSet) (v : VReg) :
    (liveThrough b.insts out).contains v ↔
      b.reads.contains v ∨ (out.contains v ∧ b.writes.contains v = false) := by
  rw [contains_liveThrough, Bool.eq_false_iff, ne_eq, contains_writes]
  push Not
  rfl

theorem MachFunction.liveFrom_of_reads (f : MachFunction τ) (v : VReg) (is : List (Inst τ))
    (b : Nat) (h : (liveThrough is .empty).contains v) : f.LiveFrom v is b := by
  induction is with
  | nil => simp [liveThrough] at h
  | cons i is ih =>
    rcases (contains_liveThrough_cons i is _ v).mp h with hu | ⟨hl, hd⟩
    · exact .use hu
    · exact .skip hd (ih hl)

theorem MachFunction.LiveFrom.through {f : MachFunction τ} {v : VReg} {b : Nat}
    (h : f.LiveFrom v [] b) (is : List (Inst τ)) (hd : ∀ i ∈ is, ∀ o ∈ i.defs, o.vreg ≠ v) :
    f.LiveFrom v is b := by
  induction is with
  | nil => exact h
  | cons i is ih =>
    rw [List.forall_mem_cons] at hd
    exact .skip hd.1 (ih hd.2)

theorem Liveness.lt_vregBound {f : MachFunction τ} {i : Inst τ} {o : Operand}
    (hi : i ∈ f.insts) (ho : o ∈ i.operands) : o.vreg < vregBound f := by
  have hops (os : List Operand) (n : Nat) :
      n ≤ os.foldl (fun n o => max n (o.vreg + 1)) n ∧
        ∀ o ∈ os, o.vreg < os.foldl (fun n o => max n (o.vreg + 1)) n := by
    induction os generalizing n with
    | nil => simp
    | cons a os ih =>
      obtain ⟨h1, h2⟩ := ih (max n (a.vreg + 1))
      simp only [List.foldl_cons, List.forall_mem_cons]
      exact ⟨(Nat.le_max_left _ _).trans h1, (Nat.le_max_right _ _).trans h1, h2⟩
  have hins (is : List (Inst τ)) (n : Nat) :
      n ≤ is.foldl (fun n i => i.operands.foldl (fun n o => max n (o.vreg + 1)) n) n ∧
        ∀ i ∈ is, ∀ o ∈ i.operands, o.vreg <
          is.foldl (fun n i => i.operands.foldl (fun n o => max n (o.vreg + 1)) n) n := by
    induction is generalizing n with
    | nil => simp
    | cons a is ih =>
      obtain ⟨h1, h2⟩ := ih (a.operands.foldl (fun n o => max n (o.vreg + 1)) n)
      obtain ⟨h3, h4⟩ := hops a.operands n
      simp only [List.foldl_cons, List.forall_mem_cons]
      exact ⟨h3.trans h1, fun o ho => (h4 o ho).trans_le h1, h2⟩
  exact (hins f.insts f.vregs.size).2 i hi o ho

theorem MachFunction.block_of_size_le {f : MachFunction τ} {b : Nat} (hb : f.blocks.size ≤ b) :
    f.block b = default := by
  rw [block, Array.getD_eq_getD_getElem?, Array.getElem?_eq_none hb, Option.getD_none]

theorem MachFunction.block_eq_getElem {f : MachFunction τ} {b : Nat} (hb : b < f.blocks.size) :
    f.block b = f.blocks[b] := by
  rw [block, Array.getD_eq_getD_getElem?, Array.getElem?_eq_getElem hb, Option.getD_some]

theorem MachFunction.lt_of_mem {α : Type} {f : MachFunction τ} {b : Nat} {x : α}
    (part : MachBlock τ → List α) (hempty : part default = []) (hx : x ∈ part (f.block b)) :
    b < f.blocks.size := by
  by_contra h
  rw [block_of_size_le (Nat.le_of_not_lt h), hempty] at hx
  exact absurd hx List.not_mem_nil

theorem MachFunction.lt_of_mem_insts {f : MachFunction τ} {b : Nat} {i : Inst τ}
    (hi : i ∈ (f.block b).insts) : b < f.blocks.size :=
  f.lt_of_mem MachBlock.insts rfl hi

theorem MachFunction.mem_insts {f : MachFunction τ} {b : Nat} {i : Inst τ}
    (hi : i ∈ (f.block b).insts) : i ∈ f.insts := by
  rw [block_eq_getElem (lt_of_mem_insts hi)] at hi
  exact List.mem_flatMap.mpr ⟨_, by simp, hi⟩

theorem MachFunction.LiveFrom.lt_vregBound {f : MachFunction τ} {v : VReg} {is : List (Inst τ)}
    {b : Nat} (h : f.LiveFrom v is b) (his : ∀ i ∈ is, i ∈ f.insts) :
    v < Liveness.vregBound f := by
  induction h with
  | use hu =>
    obtain ⟨o, ho, rfl⟩ := hu
    exact Liveness.lt_vregBound (his _ List.mem_cons_self) (List.mem_append_right _ ho)
  | skip _ _ ih => exact ih fun i hi => his i (List.mem_cons_of_mem _ hi)
  | leave _ _ ih => exact ih fun i hi => mem_insts hi

namespace Liveness

def atStart (l : Liveness) (b : Nat) : BitSet := l.liveIn.getD b .empty

def atEnd (l : Liveness) (b : Nat) : BitSet := l.liveOut.getD b .empty

def Passed (f : MachFunction τ) (l : Liveness) (b : Nat) (v : VReg) : Prop :=
  ∃ t ∈ (f.block b).succs, (l.atStart t).contains v

/-- The sets hold only live registers, and all that the blocks read themselves. -/
structure Partial (f : MachFunction τ) (l : Liveness) : Prop where
  size_liveIn : l.liveIn.size = f.blocks.size
  size_liveOut : l.liveOut.size = f.blocks.size
  of_reads : ∀ b v, (f.block b).reads.contains v → (l.atStart b).contains v
  live_atStart : ∀ b v, (l.atStart b).contains v → f.LiveInto v b
  live_atEnd : ∀ b v, (l.atEnd b).contains v → f.LiveFrom v [] b

/-- The sets are closed under what the blocks pass on to their predecessors. -/
structure Settled (f : MachFunction τ) (l : Liveness) : Prop where
  atEnd : ∀ b < f.blocks.size, ∀ v, Passed f l b v → (l.atEnd b).contains v
  atStart : ∀ b < f.blocks.size, ∀ v, (l.atEnd b).contains v →
    (f.block b).writes.contains v = false → (l.atStart b).contains v

section Update

variable (f : MachFunction τ) (w : Array BitSet) (l : Liveness) (b : Nat)

theorem contains_passed (v : VReg) :
    ((f.block b).succs.foldl (fun s t => s.union (l.liveIn.getD t .empty))
      BitSet.empty).contains v ↔
      Passed f l b v := by
  rw [BitSet.contains_foldl_union]
  simp [Passed, atStart]

theorem update_fst : (update f w l b).1 = true ↔ ∃ v, Passed f l b v ∧
    (w.getD b .empty).contains v = false ∧ (l.atStart b).contains v = false := by
  simp only [update, Bool.not_eq_true', ← Bool.not_eq_true, List.isEmpty_iff,
    List.filter_eq_nil_iff, BitSet.mem_toList, contains_passed, atStart]
  push Not
  simp

theorem atStart_update (hb : b < l.liveIn.size) (c : Nat) (v : VReg) :
    ((update f w l b).2.atStart c).contains v ↔ (l.atStart c).contains v ∨
      (c = b ∧ Passed f l b v ∧ (w.getD b .empty).contains v = false) := by
  simp only [update, atStart, getD_setIfInBounds]
  by_cases h : b = c
  · subst h
    rw [if_pos ⟨rfl, hb⟩]
    refine (BitSet.contains_foldl_insert id _ _).trans ?_
    simp only [List.mem_filter, BitSet.mem_toList, contains_passed]
    cases hl : (l.liveIn.getD b .empty).contains v <;> simp [-Array.getD_eq_getD_getElem?, hl]
  · simp [h, Ne.symm h]

theorem atEnd_update (hb : b < l.liveOut.size) (c : Nat) (v : VReg) :
    ((update f w l b).2.atEnd c).contains v ↔
      if c = b then Passed f l b v else (l.atEnd c).contains v := by
  simp only [update, atEnd, getD_setIfInBounds]
  by_cases h : b = c
  · subst h
    rw [if_pos ⟨rfl, hb⟩, if_pos rfl, contains_passed]
  · simp [h, Ne.symm h]

end Update

variable {f : MachFunction τ} {w : Array BitSet} {l : Liveness}

theorem Partial.liveFrom_of_passed (h : Partial f l) {b : Nat} {v : VReg} (hp : Passed f l b v) :
    f.LiveFrom v [] b := by
  obtain ⟨t, ht, hv⟩ := hp
  exact .leave ht (h.live_atStart t v hv)

theorem Partial.update (h : Partial f l) {b : Nat} (hb : b < f.blocks.size)
    (hw : (w.getD b .empty) = (f.block b).writes) : Partial f (update f w l b).2 where
  size_liveIn := by simpa [Liveness.update] using h.size_liveIn
  size_liveOut := by simpa [Liveness.update] using h.size_liveOut
  of_reads c v hr := by
    rw [atStart_update f w l b (h.size_liveIn ▸ hb)]
    exact .inl (h.of_reads c v hr)
  live_atStart c v hv := by
    rw [atStart_update f w l b (h.size_liveIn ▸ hb)] at hv
    rcases hv with hv | ⟨rfl, hp, hn⟩
    · exact h.live_atStart c v hv
    · apply (h.liveFrom_of_passed hp).through
      rw [hw, Bool.eq_false_iff, ne_eq, MachBlock.contains_writes] at hn
      push Not at hn
      exact hn
  live_atEnd c v hv := by
    rw [atEnd_update f w l b (h.size_liveOut ▸ hb)] at hv
    split_ifs at hv with hc
    · rw [hc]
      exact h.liveFrom_of_passed hv
    · exact h.live_atEnd c v hv

/-- Updates some blocks, from last to first. -/
def sweep (f : MachFunction τ) (w : Array BitSet) (bs : List Nat) (l : Liveness) :
    Bool × Liveness :=
  bs.foldr (fun b (changed, l) =>
    let (grew, l) := update f w l b
    (changed || grew, l)) (false, l)

theorem sweep_cons (b : Nat) (bs : List Nat) : sweep f w (b :: bs) l =
    ((sweep f w bs l).1 || (update f w (sweep f w bs l).2 b).1,
      (update f w (sweep f w bs l).2 b).2) := rfl

theorem Partial.sweep (h : Partial f l) (bs : List Nat) (hbs : ∀ b ∈ bs, b < f.blocks.size)
    (hw : ∀ b < f.blocks.size, w.getD b .empty = (f.block b).writes) :
    Partial f (sweep f w bs l).2 := by
  induction bs with
  | nil => exact h
  | cons b bs ih =>
    rw [List.forall_mem_cons] at hbs
    exact (ih hbs.2).update hbs.1 (hw b hbs.1)

theorem Partial.atStart_sweep_mono (h : Partial f l) (bs : List Nat)
    (hbs : ∀ b ∈ bs, b < f.blocks.size)
    (hw : ∀ b < f.blocks.size, w.getD b .empty = (f.block b).writes) (c : Nat) (v : VReg)
    (hv : (l.atStart c).contains v) : ((Liveness.sweep f w bs l).2.atStart c).contains v := by
  induction bs with
  | nil => exact hv
  | cons b bs ih =>
    rw [List.forall_mem_cons] at hbs
    rw [sweep_cons, atStart_update _ _ _ _ ((h.sweep bs hbs.2 hw).size_liveIn ▸ hbs.1)]
    exact .inl (ih hbs.2)

theorem Partial.exists_of_sweep (h : Partial f l) (bs : List Nat)
    (hbs : ∀ b ∈ bs, b < f.blocks.size)
    (hw : ∀ b < f.blocks.size, w.getD b .empty = (f.block b).writes)
    (hc : (Liveness.sweep f w bs l).1 = true) : ∃ b < f.blocks.size, ∃ v,
      (l.atStart b).contains v = false ∧ ((Liveness.sweep f w bs l).2.atStart b).contains v := by
  induction bs with
  | nil => exact absurd hc Bool.false_ne_true
  | cons b bs ih =>
    rw [List.forall_mem_cons] at hbs
    have hp := h.sweep bs hbs.2 hw
    have hb := hp.size_liveIn ▸ hbs.1
    rw [sweep_cons] at hc ⊢
    rcases Bool.or_eq_true_iff.mp hc with hc | hc
    · obtain ⟨c, hcn, v, hv, hv'⟩ := ih hbs.2 hc
      exact ⟨c, hcn, v, hv, (atStart_update _ _ _ _ hb c v).mpr (.inl hv')⟩
    · obtain ⟨v, hpass, hwv, hv⟩ := (update_fst _ _ _ _).mp hc
      refine ⟨b, hbs.1, v, ?_, (atStart_update _ _ _ _ hb b v).mpr (.inr ⟨rfl, hpass, hwv⟩)⟩
      rw [Bool.eq_false_iff] at hv ⊢
      exact fun hl => hv (h.atStart_sweep_mono bs hbs.2 hw b v hl)

/-- A sweep that reports no change leaves the sets at the starts of blocks alone, and those of the
blocks it went over are closed. -/
theorem Partial.closed_of_sweep (h : Partial f l) (bs : List Nat)
    (hbs : ∀ b ∈ bs, b < f.blocks.size)
    (hw : ∀ b < f.blocks.size, w.getD b .empty = (f.block b).writes)
    (hc : (Liveness.sweep f w bs l).1 = false) :
    (∀ c v, ((Liveness.sweep f w bs l).2.atStart c).contains v ↔ (l.atStart c).contains v) ∧
    ∀ b ∈ bs, ∀ v, (((Liveness.sweep f w bs l).2.atEnd b).contains v ↔ Passed f l b v) ∧
      (Passed f l b v → (f.block b).writes.contains v = false → (l.atStart b).contains v) := by
  induction bs with
  | nil => exact ⟨fun _ _ => Iff.rfl, by simp⟩
  | cons b bs ih =>
    rw [List.forall_mem_cons] at hbs
    rw [sweep_cons] at hc ⊢
    obtain ⟨hc1, hc2⟩ := Bool.or_eq_false_iff.mp hc
    obtain ⟨hin, hout⟩ := ih hbs.2 hc1
    have hp := h.sweep bs hbs.2 hw
    -- the set of `b` did not grow, so nothing that is passed on was missing
    have hpass (c : Nat) (v : VReg) :
        Passed f (Liveness.sweep f w bs l).2 c v ↔ Passed f l c v := by
      simp only [Passed, hin]
    have hgrew (v : VReg) (hv : Passed f l b v) (hn : (f.block b).writes.contains v = false) :
        (l.atStart b).contains v := by
      by_contra hb
      refine absurd ((update_fst _ _ _ _).mpr ⟨v, (hpass b v).mpr hv, hw b hbs.1 ▸ hn, ?_⟩) ?_
      · rwa [Bool.eq_false_iff, ne_eq, hin]
      · rw [hc2]
        decide
    refine ⟨fun c v => ?_, fun c hcm v => ⟨?_, ?_⟩⟩
    · rw [atStart_update _ _ _ _ (hp.size_liveIn ▸ hbs.1), hin]
      refine or_iff_left_of_imp ?_
      rintro ⟨rfl, hv, hn⟩
      exact hgrew v ((hpass _ v).mp hv) (hw _ hbs.1 ▸ hn)
    · rw [atEnd_update _ _ _ _ (hp.size_liveOut ▸ hbs.1)]
      split_ifs with hcb
      · rw [hcb, hpass]
      · exact (hout c ((List.mem_cons.mp hcm).resolve_left hcb) v).1
    · rcases List.mem_cons.mp hcm with rfl | hcm
      · exact hgrew v
      · exact (hout c hcm v).2

theorem round_eq_sweep : round f w l =
    sweep f w (List.range f.blocks.size) { l with iterations := l.iterations + 1 } := rfl

/-- The places that are still free, of which there are finitely many. -/
def gaps (f : MachFunction τ) (l : Liveness) : Finset (Nat × VReg) :=
  (Finset.range f.blocks.size ×ˢ Finset.range (vregBound f)).filter fun p =>
    (l.atStart p.1).contains p.2 = false

theorem card_gaps_le : (gaps f l).card ≤ f.blocks.size * vregBound f := by
  refine (Finset.card_filter_le _ _).trans ?_
  rw [Finset.card_product, Finset.card_range, Finset.card_range]

theorem Partial.round (h : Partial f l)
    (hw : ∀ b < f.blocks.size, w.getD b .empty = (f.block b).writes) :
    Partial f (round f w l).2 :=
  Partial.sweep (l := { l with iterations := l.iterations + 1 })
    ⟨h.size_liveIn, h.size_liveOut, h.of_reads, h.live_atStart, h.live_atEnd⟩ _ (by simp) hw

theorem Partial.card_gaps_round (h : Partial f l)
    (hw : ∀ b < f.blocks.size, w.getD b .empty = (f.block b).writes)
    (hc : (Liveness.round f w l).1 = true) :
    (gaps f (Liveness.round f w l).2).card < (gaps f l).card := by
  have hl : Partial f { l with iterations := l.iterations + 1 } :=
    ⟨h.size_liveIn, h.size_liveOut, h.of_reads, h.live_atStart, h.live_atEnd⟩
  have hmono := hl.atStart_sweep_mono (List.range f.blocks.size) (by simp) hw
  obtain ⟨b, hb, v, hv, hv'⟩ := hl.exists_of_sweep (List.range f.blocks.size) (by simp) hw hc
  have hlive : f.LiveInto v b := (h.round hw).live_atStart b v hv'
  have hlt : v < vregBound f := hlive.lt_vregBound fun i hi => MachFunction.mem_insts hi
  apply Finset.card_lt_card
  refine (Finset.ssubset_iff_of_subset ?_).mpr ⟨(b, v), ?_, ?_⟩
  · intro p hp
    simp only [gaps, Finset.mem_filter, Bool.eq_false_iff] at hp ⊢
    exact ⟨hp.1, fun hl => hp.2 (hmono p.1 p.2 hl)⟩
  · simp only [gaps, Finset.mem_filter, Finset.mem_product, Finset.mem_range]
    exact ⟨⟨hb, hlt⟩, hv⟩
  · simp only [gaps, Finset.mem_filter, not_and, Bool.not_eq_false]
    exact fun _ => hv'

theorem Partial.settled_of_round (h : Partial f l)
    (hw : ∀ b < f.blocks.size, w.getD b .empty = (f.block b).writes)
    (hc : (Liveness.round f w l).1 = false) : Settled f (Liveness.round f w l).2 := by
  have hl : Partial f { l with iterations := l.iterations + 1 } :=
    ⟨h.size_liveIn, h.size_liveOut, h.of_reads, h.live_atStart, h.live_atEnd⟩
  obtain ⟨hin, hout⟩ := hl.closed_of_sweep (List.range f.blocks.size) (by simp) hw hc
  have hpass (b : Nat) (v : VReg) : Passed f (Liveness.round f w l).2 b v ↔
      Passed f { l with iterations := l.iterations + 1 } b v := by
    simp only [Passed, round_eq_sweep, hin]
  constructor
  · intro b hb v hv
    exact ((hout b (List.mem_range.mpr hb) v).1).mpr ((hpass b v).mp hv)
  · intro b hb v hv hn
    obtain ⟨he, hs⟩ := hout b (List.mem_range.mpr hb) v
    exact (hin b v).mpr (hs (he.mp hv) hn)

theorem settle_succ (k : Nat) : settle f w (k + 1) l =
    if (round f w l).1 then settle f w k (round f w l).2 else (round f w l).2 := rfl

theorem Partial.settle (h : Partial f l)
    (hw : ∀ b < f.blocks.size, w.getD b .empty = (f.block b).writes) (k : Nat)
    (hk : (gaps f l).card < k) :
    Partial f (settle f w k l) ∧ Settled f (settle f w k l) := by
  induction k generalizing l with
  | zero => omega
  | succ k ih =>
    rw [settle_succ]
    split_ifs with hc
    · have hlt := h.card_gaps_round hw hc
      exact ih (h.round hw) (by omega)
    · exact ⟨h.round hw, h.settled_of_round hw (Bool.eq_false_iff.mpr hc)⟩

theorem partial_initial (f : MachFunction τ) : Partial f
    { liveIn := f.blocks.map (·.reads), liveOut := f.blocks.map fun _ => .empty } := by
  have hin (b : Nat) : (f.blocks.map (·.reads)).getD b .empty = (f.block b).reads := by
    rw [MachFunction.block, Array.getD_eq_getD_getElem?, Array.getElem?_map,
      Array.getD_eq_getD_getElem?]
    cases f.blocks[b]? <;> rfl
  have hout (b : Nat) : (f.blocks.map fun _ => BitSet.empty).getD b .empty = .empty := by
    rw [Array.getD_eq_getD_getElem?, Array.getElem?_map]
    cases f.blocks[b]? <;> rfl
  refine ⟨by simp, by simp, ?_, ?_, ?_⟩
  · intro b v hv
    simpa only [atStart, hin] using hv
  · intro b v hv
    simp only [atStart, hin] at hv
    exact f.liveFrom_of_reads v _ b hv
  · intro b v hv
    simp [atEnd, hout] at hv

theorem getD_map_writes (f : MachFunction τ) (b : Nat) (hb : b < f.blocks.size) :
    (f.blocks.map (·.writes)).getD b .empty = (f.block b).writes := by
  rw [Array.getD_eq_getD_getElem?, Array.getElem?_map, Array.getElem?_eq_getElem hb,
    MachFunction.block_eq_getElem hb]
  rfl

theorem ofFunction_settles (f : MachFunction τ) :
    Partial f (ofFunction f) ∧ Settled f (ofFunction f) :=
  (partial_initial f).settle (getD_map_writes f) _ (Nat.lt_succ_of_le card_gaps_le)

theorem contains_liveThrough_iff (f : MachFunction τ) (v : VReg) (rest : List (Inst τ)) (b : Nat) :
    (liveThrough rest ((ofFunction f).atEnd b)).contains v ↔ f.LiveFrom v rest b := by
  obtain ⟨hp, hs⟩ := ofFunction_settles f
  constructor
  · intro h
    rcases (contains_liveThrough rest _ v).mp h with hr | ⟨ho, hd⟩
    · exact f.liveFrom_of_reads v rest b hr
    · exact (hp.live_atEnd b v ho).through rest hd
  · intro h
    induction h with
    | use hu => exact (contains_liveThrough_cons _ _ _ _).mpr (.inl hu)
    | skip hd _ ih => exact (contains_liveThrough_cons _ _ _ _).mpr (.inr ⟨ih, hd⟩)
    | @leave b t ht _ ih =>
      have hb : b < f.blocks.size := f.lt_of_mem MachBlock.succs rfl ht
      refine hs.atEnd b hb v ⟨t, ht, ?_⟩
      rcases ((f.block t).contains_liveThrough_insts _ v).mp ih with hr | ⟨ho, hn⟩
      · exact hp.of_reads t v hr
      · by_cases htn : t < f.blocks.size
        · exact hs.atStart t htn v ho hn
        · rw [atEnd, Array.getD_eq_getD_getElem?, Array.getElem?_eq_none
            (hp.size_liveOut ▸ Nat.le_of_not_lt htn)] at ho
          simp at ho

end Liveness

end SeaNodes
