import Mathlib.Data.List.MinMax
import SeaNodes.Proofs.Flow.NaturalLoops

namespace SeaNodes

namespace LoopForest

open Cfg

variable {c : Cfg} {f : LoopForest} {b h t : BlockId} {i j k p : Nat}

def loop (f : LoopForest) (i : Nat) : Loop := f.loops.getD i default

theorem getElem?_loops (hi : i < f.loops.size) : f.loops[i]? = some (f.loop i) := by
  rw [loop, Array.getD_eq_getD_getElem?, Array.getElem?_eq_getElem hi, Option.getD_some]

/-- The loops that contain a block. -/
def around (f : LoopForest) (b : BlockId) : Finset Nat :=
  (Finset.range f.loops.size).filter fun i => b ∈ (f.loop i).body

def Encloses (f : LoopForest) (j i : Nat) : Prop :=
  j < f.loops.size ∧ (f.loop i).header ∈ (f.loop j).body ∧
    (f.loop i).body.length < (f.loop j).body.length

theorem mem_around : i ∈ f.around b ↔ i < f.loops.size ∧ b ∈ (f.loop i).body := by
  rw [around, Finset.mem_filter, Finset.mem_range]

/-- Loops are disjoint or nested. -/
structure Laminar (f : LoopForest) : Prop where
  header_mem : ∀ i < f.loops.size, (f.loop i).header ∈ (f.loop i).body
  nodup : ∀ i < f.loops.size, (f.loop i).body.Nodup
  /-- A loop whose header is in another one is part of it. -/
  within : ∀ i < f.loops.size, ∀ j < f.loops.size, i ≠ j → (f.loop i).header ∈ (f.loop j).body →
    (f.loop i).body ⊆ (f.loop j).body ∧ (f.loop j).header ∉ (f.loop i).body
  meet : ∀ i < f.loops.size, ∀ j < f.loops.size, ∀ b ∈ (f.loop i).body, b ∈ (f.loop j).body →
    (f.loop i).header ∈ (f.loop j).body ∨ (f.loop j).header ∈ (f.loop i).body

namespace Laminar

variable (hf : Laminar f)
include hf

theorem length_lt (hi : i < f.loops.size) (hj : j < f.loops.size) (hne : i ≠ j)
    (hmem : (f.loop i).header ∈ (f.loop j).body) :
    (f.loop i).body.length < (f.loop j).body.length := by
  obtain ⟨hsub, hout⟩ := hf.within i hi j hj hne hmem
  have hnodup : ((f.loop j).header :: (f.loop i).body).Nodup :=
    List.nodup_cons.mpr ⟨hout, hf.nodup i hi⟩
  exact (List.subperm_of_subset hnodup
    (List.cons_subset.mpr ⟨hf.header_mem j hj, hsub⟩)).length_le

theorem encloses_iff (hi : i < f.loops.size) :
    f.Encloses j i ↔ j < f.loops.size ∧ j ≠ i ∧ (f.loop i).header ∈ (f.loop j).body := by
  constructor
  · rintro ⟨hj, hmem, hlt⟩
    refine ⟨hj, ?_, hmem⟩
    rintro rfl
    exact lt_irrefl _ hlt
  · rintro ⟨hj, hne, hmem⟩
    exact ⟨hj, hmem, hf.length_lt hi hj hne.symm hmem⟩

theorem header_mem_of_length_le (hi : i < f.loops.size) (hj : j < f.loops.size)
    (hbi : b ∈ (f.loop i).body) (hbj : b ∈ (f.loop j).body)
    (hle : (f.loop i).body.length ≤ (f.loop j).body.length) :
    (f.loop i).header ∈ (f.loop j).body := by
  by_cases hne : i = j
  · exact hne ▸ hf.header_mem i hi
  · refine (hf.meet i hi j hj b hbi hbj).resolve_right fun hmem => ?_
    exact absurd hle (Nat.not_le_of_lt (hf.length_lt hj hi (Ne.symm hne) hmem))

theorem mem_of_header_mem (hi : i < f.loops.size) (hj : j < f.loops.size)
    (hmem : (f.loop i).header ∈ (f.loop j).body) (hb : b ∈ (f.loop i).body) :
    b ∈ (f.loop j).body := by
  by_cases hne : i = j
  · exact hne ▸ hb
  · exact (hf.within i hi j hj hne hmem).1 hb

theorem ssubset_of_header_mem (hi : i < f.loops.size) (hj : j < f.loops.size) (hne : i ≠ j)
    (hmem : (f.loop i).header ∈ (f.loop j).body) :
    (f.loop i).body.toFinset ⊂ (f.loop j).body.toFinset := by
  obtain ⟨hsub, hout⟩ := hf.within i hi j hj hne hmem
  refine (Finset.ssubset_iff_of_subset fun b hb => ?_).mpr ⟨(f.loop j).header, ?_, ?_⟩
  · exact List.mem_toFinset.mpr (hsub (List.mem_toFinset.mp hb))
  · exact List.mem_toFinset.mpr (hf.header_mem j hj)
  · exact fun hb => hout (List.mem_toFinset.mp hb)

theorem disjoint_or_ssubset (hi : i < f.loops.size) (hj : j < f.loops.size) (hne : i ≠ j) :
    Disjoint (f.loop i).body.toFinset (f.loop j).body.toFinset ∨
      (f.loop i).body.toFinset ⊂ (f.loop j).body.toFinset ∨
      (f.loop j).body.toFinset ⊂ (f.loop i).body.toFinset := by
  by_cases hshared : ∃ b ∈ (f.loop i).body, b ∈ (f.loop j).body
  · obtain ⟨b, hbi, hbj⟩ := hshared
    right
    rcases hf.meet i hi j hj b hbi hbj with hmem | hmem
    · exact .inl (hf.ssubset_of_header_mem hi hj hne hmem)
    · exact .inr (hf.ssubset_of_header_mem hj hi hne.symm hmem)
  · refine .inl (Finset.disjoint_left.mpr fun b hbi hbj => hshared ⟨b, ?_, ?_⟩)
    · exact List.mem_toFinset.mp hbi
    · exact List.mem_toFinset.mp hbj

theorem around_header (hi : i < f.loops.size) (hb : b ∈ (f.loop i).body)
    (hleast : ∀ j < f.loops.size, b ∈ (f.loop j).body →
      (f.loop i).body.length ≤ (f.loop j).body.length) :
    f.around (f.loop i).header = f.around b := by
  ext j
  rw [mem_around, mem_around]
  refine and_congr_right fun hj => ⟨fun hmem => hf.mem_of_header_mem hi hj hmem hb, fun hbj => ?_⟩
  exact hf.header_mem_of_length_le hi hj hb hbj (hleast j hj hbj)

omit hf in
theorem parentOf_eq_argmin (f : LoopForest) (i : Nat) (h : BlockId) :
    f.parentOf i h = ((List.range f.loops.size).filter fun j =>
      j != i && (f.loop j).body.contains h).argmin fun j => (f.loop j).body.length := by
  rw [parentOf, List.argmin]
  congr 1
  funext best j
  cases best <;> rfl

theorem parentOf_eq_some_iff (hi : i < f.loops.size) :
    f.parentOf i (f.loop i).header = some p ↔ f.Encloses p i ∧
      ∀ j, f.Encloses j i → (f.loop p).body.length ≤ (f.loop j).body.length := by
  have hmem (j : Nat) : (j ∈ (List.range f.loops.size).filter fun j =>
      j != i && (f.loop j).body.contains (f.loop i).header) ↔ f.Encloses j i := by
    simp [hf.encloses_iff hi]
  have hspec (q : Nat) (hq : f.parentOf i (f.loop i).header = some q) : f.Encloses q i ∧
      ∀ j, f.Encloses j i → (f.loop q).body.length ≤ (f.loop j).body.length := by
    rw [parentOf_eq_argmin] at hq
    refine ⟨(hmem q).mp (List.argmin_mem hq), fun j hj => ?_⟩
    exact List.le_of_mem_argmin (f := fun j => (f.loop j).body.length) ((hmem j).mpr hj) hq
  refine ⟨hspec p, fun ⟨hp, hleast⟩ => ?_⟩
  cases hq : f.parentOf i (f.loop i).header with
  | none =>
    rw [parentOf_eq_argmin, List.argmin_eq_none] at hq
    exact absurd ((hmem p).mpr hp) (hq ▸ List.not_mem_nil)
  | some q =>
    obtain ⟨hq, hleast'⟩ := hspec q hq
    by_contra hne
    have hqp : q ≠ p := fun heq => hne (congrArg some heq)
    have hmem' := hf.header_mem_of_length_le hq.1 hp.1 hq.2.1 hp.2.1 (hleast' p hp)
    exact absurd (hleast q hq) (Nat.not_le_of_lt (hf.length_lt hq.1 hp.1 hqp hmem'))

theorem parentOf_eq_none_iff (hi : i < f.loops.size) :
    f.parentOf i (f.loop i).header = none ↔ ∀ j, ¬ f.Encloses j i := by
  rw [parentOf_eq_argmin, List.argmin_eq_none, List.eq_nil_iff_forall_not_mem]
  simp [hf.encloses_iff hi]

theorem around_of_parent (hi : i < f.loops.size) (hp : f.parentOf i (f.loop i).header = some p) :
    f.around (f.loop i).header = insert i (f.around (f.loop p).header) := by
  obtain ⟨hpi, hleast⟩ := (hf.parentOf_eq_some_iff hi).mp hp
  ext j
  rw [Finset.mem_insert, mem_around, mem_around]
  constructor
  · rintro ⟨hj, hmem⟩
    by_cases hji : j = i
    · exact .inl hji
    · have hle := hleast j ((hf.encloses_iff hi).mpr ⟨hj, hji, hmem⟩)
      exact .inr ⟨hj, hf.header_mem_of_length_le hpi.1 hj hpi.2.1 hmem hle⟩
  · rintro (rfl | ⟨hj, hmem⟩)
    · exact ⟨hi, hf.header_mem j hi⟩
    · exact ⟨hj, hf.mem_of_header_mem hpi.1 hj hmem hpi.2.1⟩

theorem card_around_of_parent (hi : i < f.loops.size)
    (hp : f.parentOf i (f.loop i).header = some p) :
    (f.around (f.loop i).header).card = (f.around (f.loop p).header).card + 1 := by
  rw [hf.around_of_parent hi hp, Finset.card_insert_of_notMem]
  obtain ⟨⟨hps, hmem, hlt⟩, -⟩ := (hf.parentOf_eq_some_iff hi).mp hp
  intro hin
  have hip : i ≠ p := by
    rintro rfl
    exact lt_irrefl _ hlt
  exact (hf.within i hi p hps hip hmem).2 (mem_around.mp hin).2

theorem card_around_of_none (hi : i < f.loops.size)
    (hp : f.parentOf i (f.loop i).header = none) : (f.around (f.loop i).header).card = 1 := by
  have hnone := (hf.parentOf_eq_none_iff hi).mp hp
  refine Finset.card_eq_one.mpr ⟨i, Finset.ext fun j => ?_⟩
  rw [mem_around, Finset.mem_singleton]
  constructor
  · rintro ⟨hj, hmem⟩
    by_contra hji
    exact hnone j ((hf.encloses_iff hi).mpr ⟨hj, hji, hmem⟩)
  · rintro rfl
    exact ⟨hi, hf.header_mem j hi⟩

omit hf in
theorem card_around_le (f : LoopForest) (b : BlockId) : (f.around b).card ≤ f.loops.size :=
  (Finset.card_filter_le _ _).trans (Finset.card_range _).le

theorem depthOf_eq {parent : Nat → Option Nat}
    (hparent : ∀ i < f.loops.size, parent i = f.parentOf i (f.loop i).header)
    (hi : i < f.loops.size) (hk : (f.around (f.loop i).header).card ≤ k + 1) :
    depthOf parent k i = (f.around (f.loop i).header).card := by
  induction k generalizing i with
  | zero =>
    have hpos : 0 < (f.around (f.loop i).header).card :=
      Finset.card_pos.mpr ⟨i, mem_around.mpr ⟨hi, hf.header_mem i hi⟩⟩
    rw [depthOf]
    omega
  | succ k ih =>
    rw [depthOf, hparent i hi]
    cases hp : f.parentOf i (f.loop i).header with
    | none => exact (hf.card_around_of_none hi hp).symm
    | some p =>
      have hcard := hf.card_around_of_parent hi hp
      have hps := ((hf.parentOf_eq_some_iff hi).mp hp).1.1
      rw [hcard]
      exact congrArg (· + 1) (ih hps (by omega))

end Laminar

theorem size_nest (f : LoopForest) : f.nest.loops.size = f.loops.size := by simp [nest]

/-- The parents as they are entered. -/
def parents (f : LoopForest) (i : Nat) : Option Nat :=
  (f.loops.mapIdx fun i l => f.parentOf i l.header).getD i none

theorem parents_eq (hi : i < f.loops.size) : f.parents i = f.parentOf i (f.loop i).header := by
  simp [parents, loop, hi]

theorem loop_nest (hi : i < f.loops.size) : f.nest.loop i =
    { f.loop i with
      parent := f.parents i
      children := (List.range f.loops.size).filter fun j => f.parents j == some i
      depth := depthOf f.parents f.loops.size i } := by
  rw [loop, loop, Array.getD_eq_getD_getElem?, Array.getD_eq_getD_getElem?, nest,
    Array.getElem?_mapIdx, Array.getElem?_eq_getElem hi]
  rfl

theorem lt_size_of_parent (hp : (f.nest.loop i).parent = some p) : i < f.loops.size := by
  by_contra hbig
  rw [loop, Array.getD_eq_getD_getElem?, Array.getElem?_eq_none] at hp
  · exact nomatch hp
  · rw [size_nest]
    exact Nat.le_of_not_lt hbig

theorem header_nest (hi : i < f.loops.size) : (f.nest.loop i).header = (f.loop i).header := by
  rw [loop_nest hi]

theorem backEdges_nest (hi : i < f.loops.size) :
    (f.nest.loop i).backEdges = (f.loop i).backEdges := by
  rw [loop_nest hi]

theorem body_nest (hi : i < f.loops.size) : (f.nest.loop i).body = (f.loop i).body := by
  rw [loop_nest hi]

theorem parent_nest (hi : i < f.loops.size) :
    (f.nest.loop i).parent = f.parentOf i (f.loop i).header := by
  rw [loop_nest hi]
  exact parents_eq hi

theorem encloses_nest (hi : i < f.loops.size) : f.nest.Encloses j i ↔ f.Encloses j i := by
  rw [Encloses, Encloses, size_nest]
  refine and_congr_right fun hj => ?_
  rw [header_nest hi, body_nest hi, body_nest hj]

theorem around_nest (f : LoopForest) (b : BlockId) : f.nest.around b = f.around b := by
  ext i
  rw [mem_around, mem_around, size_nest]
  refine and_congr_right fun hi => ?_
  rw [body_nest hi]

namespace Laminar

variable (hf : Laminar f)
include hf

theorem depth_nest (hi : i < f.loops.size) :
    (f.nest.loop i).depth = (f.around (f.loop i).header).card := by
  have hle := card_around_le f (f.loop i).header
  rw [loop_nest hi]
  exact hf.depthOf_eq (fun _ => parents_eq) hi (by omega)

theorem parent_nest_eq_some_iff (hi : i < f.loops.size) :
    (f.nest.loop i).parent = some p ↔ f.nest.Encloses p i ∧
      ∀ j, f.nest.Encloses j i → (f.nest.loop p).body.length ≤ (f.nest.loop j).body.length := by
  rw [parent_nest hi, hf.parentOf_eq_some_iff hi]
  simp only [encloses_nest hi]
  refine and_congr_right fun hp => forall_congr' fun j => forall_congr' fun hj => ?_
  rw [body_nest hp.1, body_nest hj.1]

theorem depth_eq (hi : i < f.loops.size) : (f.nest.loop i).depth =
    match (f.nest.loop i).parent with
    | some p => (f.nest.loop p).depth + 1
    | none => 1 := by
  rw [hf.depth_nest hi, parent_nest hi]
  cases hp : f.parentOf i (f.loop i).header with
  | none => exact hf.card_around_of_none hi hp
  | some p =>
    have hps := ((hf.parentOf_eq_some_iff hi).mp hp).1.1
    exact (hf.card_around_of_parent hi hp).trans (congrArg (· + 1) (hf.depth_nest hps).symm)

omit hf in
theorem innermost?_eq_argmax (f : LoopForest) (b : BlockId) :
    f.innermost? b = (f.loops.toList.filter (·.body.contains b)).argmax (·.depth) := by
  rw [innermost?, List.argmax]
  congr 1
  funext best l
  cases best <;> rfl

omit hf in
theorem mem_loops_iff {l : Loop} :
    l ∈ f.loops.toList ↔ ∃ i < f.loops.size, f.loop i = l := by
  rw [Array.mem_toList_iff, Array.mem_iff_getElem]
  simp only [loop, Array.getD_eq_getD_getElem?]
  refine exists_congr fun i => ?_
  rw [← exists_prop]
  exact exists_congr fun hi => by rw [Array.getElem?_eq_getElem hi, Option.getD_some]

theorem depth_nest_le (hi : i < f.loops.size) (hb : b ∈ (f.loop i).body) :
    (f.nest.loop i).depth ≤ (f.around b).card := by
  rw [hf.depth_nest hi]
  refine Finset.card_le_card fun j hj => ?_
  obtain ⟨hjs, hmem⟩ := mem_around.mp hj
  exact mem_around.mpr ⟨hjs, hf.mem_of_header_mem hi hjs hmem hb⟩

theorem loopDepth_nest (b : BlockId) : f.nest.loopDepth b = (f.around b).card := by
  have hmem (l : Loop) : l ∈ f.nest.loops.toList.filter (·.body.contains b) ↔
      ∃ i ∈ f.around b, f.nest.loop i = l := by
    rw [List.mem_filter, mem_loops_iff, size_nest, List.contains_iff_mem]
    constructor
    · rintro ⟨⟨i, hi, rfl⟩, hb⟩
      exact ⟨i, mem_around.mpr ⟨hi, body_nest hi ▸ hb⟩, rfl⟩
    · rintro ⟨i, hi, rfl⟩
      obtain ⟨his, hb⟩ := mem_around.mp hi
      exact ⟨⟨i, his, rfl⟩, (body_nest his).symm ▸ hb⟩
  rw [loopDepth]
  cases hin : f.nest.innermost? b with
  | none =>
    rw [innermost?_eq_argmax, List.argmax_eq_none] at hin
    refine (Finset.card_eq_zero.mpr (Finset.eq_empty_of_forall_notMem fun i hi => ?_)).symm
    exact absurd ((hmem _).mpr ⟨i, hi, rfl⟩) (hin ▸ List.not_mem_nil)
  | some l =>
    rw [innermost?_eq_argmax] at hin
    obtain ⟨i, hi, rfl⟩ := (hmem l).mp (List.argmax_mem hin)
    obtain ⟨his, hb⟩ := mem_around.mp hi
    -- the smallest loop around the block is inside all others, so it is the deepest
    obtain ⟨m, hm, hleast⟩ := (f.around b).exists_min_image (fun j => (f.loop j).body.length)
      ⟨i, hi⟩
    obtain ⟨hms, hbm⟩ := mem_around.mp hm
    refine Nat.le_antisymm (hf.depth_nest_le his hb) ?_
    calc (f.around b).card
        = (f.nest.loop m).depth := by
          rw [hf.depth_nest hms, hf.around_header hms hbm fun j hj hbj =>
            hleast j (mem_around.mpr ⟨hj, hbj⟩)]
      _ ≤ (f.nest.loop i).depth :=
          List.le_of_mem_argmax (f := fun l : Loop => l.depth) ((hmem _).mpr ⟨m, hm, rfl⟩) hin

theorem wellFounded_parent : WellFounded fun p i => (f.nest.loop i).parent = some p := by
  refine Subrelation.wf (r := InvImage (· < ·) fun i => (f.around (f.loop i).header).card)
    (fun {p i} hp => ?_) (InvImage.wf _ wellFounded_lt)
  have hi := lt_size_of_parent hp
  rw [parent_nest hi] at hp
  have hcard := hf.card_around_of_parent hi hp
  change (f.around (f.loop p).header).card < (f.around (f.loop i).header).card
  omega

end Laminar

def ofEdges (c : Cfg) (d : DomTree) : LoopForest := (backEdges c d).foldl (addBackEdge c) {}

section Blocks

variable {d : DomTree} (hd : d.Tells c) (hedges : c.EdgesAgree) (hrpo : ∀ b, b ∈ c.rpo ↔ b < c.size)
include hedges hrpo

theorem closes_ofEdges (hi : i < (ofEdges c d).loops.size) :
    Closes c (backEdges c d) ((ofEdges c d).loop i) :=
  (gathered_backEdges d hedges hrpo).closes i _ (getElem?_loops hi)

theorem header_lt_size (hi : i < (ofEdges c d).loops.size) :
    ((ofEdges c d).loop i).header < c.size := by
  have hl := closes_ofEdges hedges hrpo hi
  exact hl.lt_size _ ((hl.mem_body _).mpr (.inl rfl))

theorem header_ne (hi : i < (ofEdges c d).loops.size) (hj : j < (ofEdges c d).loops.size)
    (hne : i ≠ j) : ((ofEdges c d).loop i).header ≠ ((ofEdges c d).loop j).header := fun heq =>
  hne ((gathered_backEdges d hedges hrpo).unique i j _ _ (getElem?_loops hi) (getElem?_loops hj) heq)

include hd

theorem mem_body_ofEdges (hi : i < (ofEdges c d).loops.size) :
    b ∈ ((ofEdges c d).loop i).body ↔ c.InLoop ((ofEdges c d).loop i).header b := by
  rw [(closes_ofEdges hedges hrpo hi).mem_body, InLoop]
  simp only [mem_backEdges_iff hd hedges hrpo]

theorem laminar_ofEdges : Laminar (ofEdges c d) := by
  have hbody (i : Nat) (hi : i < (ofEdges c d).loops.size) (b : BlockId) :=
    mem_body_ofEdges (b := b) hd hedges hrpo hi
  have hlt (i : Nat) (hi : i < (ofEdges c d).loops.size) := header_lt_size hedges hrpo hi
  refine ⟨fun i hi => (hbody i hi _).mpr (.header c _), fun i hi =>
    (closes_ofEdges hedges hrpo hi).nodup_body, fun i hi j hj hne hmem => ?_,
    fun i hi j hj b hbi hbj => ?_⟩
  · have hheader := header_ne hedges hrpo hi hj hne
    rw [hbody j hj] at hmem
    refine ⟨fun b hb => ?_, fun hb => ?_⟩
    · rw [hbody i hi] at hb
      exact (hbody j hj b).mpr (inLoop_of_header hd.connected hedges (hlt i hi) hheader hmem hb)
    · rw [hbody i hi] at hb
      exact not_inLoop_of_inLoop hd.connected hedges (hlt i hi) hheader hmem hb
  · have hb := (closes_ofEdges hedges hrpo hi).lt_size b hbi
    rw [hbody i hi] at hbi
    rw [hbody j hj] at hbj
    rw [hbody j hj, hbody i hi]
    exact (inLoop_or_inLoop hd.connected hedges (hlt i hi) (hlt j hj) hb hbi hbj).symm

end Blocks

theorem avoids_number : c.number.Avoids h t b ↔ c.Avoids h t b := by
  constructor
  · intro hb
    induction hb with
    | here hne => exact .here hne
    | step hs hne _ ih => exact .step hs hne ih
  · intro hb
    induction hb with
    | here hne => exact .here hne
    | step hs hne _ ih => exact .step hs hne ih

theorem backEdge_number : c.number.BackEdge t h ↔ c.BackEdge t h :=
  and_congr_right fun _ => dominates_number

theorem inLoop_number : c.number.InLoop h b ↔ c.InLoop h b := by
  simp only [InLoop, BodyOf, avoids_number, backEdge_number]

/-- Where all blocks are reached and the ends of edges agree about them, the loops found with the
dominator tree are the natural loops, one for each header. They are disjoint or nested, each knows
the smallest one that it is part of, and a block is as deep as there are loops around it. -/
theorem ofCfg_nests_natural_loops (c : Cfg) (hc : c.Connected) (hedges : c.EdgesAgree) :
    ∃ d, DomTree.ofCfg? c.number = some d ∧
    let f := ofCfg c.number d
    (∀ h, (∃ t, c.BackEdge t h) → ∃! i, i < f.loops.size ∧ (f.loop i).header = h) ∧
    (∀ i < f.loops.size, (∃ t, c.BackEdge t (f.loop i).header) ∧
      (f.loop i).backEdges.Nodup ∧
      (∀ t, t ∈ (f.loop i).backEdges ↔ c.BackEdge t (f.loop i).header) ∧
      (f.loop i).body.Nodup ∧ ∀ b, b ∈ (f.loop i).body ↔ c.InLoop (f.loop i).header b) ∧
    (∀ i < f.loops.size, ∀ j < f.loops.size, i ≠ j →
      Disjoint (f.loop i).body.toFinset (f.loop j).body.toFinset ∨
      (f.loop i).body.toFinset ⊂ (f.loop j).body.toFinset ∨
      (f.loop j).body.toFinset ⊂ (f.loop i).body.toFinset) ∧
    (∀ i < f.loops.size, ∀ p, (f.loop i).parent = some p ↔ f.Encloses p i ∧
      ∀ j, f.Encloses j i → (f.loop p).body.length ≤ (f.loop j).body.length) ∧
    WellFounded (fun p i => (f.loop i).parent = some p) ∧
    (∀ i < f.loops.size, (f.loop i).depth =
      match (f.loop i).parent with
      | some p => (f.loop p).depth + 1
      | none => 1) ∧
    ∀ b, f.loopDepth b = (f.around b).card := by
  have hn := numbered_number hc hedges
  have hrpo := hn.mem_rpo
  have hedges' : c.number.EdgesAgree := hedges
  obtain ⟨d, hd, htells⟩ := DomTree.exists_tells hn (connected_number hc) hedges'.predsInside
  have hf := laminar_ofEdges htells hedges' hrpo
  have hedge {t h : BlockId} : (t, h) ∈ backEdges c.number d ↔ c.BackEdge t h :=
    (mem_backEdges_iff htells hedges' hrpo).trans backEdge_number
  have heq : ofCfg c.number d = (ofEdges c.number d).nest := rfl
  refine ⟨d, hd, ?_⟩
  rw [heq]
  dsimp only
  rw [size_nest]
  refine ⟨fun h hback => ?_, fun i hi => ?_, fun i hi j hj hne => ?_,
    fun i hi p => hf.parent_nest_eq_some_iff hi, hf.wellFounded_parent,
    fun i hi => hf.depth_eq hi, fun b => ?_⟩
  · -- the loop of the first back edge to `h` was kept, and headers differ
    obtain ⟨t, ht⟩ := hback
    obtain ⟨i, l, hl, hheader⟩ := (gathered_backEdges d hedges' hrpo).found _ (hedge.mpr ht)
    have hi : i < (ofEdges c.number d).loops.size := (Array.getElem?_eq_some_iff.mp hl).1
    obtain rfl := Option.some.inj ((getElem?_loops hi).symm.trans hl)
    refine ⟨i, ⟨hi, (header_nest hi).trans hheader⟩, fun j ⟨hj, heq⟩ => ?_⟩
    by_contra hne
    exact header_ne hedges' hrpo hj hi hne
      ((header_nest hj).symm.trans (heq.trans hheader.symm))
  · have hl := closes_ofEdges hedges' hrpo hi
    rw [header_nest hi, backEdges_nest hi, body_nest hi]
    exact ⟨hl.exists_edge.imp fun t => hedge.mp, hl.nodup_backEdges,
      fun t => (hl.mem_backEdges t).trans hedge, hl.nodup_body,
      fun b => (mem_body_ofEdges htells hedges' hrpo hi).trans inLoop_number⟩
  · rw [body_nest hi, body_nest hj]
    exact hf.disjoint_or_ssubset hi hj hne
  · rw [around_nest]
    exact hf.loopDepth_nest b

/-- A loop around a cycle that is entered at two blocks and is no loop itself. -/
def nested : Cfg where
  blocks := #[{ head := 0, ctrl := [0], succs := [1] },
    { head := 1, ctrl := [1], preds := [0, 3], succs := [2, 5] },
    { head := 2, ctrl := [2], preds := [1, 4], succs := [3, 4] },
    { head := 3, ctrl := [3], preds := [2, 4], succs := [4, 1] },
    { head := 4, ctrl := [4], preds := [2, 3], succs := [3, 2] },
    { head := 5, ctrl := [5], preds := [1] }]

theorem ofCfg_nests_natural_loops_nested : nested.Connected ∧ nested.EdgesAgree ∧
    ∃ d, DomTree.ofCfg? nested.number = some d ∧
    let f := ofCfg nested.number d
    (∃! i, i < f.loops.size ∧ (f.loop i).header = 2) ∧ f.loopDepth 3 = 2 := by
  have hc : nested.Connected := by
    intro b (hb : b < 6)
    have h1 : nested.Walk [1, 0] := .step (by decide) .entry
    have h2 : nested.Walk [2, 1, 0] := .step (by decide) h1
    interval_cases b
    · exact ⟨[], .entry⟩
    · exact ⟨[0], h1⟩
    · exact ⟨[1, 0], h2⟩
    · exact ⟨[2, 1, 0], .step (by decide) h2⟩
    · exact ⟨[2, 1, 0], .step (by decide) h2⟩
    · exact ⟨[1, 0], .step (by decide) h1⟩
  have hedges : nested.EdgesAgree := Cfg.edgesAgree_of_mem (by decide) (by decide)
  obtain ⟨d, hd, hone, hloops, -, -, -, -, hdepth⟩ := ofCfg_nests_natural_loops nested hc hedges
  have hfound : (DomTree.ofCfg? nested.number).any (fun d => (ofCfg nested.number d).loops.size = 2 ∧
      ((ofCfg nested.number d).loop 0).header = 2 ∧
      ((ofCfg nested.number d).around 3).card = 2) := by
    decide +kernel
  rw [hd, Option.any_some, decide_eq_true_eq] at hfound
  obtain ⟨hsize, hheader, hcard⟩ := hfound
  have hback := (hloops 0 (by omega)).1
  rw [hheader] at hback
  exact ⟨hc, hedges, d, hd, hone 2 hback, (hdepth 3).trans hcard⟩

end LoopForest

end SeaNodes
