import Mathlib.Data.Finset.Card
import SeaNodes.Proofs.Registers.Checked
import SeaNodes.Proofs.Sets
import SeaNodes.Registers.Range

namespace SeaNodes

namespace LiveRanges

def IsRoot (parent : Array VReg) (v : VReg) : Prop := parent.getD v v = v

/-- The registers that are no roots. -/
def linked (parent : Array VReg) : Finset Nat :=
  (Finset.range parent.size).filter fun v => parent.getD v v ≠ v

/-- Every way leads to a root, in no more steps than there are registers that are no roots. -/
def Rooted (parent : Array VReg) : Prop := ∀ v, IsRoot parent (climb parent (linked parent).card v)

/-- Every way leads to a root, and none leads out of the table. -/
structure Forest (parent : Array VReg) : Prop where
  lt : ∀ v, v < parent.size → parent.getD v v < parent.size
  root : Rooted parent

section

variable {parent : Array VReg} {v : VReg} {k : Nat}

theorem climb_of_isRoot (h : IsRoot parent v) (k : Nat) : climb parent k v = v := by
  cases k with
  | zero => rfl
  | succ k => exact if_pos h

theorem climb_succ (parent : Array VReg) (k : Nat) (v : VReg) :
    climb parent (k + 1) v = climb parent k (parent.getD v v) := by
  by_cases h : parent.getD v v = v
  · rw [h, climb_of_isRoot h, climb_of_isRoot h]
  · exact if_neg h

theorem climb_lt (h : ∀ v, v < parent.size → parent.getD v v < parent.size) (hv : v < parent.size)
    (k : Nat) : climb parent k v < parent.size := by
  induction k generalizing v with
  | zero => exact hv
  | succ k ih =>
    rw [climb_succ]
    exact ih (h v hv)

theorem climb_of_le (h : IsRoot parent (climb parent k v)) {m : Nat} (hm : k ≤ m) :
    climb parent m v = climb parent k v := by
  induction k generalizing v m with
  | zero => exact climb_of_isRoot h m
  | succ k ih =>
    obtain ⟨m, rfl⟩ := Nat.exists_eq_add_of_le' hm
    rw [← Nat.add_assoc, climb_succ, climb_succ] at *
    exact ih h (Nat.le_add_left k m)

theorem card_linked_le (parent : Array VReg) : (linked parent).card ≤ parent.size :=
  (Finset.card_filter_le _ _).trans (Finset.card_range _).le

end

section

variable {parent : Array VReg} {a b : VReg} (hab : a ≠ b) (hlt : b < parent.size)
  (hb : IsRoot parent b)

theorem getD_hang (hlt : b < parent.size) (w : VReg) :
    (parent.setIfInBounds b a).getD w w = if b = w then a else parent.getD w w := by
  rw [getD_setIfInBounds]
  simp only [hlt, and_true]

theorem isRoot_hang (hab : a ≠ b) (hlt : b < parent.size) (w : VReg) :
    IsRoot (parent.setIfInBounds b a) (if w = b then a else w) ↔
      IsRoot parent (if w = b then a else w) := by
  by_cases hwb : w = b
  · rw [if_pos hwb, IsRoot, getD_hang hlt, if_neg hab.symm, IsRoot]
  · rw [if_neg hwb, IsRoot, getD_hang hlt, if_neg (Ne.symm hwb), IsRoot]

include hab hlt hb

theorem climb_hang (ha : IsRoot parent a) (k : Nat) (v : VReg)
    (h : IsRoot parent (climb parent k v)) : climb (parent.setIfInBounds b a) (k + 1) v =
      if climb parent k v = b then a else climb parent k v := by
  have haroot : IsRoot (parent.setIfInBounds b a) a := by
    rw [IsRoot, getD_hang hlt, if_neg hab.symm, ha]
  induction k generalizing v with
  | zero =>
    rw [climb_succ, getD_hang hlt]
    by_cases hv : b = v
    · rw [if_pos hv, climb, climb, if_pos hv.symm]
    · rw [if_neg hv, climb, climb, if_neg (Ne.symm hv)]
      exact h
  | succ k ih =>
    by_cases hv : b = v
    · subst hv
      rw [climb_of_isRoot hb, if_pos rfl, climb_succ, getD_hang hlt, if_pos rfl,
        climb_of_isRoot haroot]
    · rw [climb_succ] at h
      rw [climb_succ, getD_hang hlt, if_neg hv, climb_succ parent, ih _ h]

theorem card_linked_hang : (linked (parent.setIfInBounds b a)).card = (linked parent).card + 1 := by
  have hset : linked (parent.setIfInBounds b a) = insert b (linked parent) := by
    ext w
    simp only [linked, Array.size_setIfInBounds, Finset.mem_filter, Finset.mem_range,
      Finset.mem_insert, getD_hang hlt]
    by_cases hw : b = w
    · subst hw
      simp only [if_pos, hlt, true_and, true_or, iff_true]
      exact hab
    · rw [if_neg hw]
      simp only [Ne.symm hw, false_or]
  rw [hset, Finset.card_insert_of_notMem]
  simp only [linked, Finset.mem_filter, not_and, not_not]
  exact fun _ => hb

theorem Rooted.hang (h : Rooted parent) (ha : IsRoot parent a) :
    Rooted (parent.setIfInBounds b a) := by
  intro v
  rw [card_linked_hang hab hlt hb, climb_hang hab hlt hb ha _ _ (h v), isRoot_hang hab hlt]
  by_cases hv : climb parent (linked parent).card v = b
  · rw [if_pos hv]
    exact ha
  · rw [if_neg hv]
    exact h v

theorem Forest.hang (h : Forest parent) (ha : IsRoot parent a) (halt : a < parent.size) :
    Forest (parent.setIfInBounds b a) := by
  refine ⟨fun v hv => ?_, h.root.hang hab hlt hb ha⟩
  rw [Array.size_setIfInBounds] at hv ⊢
  rw [getD_hang hlt]
  by_cases hbv : b = v
  · rw [if_pos hbv]
    exact halt
  · rw [if_neg hbv]
    exact h.lt v hv

end

section

variable {r r' : LiveRanges}

theorem find_lt (h : Forest r.parent) {v : VReg} (hv : v < r.size) : r.find v < r.size :=
  climb_lt h.lt hv _

variable (h : Rooted r.parent)

include h

theorem find_eq (v : VReg) : r.find v = climb r.parent (linked r.parent).card v :=
  climb_of_le (h v) (card_linked_le r.parent)

theorem isRoot_find (v : VReg) : IsRoot r.parent (r.find v) := by
  rw [find_eq h]
  exact h v

theorem find_hang {a b : VReg} (ha : IsRoot r.parent a) (hb : IsRoot r.parent b)
    (hab : a ≠ b) (hlt : b < r.size) (hp : r'.parent = r.parent.setIfInBounds b a) (v : VReg) :
    r'.find v = if r.find v = b then a else r.find v := by
  have h' : Rooted r'.parent := hp ▸ h.hang hab hlt hb ha
  rw [find_eq h', find_eq h, hp, card_linked_hang hab hlt hb, climb_hang hab hlt hb ha _ _ (h v)]

theorem find_hang_cases {a b : VReg} (ha : IsRoot r.parent a) (hb : IsRoot r.parent b) (hab : a ≠ b)
    (hp : r'.parent = r.parent.setIfInBounds b a) : Rooted r'.parent ∧
      ∀ v, r.find v = b ∧ r'.find v = a ∨ r'.find v = r.find v := by
  by_cases hlt : b < r.size
  · refine ⟨hp ▸ h.hang hab hlt hb ha, fun v => ?_⟩
    rw [find_hang h ha hb hab hlt hp]
    by_cases hv : r.find v = b
    · exact .inl ⟨hv, if_pos hv⟩
    · exact .inr (if_neg hv)
  · rw [Array.setIfInBounds_eq_of_size_le (Nat.le_of_not_lt hlt)] at hp
    refine ⟨hp ▸ h, fun v => .inr ?_⟩
    rw [find, find, size, size, hp]

end

end LiveRanges

section

variable {τ : Type}

namespace LiveRanges

/-- `r'` has the ranges of `r`, and demands at least as much of them. -/
structure Refines (r r' : LiveRanges) : Prop where
  parent : r'.parent = r.parent
  occurs : r'.occurs = r.occurs
  copies : r'.copies = r.copies
  spillable : r'.spillable = r.spillable
  maskSize : r'.mask.size = r.mask.size
  adjSize : r'.adj.size = r.adj.size
  mask : ∀ v reg, (r'.maskOf v).contains reg → (r.maskOf v).contains reg
  adj : ∀ a b, (r.adjOf a).contains b → (r'.adjOf a).contains b

theorem Refines.refl (r : LiveRanges) : Refines r r :=
  ⟨rfl, rfl, rfl, rfl, rfl, rfl, fun _ _ h => h, fun _ _ h => h⟩

theorem Refines.trans {r r' r'' : LiveRanges} (h : Refines r r') (h' : Refines r' r'') :
    Refines r r'' :=
  ⟨h'.parent.trans h.parent, h'.occurs.trans h.occurs, h'.copies.trans h.copies,
    h'.spillable.trans h.spillable, h'.maskSize.trans h.maskSize, h'.adjSize.trans h.adjSize,
    fun v reg hm => h.mask v reg (h'.mask v reg hm), fun a b ha => h'.adj a b (h.adj a b ha)⟩

theorem Refines.find {r r' : LiveRanges} (h : Refines r r') (v : VReg) : r'.find v = r.find v := by
  rw [LiveRanges.find, LiveRanges.find, size, size, h.parent]

theorem Refines.foldl {β : Type} {step : LiveRanges → β → LiveRanges}
    (hstep : ∀ r x, Refines r (step r x)) (l : List β) (r : LiveRanges) :
    Refines r (l.foldl step r) ∧
      ∀ x ∈ l, ∃ r₀, Refines r r₀ ∧ Refines (step r₀ x) (l.foldl step r) := by
  induction l generalizing r with
  | nil => exact ⟨.refl r, by simp⟩
  | cons a l ih =>
    obtain ⟨hall, hone⟩ := ih (step r a)
    refine ⟨(hstep r a).trans hall, fun x hx => ?_⟩
    rcases List.mem_cons.mp hx with rfl | hx
    · exact ⟨r, .refl r, hall⟩
    · obtain ⟨r₀, hr₀, hx⟩ := hone x hx
      exact ⟨r₀, (hstep r a).trans hr₀, hx⟩

theorem maskOf_narrow (r : LiveRanges) (v w : VReg) (f : RegMask → RegMask) :
    (r.narrow v f).maskOf w =
      if r.find v = w ∧ r.find v < r.mask.size then f (r.maskOf w) else r.maskOf w :=
  getD_modify r.mask (r.find v) w f .empty

theorem refines_narrow (r : LiveRanges) (v : VReg) {f : RegMask → RegMask}
    (hf : ∀ m reg, (f m).contains reg → m.contains reg) : Refines r (r.narrow v f) := by
  refine ⟨rfl, rfl, rfl, rfl, Array.size_modify, rfl, fun w reg h => ?_, fun _ _ h => h⟩
  rw [maskOf_narrow] at h
  split_ifs at h
  · exact hf _ _ h
  · exact h

theorem contains_of_contains_inter {m m' : RegMask} {reg : Reg} (h : (m.inter m').contains reg) :
    m.contains reg := by
  rw [RegMask.contains_inter, Bool.and_eq_true] at h
  exact h.1

theorem contains_of_contains_diff {m m' : RegMask} {reg : Reg} (h : (m.diff m').contains reg) :
    m.contains reg := by
  rw [RegMask.contains_diff, Bool.and_eq_true] at h
  exact h.1

theorem contains_modify_insert (adj : Array BitSet) (k e x y : Nat) :
    ((adj.modify k (·.insert e)).getD x .empty).contains y ↔
      (adj.getD x .empty).contains y ∨ (k = x ∧ k < adj.size ∧ e = y) := by
  rw [getD_modify]
  split_ifs with h
  · rw [BitSet.contains_insert, Bool.or_eq_true, decide_eq_true_eq, or_comm]
    exact or_congr_right ⟨fun hy => ⟨h.1, h.2, hy.symm⟩, fun hy => hy.2.2.symm⟩
  · simp only [← and_assoc, h, false_and, or_false]

theorem contains_adjOf_addEdge (r : LiveRanges) {a b : VReg} (hab : r.find a ≠ r.find b)
    (x y : VReg) : ((r.addEdge a b).adjOf x).contains y ↔ ((r.adjOf x).contains y ∨
      (r.find a = x ∧ r.find a < r.adj.size ∧ r.find b = y)) ∨
        (r.find b = x ∧ r.find b < r.adj.size ∧ r.find a = y) := by
  have hadj : (r.addEdge a b).adj =
      (r.adj.modify (r.find a) (·.insert (r.find b))).modify (r.find b) (·.insert (r.find a)) := by
    rw [addEdge, if_neg hab]
  rw [adjOf, hadj, contains_modify_insert, contains_modify_insert, Array.size_modify, adjOf]

theorem refines_addEdge (r : LiveRanges) (a b : VReg) : Refines r (r.addEdge a b) := by
  by_cases hab : r.find a = r.find b
  · rw [addEdge, if_pos hab]
    exact .refl r
  · have hadj (x y : VReg) (h : (r.adjOf x).contains y) : ((r.addEdge a b).adjOf x).contains y :=
      (contains_adjOf_addEdge r hab x y).mpr (.inl (.inl h))
    rw [addEdge, if_neg hab] at hadj ⊢
    exact ⟨rfl, rfl, rfl, rfl, rfl, by simp, fun _ _ h => h, hadj⟩

/-- What a clash demands: the two registers are in different ranges that know of each other. -/
structure Apart (r : LiveRanges) (a b : VReg) : Prop where
  left : (r.adjOf (r.find a)).contains (r.find b)
  right : (r.adjOf (r.find b)).contains (r.find a)

theorem Apart.symm {r : LiveRanges} {a b : VReg} (h : r.Apart a b) : r.Apart b a :=
  ⟨h.right, h.left⟩

theorem Apart.refines {r r' : LiveRanges} {a b : VReg} (h : r.Apart a b) (hr : Refines r r') :
    r'.Apart a b := by
  refine ⟨?_, ?_⟩
  · rw [hr.find, hr.find]
    exact hr.adj _ _ h.left
  · rw [hr.find, hr.find]
    exact hr.adj _ _ h.right

theorem apart_addEdge (r : LiveRanges) {a b : VReg} (hab : r.find a ≠ r.find b)
    (ha : r.find a < r.adj.size) (hb : r.find b < r.adj.size) : (r.addEdge a b).Apart a b := by
  have hr := refines_addEdge r a b
  refine ⟨?_, ?_⟩
  · rw [hr.find, hr.find]
    exact (contains_adjOf_addEdge r hab _ _).mpr (.inl (.inr ⟨rfl, ha, rfl⟩))
  · rw [hr.find, hr.find]
    exact (contains_adjOf_addEdge r hab _ _).mpr (.inr ⟨rfl, hb, rfl⟩)

section

variable (live : List Nat) (free : VReg → VReg → Bool)

theorem refines_defEdges (r : LiveRanges) (d : Operand) (rest : List Operand) :
    Refines r (rest.foldl (fun r o => r.addEdge d.vreg o.vreg)
      (live.foldl (fun r v => if free d.vreg v then r else r.addEdge d.vreg v) r)) := by
  have hlive : ∀ r v, Refines r (if free d.vreg v then r else r.addEdge d.vreg v) := by
    intro r v
    split
    · exact .refl r
    · exact refines_addEdge r _ _
  exact (Refines.foldl hlive live r).1.trans
    (Refines.foldl (fun r o => refines_addEdge r d.vreg o.vreg) rest _).1

theorem refines_defs (ds : List Operand) (r : LiveRanges) :
    Refines r (addLive.defs live free ds r) := by
  induction ds generalizing r with
  | nil => exact .refl r
  | cons d ds ih => exact (refines_defEdges live free r d ds).trans (ih _)

/-- Registers of different ranges that the table has edges for. -/
def Separate (r : LiveRanges) (a b : VReg) : Prop :=
  r.find a ≠ r.find b ∧ r.find a < r.adj.size ∧ r.find b < r.adj.size

theorem Separate.apart {r r₀ : LiveRanges} {a b : VReg} (h : r.Separate a b) (hr : Refines r r₀) :
    (r₀.addEdge a b).Apart a b := by
  obtain ⟨hab, ha, hb⟩ := h
  apply apart_addEdge
  · rw [hr.find, hr.find]
    exact hab
  · rw [hr.find, hr.adjSize]
    exact ha
  · rw [hr.find, hr.adjSize]
    exact hb

theorem Separate.refines {r r₀ : LiveRanges} {a b : VReg} (h : r.Separate a b)
    (hr : Refines r r₀) : r₀.Separate a b := by
  rw [Separate, hr.find, hr.find, hr.adjSize]
  exact h

theorem apart_live {ds : List Operand} {r : LiveRanges} {d : Operand} (hd : d ∈ ds) {v : VReg}
    (hv : v ∈ live) (hfree : free d.vreg v = false) (hs : r.Separate d.vreg v) :
    (addLive.defs live free ds r).Apart d.vreg v := by
  induction ds generalizing r with
  | nil => exact absurd hd List.not_mem_nil
  | cons a ds ih =>
    have hrest := refines_defEdges live free r a ds
    rcases List.mem_cons.mp hd with rfl | hd
    · have hstep : ∀ r v, Refines r (if free d.vreg v then r else r.addEdge d.vreg v) := by
        intro r v
        split
        · exact .refl r
        · exact refines_addEdge r _ _
      obtain ⟨r₀, hr₀, hafter⟩ := (Refines.foldl hstep live r).2 v hv
      rw [if_neg (by simp [hfree])] at hafter
      apply (hs.apart hr₀).refines (hafter.trans _)
      exact (Refines.foldl (fun r o => refines_addEdge r d.vreg o.vreg) ds _).1.trans
        (refines_defs live free ds _)
    · exact ih hd (hs.refines hrest)

theorem apart_defs {r : LiveRanges} (a : List Operand) {b : List Operand} {d o : Operand}
    (ho : o ∈ b) (hs : r.Separate d.vreg o.vreg) :
    (addLive.defs live free (a ++ d :: b) r).Apart d.vreg o.vreg := by
  induction a generalizing r with
  | nil =>
    obtain ⟨r₀, hr₀, hafter⟩ := (Refines.foldl (fun r o => refines_addEdge r d.vreg o.vreg) b
      (live.foldl (fun r v => if free d.vreg v then r else r.addEdge d.vreg v) r)).2 o ho
    have hlive := refines_defEdges live free r d []
    exact (hs.apart (hlive.trans hr₀)).refines (hafter.trans (refines_defs live free b _))
  | cons x a ih => exact ih (hs.refines (refines_defEdges live free r x (a ++ d :: b)))

end

section

variable (i : Inst τ) (after : BitSet) (r : LiveRanges)

/-- Takes the killed registers from what is live across an instruction. -/
def addKill : LiveRanges :=
  if i.kill.isEmpty then r
  else after.toList.foldl (fun r v => if i.defines v then r else r.narrow v (·.diff i.kill)) r

theorem addLive_eq : addLive i after r = addLive.defs after.toList
    (fun d v => v == d || some v == i.source?) i.defs (addKill i after r) := rfl

theorem refines_spare (v : VReg) (r : LiveRanges) :
    Refines r (if i.defines v then r else r.narrow v (·.diff i.kill)) := by
  split
  · exact .refl r
  · exact refines_narrow r v fun _ _ h => contains_of_contains_diff h

theorem refines_addKill : Refines r (addKill i after r) := by
  rw [addKill]
  split
  · exact .refl r
  · exact (Refines.foldl (fun r v => refines_spare i v r) _ r).1

theorem refines_addLive : Refines r (addLive i after r) :=
  (refines_addKill i after r).trans (refines_defs _ _ _ _)

variable {i after r}

theorem kill_of_addLive {v : VReg} (hv : after.contains v) (hd : i.defines v = false)
    (hlt : r.find v < r.mask.size) {reg : Reg}
    (h : ((addLive i after r).maskOf (r.find v)).contains reg) : i.kill.contains reg = false := by
  have h' : ((addKill i after r).maskOf (r.find v)).contains reg :=
    (refines_defs _ _ _ _).mask _ _ h
  rw [addKill] at h'
  split_ifs at h' with hk
  · exact RegMask.isEmpty_iff.mp hk reg
  · obtain ⟨r₀, hr₀, hafter⟩ := (Refines.foldl (fun r v => refines_spare i v r) after.toList r).2 v
      (BitSet.mem_toList.mpr hv)
    have hm := hafter.mask _ _ h'
    rw [if_neg (by simp [hd]), maskOf_narrow, hr₀.find, hr₀.maskSize, if_pos ⟨rfl, hlt⟩,
      RegMask.contains_diff, Bool.and_eq_true, Bool.not_eq_true'] at hm
    exact hm.2

theorem apart_addLive {d : Operand} (hd : d ∈ i.defs) {v : VReg} (hv : after.contains v)
    (hne : v ≠ d.vreg) (hsrc : some v ≠ i.source?) (hs : r.Separate d.vreg v) :
    (addLive i after r).Apart d.vreg v :=
  apart_live _ _ hd (BitSet.mem_toList.mpr hv) (by simp [hne, hsrc])
    (hs.refines (refines_addKill i after r))

theorem apart_addLive_defs {a b : List Operand} {d o : Operand} (hds : i.defs = a ++ d :: b)
    (ho : o ∈ b) (hs : r.Separate d.vreg o.vreg) : (addLive i after r).Apart d.vreg o.vreg := by
  rw [addLive_eq, hds]
  exact apart_defs _ _ a ho (hs.refines (refines_addKill i after r))

end

theorem Refines.walkInsts {visit : Inst τ → BitSet → LiveRanges → LiveRanges}
    (hvisit : ∀ i after r, Refines r (visit i after r)) (out : BitSet) (is : List (Inst τ))
    (r : LiveRanges) : Refines r (SeaNodes.walkInsts visit out is r) ∧
      ∀ pre i post, is = pre ++ i :: post → ∃ r₀, Refines r r₀ ∧
        Refines (visit i (liveThrough post out) r₀) (SeaNodes.walkInsts visit out is r) := by
  induction is with
  | nil => exact ⟨.refl r, by simp⟩
  | cons j is ih =>
    have hj := hvisit j (liveThrough is out) (SeaNodes.walkInsts visit out is r)
    refine ⟨ih.1.trans hj, fun pre i post h => ?_⟩
    rcases List.cons_eq_append_iff.mp h with ⟨rfl, hcons⟩ | ⟨pre', rfl, hrest⟩
    · obtain ⟨rfl, rfl⟩ := List.cons.inj hcons
      exact ⟨_, ih.1, .refl _⟩
    · obtain ⟨r₀, hr₀, hafter⟩ := ih.2 pre' i post hrest
      exact ⟨r₀, hr₀, hafter.trans hj⟩

theorem Refines.walk {visit : Inst τ → BitSet → LiveRanges → LiveRanges}
    (hvisit : ∀ i after r, Refines r (visit i after r)) (l : Liveness) (f : MachFunction τ)
    (r : LiveRanges) : Refines r (l.walk f visit r) ∧
      ∀ b < f.blocks.size, ∀ pre i post, (f.block b).insts = pre ++ i :: post →
        ∃ r₀, Refines r r₀ ∧
          Refines (visit i (liveThrough post (l.atEnd b)) r₀) (l.walk f visit r) := by
  rw [Liveness.walk_eq]
  obtain ⟨hall, hone⟩ := Refines.foldl
    (fun r b => (Refines.walkInsts hvisit (l.atEnd b) (f.block b).insts r).1)
    (List.range f.blocks.size) r
  refine ⟨hall, fun b hb pre i post h => ?_⟩
  obtain ⟨r₁, hr₁, hafter⟩ := hone b (List.mem_range.mpr hb)
  obtain ⟨r₀, hr₀, hi⟩ := (Refines.walkInsts hvisit (l.atEnd b) (f.block b).insts r₁).2 pre i post h
  exact ⟨r₀, hr₁.trans hr₀, hi.trans hafter⟩

end LiveRanges

/-- An instruction that `p` holds of, with its block, writes `x` and keeps it apart from `y`, which
is live after it or written too. -/
inductive MachFunction.Clash (f : MachFunction τ) (p : Nat → Inst τ → Prop) (x y : VReg) : Prop
  | live {b : Nat} {pre post : List (Inst τ)} {i : Inst τ} {d : Operand} :
    b < f.blocks.size → p b i → (f.block b).insts = pre ++ i :: post → d ∈ i.defs → d.vreg = x →
    f.LiveFrom y post b → y ≠ x → some y ≠ i.source? → Clash f p x y
  | defs {b : Nat} {pre post : List (Inst τ)} {i : Inst τ} {a m : List Operand} {d o : Operand} :
    b < f.blocks.size → p b i → (f.block b).insts = pre ++ i :: post → i.defs = a ++ d :: m →
    o ∈ m → d.vreg = x → o.vreg = y → Clash f p x y

/-- Wherever `v` occurs or is live, it may be in register `reg`. -/
structure MachFunction.Allows (f : MachFunction τ) (v : VReg) (reg : Reg) : Prop where
  operand : ∀ i ∈ f.insts, ∀ o ∈ i.operands, o.vreg = v → o.mask.contains reg
  kill : ∀ b < f.blocks.size, ∀ pre i post, (f.block b).insts = pre ++ i :: post →
    f.LiveFrom v post b → i.defines v = false → i.kill.contains reg = false

namespace LiveRanges

def joined (file : RegFile) (f : MachFunction τ) (loopWeight : Double) : LiveRanges :=
  { f.blocks.foldl (fun r b => b.insts.foldl (addInst (b.weight loopWeight)) r)
      (initial file f) with
    copies := f.insts.filterMap (·.copy?) }

def addMasks (f : MachFunction τ) (r : LiveRanges) : LiveRanges :=
  f.insts.foldl (fun r i => i.operands.foldl (fun r o => r.narrow o.vreg (·.inter o.mask)) r) r

theorem refines_masks (r : LiveRanges) (i : Inst τ) :
    Refines r (i.operands.foldl (fun r o => r.narrow o.vreg (·.inter o.mask)) r) :=
  (Refines.foldl (fun r _ => refines_narrow r _ fun _ _ h => contains_of_contains_inter h) _ r).1

theorem refines_addMasks (f : MachFunction τ) (r : LiveRanges) : Refines r (addMasks f r) :=
  (Refines.foldl refines_masks f.insts r).1

theorem mask_of_addMasks {f : MachFunction τ} {r : LiveRanges} {i : Inst τ} (hi : i ∈ f.insts)
    {o : Operand} (ho : o ∈ i.operands) (hlt : r.find o.vreg < r.mask.size) {reg : Reg}
    (h : ((addMasks f r).maskOf (r.find o.vreg)).contains reg) : o.mask.contains reg := by
  obtain ⟨r₁, hr₁, h₁⟩ := (Refines.foldl refines_masks f.insts r).2 i hi
  obtain ⟨r₀, hr₀, h₀⟩ := (Refines.foldl (fun r (o : Operand) => refines_narrow r o.vreg
    fun m reg (h : (m.inter o.mask).contains reg) => contains_of_contains_inter h)
      i.operands r₁).2 o ho
  have hm := h₀.mask _ _ (h₁.mask _ _ h)
  have hr := hr₁.trans hr₀
  rw [maskOf_narrow, hr.find, hr.maskSize, if_pos ⟨rfl, hlt⟩, RegMask.contains_inter,
    Bool.and_eq_true] at hm
  exact hm.2

section

variable {file : RegFile} {f : MachFunction τ} {w : Double}

theorem refines_ofFunction (l : Liveness) :
    Refines (joined file f w) (ofFunction file f l w) :=
  (refines_addMasks f _).trans (Refines.walk refines_addLive l f _).1

/-- Clashing registers are kept apart, unless ties join them. -/
theorem apart_ofFunction {p : Nat → Inst τ → Prop} {x y : VReg} (hc : f.Clash p x y)
    (hs : (joined file f w).Separate x y) : (ofFunction file f (.ofFunction f) w).Apart x y := by
  have hs' := hs.refines (refines_addMasks f _)
  cases hc with
  | @live b pre post i d hb _ hi hd hx hlive hne hsrc =>
    subst hx
    obtain ⟨r₀, hr₀, hafter⟩ := (Refines.walk refines_addLive (.ofFunction f) f
      (addMasks f (joined file f w))).2 b hb pre i post hi
    refine (apart_addLive hd ?_ hne hsrc (hs'.refines hr₀)).refines hafter
    exact (Liveness.contains_liveThrough_iff f y post b).mpr hlive
  | @defs b pre post i a m d o hb _ hi hds ho hx hy =>
    subst hx hy
    obtain ⟨r₀, hr₀, hafter⟩ := (Refines.walk refines_addLive (.ofFunction f) f
      (addMasks f (joined file f w))).2 b hb pre i post hi
    exact (apart_addLive_defs hds ho (hs'.refines hr₀)).refines hafter

theorem allows_ofFunction {v : VReg} (hlt : (joined file f w).find v < (joined file f w).mask.size)
    {reg : Reg} (h : ((ofFunction file f (.ofFunction f) w).maskOf
      ((joined file f w).find v)).contains reg) : f.Allows v reg := by
  constructor
  · rintro i hi o ho rfl
    exact mask_of_addMasks hi ho hlt ((Refines.walk refines_addLive _ f _).1.mask _ _ h)
  · intro b hb pre i post hi hlive hd
    obtain ⟨r₀, hr₀, hafter⟩ := (Refines.walk refines_addLive (.ofFunction f) f
      (addMasks f (joined file f w))).2 b hb pre i post hi
    have hr := (refines_addMasks f (joined file f w)).trans hr₀
    have hm := hafter.mask _ _ h
    rw [← hr.find] at hm hlt
    rw [← hr.maskSize] at hlt
    exact kill_of_addLive ((Liveness.contains_liveThrough_iff f v post b).mpr hlive) hd hlt hm

end

end LiveRanges

end

end SeaNodes
