import Mathlib.Logic.Relation
import SeaNodes.Proofs.Flow.DepthFirst

namespace SeaNodes

namespace Cfg

variable {c : Cfg} {t t' : Idoms} {a b d p q x y : BlockId} {i j k m : Nat}
variable {rest l : List BlockId}

def pos (c : Cfg) (b : BlockId) : Nat := c.rpo.idxOf b

/-- How many edges of a walk do not lead forward in the layout. -/
def retreats (c : Cfg) : List BlockId → Nat
  | b :: p :: rest => (if c.pos b ≤ c.pos p then 1 else 0) + c.retreats (p :: rest)
  | _ => 0

/-- Every walk to `b` that goes back less than `j` times meets `a`. -/
def Within (c : Cfg) (j : Nat) (a b : BlockId) : Prop :=
  ∀ rest, c.Walk (b :: rest) → c.retreats (b :: rest) < j → a ∈ b :: rest

theorem retreats_le_length (c : Cfg) (b : BlockId) (rest : List BlockId) :
    c.retreats (b :: rest) ≤ rest.length := by
  induction rest generalizing b with
  | nil => exact le_rfl
  | cons p rest ih =>
    have := ih p
    rw [retreats, List.length_cons]
    split_ifs <;> omega

theorem retreats_le_append (c : Cfg) (pre : List BlockId) :
    c.retreats (b :: rest) ≤ c.retreats (pre ++ b :: rest) := by
  induction pre with
  | nil => exact le_rfl
  | cons x pre ih =>
    cases pre with
    | nil => exact Nat.le_add_left _ _
    | cons y pre => exact ih.trans (Nat.le_add_left _ _)

namespace Within

theorem refl (c : Cfg) (j : Nat) (b : BlockId) : c.Within j b b := fun _ _ _ => List.mem_cons_self

theorem mono (h : c.Within j a b) (hij : i ≤ j) : c.Within i a b :=
  fun rest hwalk hlt => h rest hwalk (hlt.trans_le hij)

theorem trans (hab : c.Within j a b) (hbd : c.Within j b d) : c.Within j a d := by
  intro rest hwalk hlt
  obtain ⟨pre, post, heq, hpost⟩ := hwalk.exists_of_mem (hbd rest hwalk hlt)
  rw [heq] at hlt ⊢
  exact List.mem_append_right pre (hab post hpost ((c.retreats_le_append pre).trans_lt hlt))

end Within

theorem Walk.exists_nodup (h : c.Walk l) : ∃ b rest, l.head? = some b ∧ c.Walk (b :: rest) ∧
    (b :: rest).Nodup ∧ b :: rest ⊆ l := by
  induction h with
  | entry => exact ⟨Cfg.entry, [], rfl, .entry, List.nodup_singleton _, List.Subset.refl _⟩
  | @step p b rest hp _ ih =>
    obtain ⟨_, rest', ⟨rfl⟩, hwalk, hnodup, hsub⟩ := ih
    by_cases hb : b ∈ p :: rest'
    · obtain ⟨pre, post, heq⟩ := List.append_of_mem hb
      rw [heq] at hwalk hnodup hsub
      refine ⟨b, post, rfl, hwalk.of_append pre, (List.nodup_append.mp hnodup).2.1, ?_⟩
      intro x hx
      exact List.mem_cons_of_mem b (hsub (List.mem_append_right pre hx))
    · exact ⟨b, p :: rest', rfl, hwalk.step hp, List.nodup_cons.mpr ⟨hb, hnodup⟩,
        List.cons_subset_cons b hsub⟩

theorem Within.dominates (h : c.Within c.size a b) (hb : b < c.size) : c.Dominates a b := by
  intro rest hwalk
  obtain ⟨_, rest', ⟨rfl⟩, hwalk', hnodup, hsub⟩ := hwalk.exists_nodup
  refine hsub (h rest' hwalk' ?_)
  have hrange : b :: rest' ⊆ List.range c.size := fun x hx =>
    List.mem_range.mpr (hwalk'.lt_size (Nat.zero_lt_of_lt hb) x hx)
  have hle := (List.subperm_of_subset hnodup hrange).length_le
  rw [List.length_range, List.length_cons] at hle
  exact (c.retreats_le_length b rest').trans_lt hle

/-- `p` is noted as the parent of `d`. -/
def Up (t : Idoms) (d p : BlockId) : Prop := d ≠ entry ∧ t.get d = some p

def Above (t : Idoms) (a d : BlockId) : Prop := Relation.ReflTransGen (Up t) d a

/-- What holds of the noted parents at any time. -/
structure Sketch (c : Cfg) (t : Idoms) : Prop where
  entry : t.get entry = some entry
  child_lt : ∀ {d p}, Up t d p → d < c.size
  parent_lt : ∀ {d p}, Up t d p → p < c.size
  isSome : ∀ {d p}, Up t d p → (t.get p).isSome
  pos_lt : ∀ {d p}, Up t d p → c.pos p < c.pos d
  dominates : ∀ {d p}, Up t d p → ∀ a, c.Dominates a d → a ≠ d → c.Dominates a p

theorem Above.refl (t : Idoms) (d : BlockId) : Above t d d := Relation.ReflTransGen.refl

theorem above_iff_of_up (h : Up t d p) : Above t a d ↔ a = d ∨ Above t a p := by
  rw [Above, Relation.ReflTransGen.cases_head_iff]
  constructor
  · rintro (rfl | ⟨p', hp', habove⟩)
    · exact .inl rfl
    · exact .inr (Option.some.inj (h.2.symm.trans hp'.2) ▸ habove)
  · rintro (rfl | habove)
    · exact .inl rfl
    · exact .inr ⟨p, h, habove⟩

theorem above_of_get (hentry : t.get entry = some entry) (h : t.get a = some p)
    (habove : Above t x p) : Above t x a := by
  by_cases ha : a = entry
  · subst ha
    exact Option.some.inj (h.symm.trans hentry) ▸ habove
  · exact habove.head ⟨ha, h⟩

theorem eq_entry_of_above (h : Above t a entry) : a = entry := by
  rcases Relation.ReflTransGen.cases_head_iff.mp h with heq | ⟨p, hp, -⟩
  · exact heq.symm
  · exact absurd rfl hp.1

theorem above_of_meetUp? (hentry : t.get entry = some entry) (k : Nat)
    (h : c.meetUp? t k a b = some x) : Above t x a ∧ Above t x b := by
  induction k generalizing a b with
  | zero => cases h
  | succ k ih =>
    rw [meetUp?] at h
    split_ifs at h with hab
    · subst hab
      obtain rfl := Option.some.inj h
      exact ⟨.refl t a, .refl t a⟩
    · obtain ⟨p, hp, h⟩ := Option.bind_eq_some_iff.mp h
      exact ⟨above_of_get hentry hp (ih h).1, (ih h).2⟩
    · obtain ⟨p, hp, h⟩ := Option.bind_eq_some_iff.mp h
      exact ⟨(ih h).1, above_of_get hentry hp (ih h).2⟩

theorem above_of_addPred? (hentry : t.get entry = some entry) {best best' : Option BlockId}
    (h : c.addPred? t best p = some best') :
    (∀ q ∈ best, ∃ x, best' = some x ∧ Above t x q) ∧
      ((t.get p).isSome → ∃ x, best' = some x ∧ Above t x p) := by
  unfold addPred? at h
  split_ifs at h with hp
  · obtain rfl := Option.some.inj h
    refine ⟨fun q hq => ⟨q, hq, .refl t q⟩, fun hsome => ?_⟩
    rw [Option.isNone_iff_eq_none.mp hp] at hsome
    cases hsome
  · cases best with
    | none =>
      obtain rfl := Option.some.inj h
      exact ⟨by simp, fun _ => ⟨p, rfl, .refl t p⟩⟩
    | some q =>
      obtain ⟨x, hx, rfl⟩ := Option.map_eq_some_iff.mp h
      obtain ⟨hxp, hxq⟩ := above_of_meetUp? hentry _ hx
      refine ⟨?_, fun _ => ⟨x, rfl, hxp⟩⟩
      rintro _ ⟨rfl⟩
      exact ⟨x, rfl, hxq⟩

theorem above_of_addPreds (hentry : t.get entry = some entry) (ps : List BlockId)
    {best best' : Option BlockId} (h : ps.foldlM (c.addPred? t) best = some best') :
    (∀ q ∈ best, ∃ x, best' = some x ∧ Above t x q) ∧
      ∀ p ∈ ps, (t.get p).isSome → ∃ x, best' = some x ∧ Above t x p := by
  induction ps generalizing best with
  | nil =>
    obtain rfl := Option.some.inj h
    exact ⟨fun q hq => ⟨q, hq, .refl t q⟩, fun p hp => absurd hp List.not_mem_nil⟩
  | cons p ps ih =>
    rw [List.foldlM_cons] at h
    obtain ⟨mid, hmid, h⟩ := Option.bind_eq_some_iff.mp h
    obtain ⟨hbest, hp⟩ := above_of_addPred? hentry hmid
    obtain ⟨hrest, hps⟩ := ih h
    have hlift {q : BlockId} (hq : ∃ x, mid = some x ∧ Above t x q) :
        ∃ x, best' = some x ∧ Above t x q := by
      obtain ⟨x, hx, hxq⟩ := hq
      obtain ⟨y, hy, hyx⟩ := hrest x hx
      exact ⟨y, hy, hxq.trans hyx⟩
    refine ⟨fun q hq => hlift (hbest q hq), List.forall_mem_cons.mpr ⟨fun hin => ?_, hps⟩⟩
    exact hlift (hp hin)

/-- What a tree says that a pass leaves as it is. -/
structure Settled (c : Cfg) (t : Idoms) : Prop where
  entry : t.get entry = some entry
  meets : ∀ b ∈ c.rpo, b ≠ Cfg.entry → ∀ p ∈ (c.block b).preds, (t.get p).isSome →
    ∃ x, t.get b = some x ∧ Above t x p

theorem refine?_keeps {s s' : Idoms × Bool} (h : c.refine? s b = some s') :
    s'.1.get entry = s.1.get entry ∧ (s'.2 = false → s' = s) := by
  unfold refine? at h
  split_ifs at h with hb
  · obtain rfl := Option.some.inj h
    exact ⟨rfl, fun _ => rfl⟩
  · obtain ⟨best, -, h⟩ := Option.bind_eq_some_iff.mp h
    split_ifs at h
    · obtain rfl := Option.some.inj h
      refine ⟨?_, nofun⟩
      rw [SideTable.get_set, if_neg hb]
    · obtain rfl := Option.some.inj h
      exact ⟨rfl, fun _ => rfl⟩

theorem pass_keeps (l : List BlockId) {s s' : Idoms × Bool} (h : l.foldlM c.refine? s = some s') :
    s'.1.get entry = s.1.get entry ∧
      (s'.2 = false → s' = s ∧ ∀ b ∈ l, c.refine? s b = some s) := by
  induction l generalizing s with
  | nil =>
    obtain rfl := Option.some.inj h
    exact ⟨rfl, fun _ => ⟨rfl, by simp⟩⟩
  | cons b l ih =>
    rw [List.foldlM_cons] at h
    obtain ⟨mid, hmid, h⟩ := Option.bind_eq_some_iff.mp h
    obtain ⟨hentry, hsame⟩ := refine?_keeps hmid
    obtain ⟨hentry', hsame'⟩ := ih h
    refine ⟨hentry'.trans hentry, fun hnews => ?_⟩
    obtain ⟨rfl, hl⟩ := hsame' hnews
    obtain rfl := hsame hnews
    exact ⟨rfl, List.forall_mem_cons.mpr ⟨hmid, hl⟩⟩

theorem settled_of_settle? (k : Nat) (hentry : t.get entry = some entry)
    (h : c.settle? k t = some t') : Settled c t' := by
  induction k generalizing t with
  | zero => cases h
  | succ k ih =>
    obtain ⟨⟨t₁, news⟩, hpass, h⟩ := Option.bind_eq_some_iff.mp h
    obtain ⟨hentry₁, hsame⟩ := pass_keeps c.rpo hpass
    cases news with
    | true => exact ih (hentry₁.trans hentry) h
    | false =>
      obtain rfl := Option.some.inj h
      obtain ⟨heq, hall⟩ := hsame rfl
      obtain ⟨rfl, -⟩ := Prod.mk.inj heq
      refine ⟨hentry, fun b hb hne p hp hin => ?_⟩
      have hb := hall b hb
      rw [refine?, if_neg hne] at hb
      obtain ⟨best, hbest, hb⟩ := Option.bind_eq_some_iff.mp hb
      obtain ⟨x, rfl, hxp⟩ := (above_of_addPreds hentry _ hbest).2 p hp hin
      refine ⟨x, ?_, hxp⟩
      by_contra hget
      rw [if_pos (by simpa using hget)] at hb
      cases congrArg Prod.snd (Option.some.inj hb)

/-- Ancestors in a settled tree dominate: a walk gets from the tree into the tree, and to a block
from below what is above it. -/
theorem Settled.dominates (h : Settled c t) (hrpo : ∀ b < c.size, b ∈ c.rpo)
    (habove : Above t a b) : c.Dominates a b := by
  have hwalk (walk : List BlockId) (hw : c.Walk walk) : ∀ b ∈ walk.head?, (t.get b).isSome ∧
      ∀ a, Above t a b → a ∈ walk := by
    induction hw with
    | entry =>
      rintro b ⟨rfl⟩
      refine ⟨Option.isSome_of_mem h.entry, fun a ha => ?_⟩
      exact List.mem_singleton.mpr (eq_entry_of_above ha)
    | @step p b rest hp _ ih =>
      rintro _ ⟨rfl⟩
      obtain ⟨hin, hmem⟩ := ih p rfl
      by_cases hb : b = Cfg.entry
      · subst hb
        refine ⟨Option.isSome_of_mem h.entry, fun a ha => ?_⟩
        exact eq_entry_of_above ha ▸ List.mem_cons_self
      · obtain ⟨x, hx, hxp⟩ := h.meets b (hrpo b (lt_size_of_mem_preds hp)) hb p hp hin
        refine ⟨Option.isSome_of_mem hx, fun a ha => ?_⟩
        rcases (above_iff_of_up ⟨hb, hx⟩).mp ha with rfl | hax
        · exact List.mem_cons_self
        · exact List.mem_cons_of_mem b (hmem a (hxp.trans hax))
  exact fun rest hw => (hwalk _ hw b rfl).2 a habove

namespace Sketch

theorem eq_or_pos_lt (h : Sketch c t) (habove : Above t a d) : a = d ∨ c.pos a < c.pos d := by
  induction habove using Relation.ReflTransGen.head_induction_on with
  | refl => exact .inl rfl
  | head hup _ ih =>
    have := h.pos_lt hup
    rcases ih with rfl | hlt
    · exact .inr this
    · exact .inr (hlt.trans this)

theorem lt_size (h : Sketch c t) (habove : Above t a d) (hd : d < c.size) : a < c.size := by
  induction habove using Relation.ReflTransGen.head_induction_on with
  | refl => exact hd
  | head hup _ ih => exact ih (h.parent_lt hup)

theorem isSome_of_above (h : Sketch c t) (habove : Above t a d) (hd : (t.get d).isSome) :
    (t.get a).isSome := by
  induction habove using Relation.ReflTransGen.head_induction_on with
  | refl => exact hd
  | head hup _ ih => exact ih (h.isSome hup)

/-- On the way up from a block that `a` dominates, `a` is met unless it dominates the end. -/
theorem dominates_or_above (h : Sketch c t) (habove : Above t x d) (ha : c.Dominates a d) :
    c.Dominates a x ∨ Above t a d ∧ Above t x a := by
  induction habove using Relation.ReflTransGen.head_induction_on with
  | refl => exact .inl ha
  | @head d p hup hrest ih =>
    by_cases had : a = d
    · subst had
      exact .inr ⟨.refl t a, hrest.head hup⟩
    · refine (ih (h.dominates hup a ha had)).imp_right fun ⟨hap, hxa⟩ => ?_
      exact ⟨(above_iff_of_up hup).mpr (.inr hap), hxa⟩

end Sketch

theorem Numbered.eq_of_pos (hn : c.Numbered) (ha : a < c.size) (h : c.pos a = c.pos b) : a = b :=
  (List.idxOf_inj ((hn.mem_rpo a).mpr ha)).mp h

theorem mem_of_pos_lt {pre suf : List BlockId} (heq : c.rpo = pre ++ b :: suf)
    (hlt : c.pos a < c.pos b) : a ∈ pre := by
  by_contra hnot
  have hb : c.pos b ≤ pre.length := by
    rw [pos, heq]
    by_cases hmem : b ∈ pre
    · exact (List.idxOf_append_of_mem hmem).le.trans List.idxOf_le_length
    · rw [List.idxOf_append_of_notMem hmem, List.idxOf_cons_self, Nat.add_zero]
  have ha : c.pos a = pre.length + (b :: suf).idxOf a := by
    rw [pos, heq, List.idxOf_append_of_notMem hnot]
  omega

theorem Numbered.pos_lt_length (hn : c.Numbered) (ha : a < c.size) : c.pos a < c.rpo.length :=
  List.idxOf_lt_length_iff.mpr ((hn.mem_rpo a).mpr ha)

theorem Numbered.pos_lt_size (hn : c.Numbered) (ha : a < c.size) : c.pos a < c.size := by
  have hsub : c.rpo ⊆ List.range c.size := fun x hx => List.mem_range.mpr ((hn.mem_rpo x).mp hx)
  have hle := (List.subperm_of_subset hn.nodup hsub).length_le
  rw [List.length_range] at hle
  exact (hn.pos_lt_length ha).trans_le hle

section Meet

variable (hn : c.Numbered) (ht : Sketch c t)
include hn ht

/-- The later of two blocks is not above the other, so it can go up. -/
theorem exists_up (ha : (t.get a).isSome) (hlt : c.pos b < c.pos a) : ∃ p, Up t a p ∧
    ∀ y, Above t y p ∧ Above t y b ↔ Above t y a ∧ Above t y b := by
  have hne : a ≠ entry := by
    rintro rfl
    rw [pos, pos, hn.entry_first] at hlt
    omega
  obtain ⟨p, hp⟩ := Option.isSome_iff_exists.mp ha
  refine ⟨p, ⟨hne, hp⟩, fun y => ?_⟩
  rw [above_iff_of_up (a := y) ⟨hne, hp⟩]
  refine ⟨fun h => ⟨.inr h.1, h.2⟩, fun ⟨hy, hyb⟩ => ⟨hy.resolve_left ?_, hyb⟩⟩
  rintro rfl
  rcases ht.eq_or_pos_lt hyb with rfl | hlt'
  · exact absurd hlt (lt_irrefl _)
  · exact absurd hlt hlt'.not_gt

theorem exists_meetUp? (k : Nat) (ha : a < c.size) (hb : b < c.size) (hasome : (t.get a).isSome)
    (hbsome : (t.get b).isSome) (hk : c.pos a + c.pos b < k) :
    ∃ x, c.meetUp? t k a b = some x ∧ ∀ y, Above t y x ↔ Above t y a ∧ Above t y b := by
  induction k generalizing a b with
  | zero => exact absurd hk (Nat.not_lt_zero _)
  | succ k ih =>
    have hpost := hn.postorder a ha b hb
    have hpost' := hn.postorder b hb a ha
    rw [meetUp?]
    by_cases hab : a = b
    · subst hab
      exact ⟨a, if_pos rfl, fun y => (and_self_iff).symm⟩
    rw [if_neg hab]
    rcases Nat.lt_trichotomy (c.pos b) (c.pos a) with hlt | heq | hlt
    · obtain ⟨p, hup, habove⟩ := exists_up hn ht hasome hlt
      have := ht.pos_lt hup
      obtain ⟨x, hx, hxabove⟩ := ih (ht.parent_lt hup) hb (ht.isSome hup) hbsome (by omega)
      refine ⟨x, ?_, fun y => (hxabove y).trans (habove y)⟩
      rw [if_pos (hpost.mpr hlt), hup.2]
      exact hx
    · exact absurd (hn.eq_of_pos hb heq).symm hab
    · obtain ⟨p, hup, habove⟩ := exists_up hn ht hbsome hlt
      have := ht.pos_lt hup
      obtain ⟨x, hx, hxabove⟩ := ih ha (ht.parent_lt hup) hasome (ht.isSome hup) (by omega)
      refine ⟨x, ?_, fun y => (hxabove y).trans ?_⟩
      · rw [if_neg (mt hpost.mp hlt.not_gt), if_pos (hpost'.mpr hlt), hup.2]
        exact hx
      · rw [and_comm, habove y, and_comm]

/-- The way up from one more block that is in the tree meets those before. -/
theorem exists_addPred? {best : Option BlockId} (ha : a < c.size) (hin : (t.get a).isSome)
    (hbest : ∀ q ∈ best, q < c.size ∧ (t.get q).isSome) :
    ∃ x, c.addPred? t best a = some (some x) ∧ x < c.size ∧ (t.get x).isSome ∧
      ∀ y, Above t y x ↔ (∀ q ∈ best, Above t y q) ∧ Above t y a := by
  have hnone : ¬ (t.get a).isNone := by simpa using Option.isSome_iff_ne_none.mp hin
  cases best with
  | none => exact ⟨a, by rw [addPred?, if_neg hnone], ha, hin, fun y => by simp⟩
  | some q =>
    obtain ⟨hq, hqin⟩ := hbest q rfl
    have ha' := hn.pos_lt_size ha
    have hq' := hn.pos_lt_size hq
    have hfuel : 2 * c.size ≤ (c.size + 1) * (c.size + 1) :=
      Nat.mul_le_mul (by omega) (Nat.le_succ _)
    obtain ⟨x, hx, habove⟩ := exists_meetUp? hn ht ((c.size + 1) * (c.size + 1)) ha hq hin hqin
      (by omega)
    have hxq := ((habove x).mp (.refl t x)).2
    refine ⟨x, by rw [addPred?, if_neg hnone, hx]; rfl, ht.lt_size hxq hq, ht.isSome_of_above hxq hqin, fun y => ?_⟩
    rw [habove y, and_comm]
    simp

/-- The ways up from all blocks that are in the tree meet. -/
theorem exists_addPreds (ps : List BlockId) (best : Option BlockId)
    (hps : ∀ p ∈ ps, p < c.size) (hbest : ∀ q ∈ best, q < c.size ∧ (t.get q).isSome)
    (hsome : best.isSome ∨ ∃ p ∈ ps, (t.get p).isSome) :
    ∃ x, ps.foldlM (c.addPred? t) best = some (some x) ∧
      ∀ y, Above t y x ↔ (∀ q ∈ best, Above t y q) ∧
        ∀ p ∈ ps, (t.get p).isSome → Above t y p := by
  induction ps generalizing best with
  | nil =>
    obtain ⟨x, rfl⟩ := Option.isSome_iff_exists.mp (hsome.resolve_right (by simp))
    exact ⟨x, rfl, fun y => by simp⟩
  | cons p ps ih =>
    obtain ⟨hp, hps⟩ := List.forall_mem_cons.mp hps
    rw [List.foldlM_cons]
    by_cases hin : (t.get p).isSome
    · obtain ⟨q, hq, hqsize, hqin, hqabove⟩ := exists_addPred? hn ht hp hin hbest
      obtain ⟨x, hx, habove⟩ := ih (some q) hps (by rintro _ ⟨rfl⟩; exact ⟨hqsize, hqin⟩) (.inl rfl)
      refine ⟨x, by rw [hq]; exact hx, fun y => ?_⟩
      rw [habove y, List.forall_mem_cons]
      simp only [Option.mem_def, Option.some.injEq, forall_eq', hqabove y, hin, true_implies]
      exact and_assoc
    · have hsame : c.addPred? t best p = some best := by
        unfold addPred?
        rw [if_pos (by simpa using hin)]
      have hsome' : best.isSome ∨ ∃ p ∈ ps, (t.get p).isSome := by
        refine hsome.imp_right fun ⟨p', hp', hin'⟩ => ?_
        rcases List.mem_cons.mp hp' with rfl | hp'
        · exact absurd hin' hin
        · exact ⟨p', hp', hin'⟩
      obtain ⟨x, hx, habove⟩ := ih best hps hbest hsome'
      refine ⟨x, by rw [hsame]; exact hx, fun y => ?_⟩
      rw [habove y, List.forall_mem_cons]
      simp [hin]

end Meet

/-- The tree after `i` passes and a part of the next one, up to position `m` of the layout. -/
structure Refined (c : Cfg) (i m : Nat) (t : Idoms) : Prop extends Sketch c t where
  within : ∀ {d p}, Up t d p → c.Within (if c.pos d < m then i + 1 else i) p d
  known : ∀ b < c.size, c.pos b < m ∨ 0 < i → (t.get b).isSome

namespace Refined

theorem within_of_above (h : Refined c i m t) (habove : Above t x d) :
    c.Within i x d ∧ (c.pos d < m → c.Within (i + 1) x d) := by
  induction habove using Relation.ReflTransGen.head_induction_on with
  | refl => exact ⟨.refl c i x, fun _ => .refl c (i + 1) x⟩
  | @head d p hup _ ih =>
    have hlt := h.pos_lt hup
    have hwithin := h.within hup
    refine ⟨ih.1.trans (hwithin.mono ?_), fun hd => (ih.2 (hlt.trans hd)).trans ?_⟩
    · split_ifs <;> omega
    · rwa [if_pos hd] at hwithin

end Refined

/-- What a pass finds out about the new parent `x` of block `b`. -/
structure Finds (c : Cfg) (t : Idoms) (i : Nat) (b x : BlockId) : Prop where
  lt_size : x < c.size
  isSome : (t.get x).isSome
  pos_lt : c.pos x < c.pos b
  dominates : ∀ a, c.Dominates a b → a ≠ b → c.Dominates a x
  within : c.Within (i + 1) x b

namespace Refined

/-- The meeting point of the predecessors is a parent for one more pass: a walk whose last edge
leads forward comes from a block that this pass has seen, one whose last edge goes back has gone back
less often before. -/
theorem exists_finds (hn : c.Numbered) (hpreds : c.PredsInside) (h : Refined c i m t)
    (hb : b < c.size) (hne : b ≠ Cfg.entry) (hm : c.pos b = m) :
    ∃ x, (c.block b).preds.foldlM (c.addPred? t) none = some (some x) ∧ Finds c t i b x := by
  obtain ⟨p₀, hp₀, hlt₀⟩ := hn.exists_pred b hb hne
  have hin₀ : (t.get p₀).isSome := h.known p₀ (hpreds b p₀ hp₀) (.inl (hm ▸ hlt₀))
  obtain ⟨x, hx, habove⟩ := exists_addPreds hn h.toSketch (c.block b).preds none
    (hpreds b) (by simp) (.inr ⟨p₀, hp₀, hin₀⟩)
  have hxabove (p : BlockId) (hp : p ∈ (c.block b).preds) (hin : (t.get p).isSome) :
      Above t x p := ((habove x).mp (.refl t x)).2 p hp hin
  have hx₀ := hxabove p₀ hp₀ hin₀
  refine ⟨x, hx, h.lt_size hx₀ (hpreds b p₀ hp₀), h.isSome_of_above hx₀ hin₀, ?_, ?_, ?_⟩
  · rcases h.eq_or_pos_lt hx₀ with rfl | hlt
    · exact hlt₀
    · exact hlt.trans hlt₀
  · -- otherwise all ways up meet at `a` or higher, and `x` is above `a`
    intro a hab hane
    by_contra hnot
    have hmet (p : BlockId) (hp : p ∈ (c.block b).preds) (hin : (t.get p).isSome) :
        Above t a p ∧ Above t x a :=
      (h.dominates_or_above (hxabove p hp hin) (hab.of_pred hane hp)).resolve_left hnot
    have hax : Above t a x := (habove a).mpr ⟨by simp, fun p hp hin => (hmet p hp hin).1⟩
    rcases h.eq_or_pos_lt hax with rfl | hlt
    · exact hnot (.refl c a)
    · rcases h.eq_or_pos_lt (hmet p₀ hp₀ hin₀).2 with rfl | hlt'
      · exact hnot (.refl c x)
      · exact absurd hlt hlt'.not_gt
  · intro rest hwalk hlt
    cases hwalk with
    | entry => exact absurd rfl hne
    | @step p _ rest hp hrest =>
      have hpsize := hpreds b p hp
      rw [retreats] at hlt
      apply List.mem_cons_of_mem
      by_cases hforward : c.pos p < c.pos b
      · rw [if_neg hforward.not_ge, Nat.zero_add] at hlt
        have hin := h.known p hpsize (.inl (hm ▸ hforward))
        exact (h.within_of_above (hxabove p hp hin)).2 (hm ▸ hforward) rest hrest hlt
      · rw [if_pos (Nat.le_of_not_lt hforward)] at hlt
        have hin := h.known p hpsize (.inr (by omega))
        exact (h.within_of_above (hxabove p hp hin)).1 rest hrest (by omega)

/-- The new parent is noted. -/
theorem note (hn : c.Numbered) (h : Refined c i m t) (hb : b < c.size) (hne : b ≠ Cfg.entry)
    (hm : c.pos b = m) (hx : Finds c t i b x)
    (ht' : ∀ y, t'.get y = if b = y then some x else t.get y) : Refined c i (m + 1) t' := by
  have hup {d p : BlockId} (h' : Up t' d p) : d = b ∧ p = x ∨ d ≠ b ∧ Up t d p := by
    obtain ⟨hd, hp⟩ := h'
    rw [ht'] at hp
    split_ifs at hp with heq
    · exact .inl ⟨heq.symm, (Option.some.inj hp).symm⟩
    · exact .inr ⟨Ne.symm heq, hd, hp⟩
  have hsome (y : BlockId) (hy : (t.get y).isSome) : (t'.get y).isSome := by
    rw [ht']
    split_ifs
    · rfl
    · exact hy
  have hpos {d : BlockId} (hd : d < c.size) (hdb : d ≠ b) : c.pos d < m + 1 ↔ c.pos d < m := by
    have : c.pos d ≠ m := fun heq => hdb (hn.eq_of_pos hd (heq.trans hm.symm))
    omega
  constructor
  · constructor
    · rw [ht', if_neg hne]
      exact h.entry
    all_goals
      intro d p h'
      rcases hup h' with ⟨rfl, rfl⟩ | ⟨-, hdp⟩
    · exact hb
    · exact h.child_lt hdp
    · exact hx.lt_size
    · exact h.parent_lt hdp
    · exact hsome p hx.isSome
    · exact hsome p (h.isSome hdp)
    · exact hx.pos_lt
    · exact h.pos_lt hdp
    · exact hx.dominates
    · exact h.dominates hdp
  · intro d p h'
    rcases hup h' with ⟨rfl, rfl⟩ | ⟨hdb, hdp⟩
    · rw [if_pos (by omega)]
      exact hx.within
    · have hwithin := h.within hdp
      simp only [hpos (h.child_lt hdp) hdb]
      exact hwithin
  · intro d hd hknown
    by_cases hdb : d = b
    · rw [ht', if_pos hdb.symm]
      rfl
    · rw [hpos hd hdb] at hknown
      exact hsome d (h.known d hd hknown)

theorem pass_entry (hn : c.Numbered) (h : Refined c i m t) (hm : c.pos Cfg.entry = m) :
    Refined c i (m + 1) t := by
  have hzero : c.pos Cfg.entry = 0 := hn.entry_first
  have hpos {d : BlockId} (hd : d < c.size) (hne : d ≠ Cfg.entry) : ¬ c.pos d < m + 1 := by
    have : c.pos d ≠ c.pos Cfg.entry := fun heq => hne (hn.eq_of_pos hd heq)
    omega
  refine ⟨h.toSketch, fun {d p} hdp => ?_, fun b hb hknown => ?_⟩
  · have hwithin := h.within hdp
    have hd := hpos (h.child_lt hdp) hdp.1
    rw [if_neg (by omega)] at hwithin
    rwa [if_neg hd]
  · by_cases hb' : b = Cfg.entry
    · rw [hb', h.entry]
      rfl
    · exact h.known b hb (.inr (hknown.resolve_left (hpos hb hb')))

theorem immediatelyDominates (h : Refined c i m t) (hi : c.size ≤ i) (hup : Up t d p) :
    c.ImmediatelyDominates p d := by
  refine ⟨((h.within hup).mono ?_).dominates (h.child_lt hup), ?_, h.dominates hup⟩
  · split_ifs <;> omega
  · rintro rfl
    exact (h.pos_lt hup).false

theorem next (hn : c.Numbered) (h : Refined c i c.rpo.length t) : Refined c (i + 1) 0 t where
  toSketch := h.toSketch
  within {d p} hdp := by
    have hwithin := h.within hdp
    rw [if_pos (hn.pos_lt_length (h.child_lt hdp))] at hwithin
    rwa [if_neg (Nat.not_lt_zero _)]
  known b hb _ := h.known b hb (.inl (hn.pos_lt_length hb))

end Refined

section Passes

variable (hn : c.Numbered) (hc : c.Connected) (hpreds : c.PredsInside)
include hn hc hpreds

/-- A block is refined; without news nothing changes, and after enough passes there is no news. -/
theorem exists_refine? (h : Refined c i m t) (hb : b < c.size) (hm : c.pos b = m) (news : Bool) :
    ∃ t' news', c.refine? (t, news) b = some (t', news') ∧ Refined c i (m + 1) t' ∧
      (news' = false → news = false ∧ t' = t) ∧ (c.size ≤ i → news' = news) := by
  by_cases hentry : b = entry
  · subst hentry
    exact ⟨t, news, if_pos rfl, h.pass_entry hn hm, fun hnews => ⟨hnews, rfl⟩, fun _ => rfl⟩
  obtain ⟨x, hx, hfinds⟩ := h.exists_finds hn hpreds hb hentry hm
  have hrefine : c.refine? (t, news) b =
      if t.get b = some x then some (t, news) else some (t.set b (some x), true) := by
    simp only [refine?, if_neg hentry, hx, Option.bind_eq_bind, Option.bind_some,
      Option.isSome_some, Bool.true_and, bne_iff_ne, ne_eq, ite_not]
  by_cases heq : t.get b = some x
  · refine ⟨t, news, hrefine.trans (if_pos heq), ?_, fun hnews => ⟨hnews, rfl⟩, fun _ => rfl⟩
    refine h.note hn hb hentry hm hfinds fun y => ?_
    split_ifs with hby
    · rw [← hby, heq]
    · rfl
  · have hnote : Refined c i (m + 1) (t.set b (some x)) :=
      h.note hn hb hentry hm hfinds fun y => SideTable.get_set t b y (some x)
    refine ⟨t.set b (some x), true, hrefine.trans (if_neg heq), hnote, nofun, fun hi => ?_⟩
    -- both the noted and the new parent would be the immediate dominator
    have hpos : 0 < i := (Nat.zero_lt_of_lt hb).trans_le hi
    obtain ⟨p, hp⟩ := Option.isSome_iff_exists.mp (h.known b hb (.inr hpos))
    have hold := h.immediatelyDominates hi ⟨hentry, hp⟩
    have hnew : c.ImmediatelyDominates x b := hnote.immediatelyDominates hi
      ⟨hentry, (SideTable.get_set t b b (some x)).trans (if_pos rfl)⟩
    exact absurd (hold.unique hc hb hnew ▸ hp) heq

theorem exists_pass (suf pre : List BlockId) (heq : c.rpo = pre ++ suf) (news : Bool)
    (h : Refined c i pre.length t) :
    ∃ t' news', suf.foldlM c.refine? (t, news) = some (t', news') ∧
      Refined c i c.rpo.length t' ∧ (news' = false → news = false ∧ t' = t) ∧
      (c.size ≤ i → news' = news) := by
  induction suf generalizing pre t news with
  | nil =>
    rw [List.append_nil] at heq
    rw [heq]
    exact ⟨t, news, rfl, h, fun hnews => ⟨hnews, rfl⟩, fun _ => rfl⟩
  | cons b suf ih =>
    have hb : b < c.size := (hn.mem_rpo b).mp (heq ▸ List.mem_append_right pre List.mem_cons_self)
    have hm : c.pos b = pre.length := by
      have hnodup := hn.nodup
      rw [heq] at hnodup
      have hpre : b ∉ pre := fun hmem =>
        (List.nodup_append.mp hnodup).2.2 b hmem b List.mem_cons_self rfl
      rw [pos, heq, List.idxOf_append_of_notMem hpre, List.idxOf_cons_self, Nat.add_zero]
    obtain ⟨t₁, news₁, hrefine, h₁, hsame₁, hend₁⟩ := exists_refine? hn hc hpreds h hb hm news
    obtain ⟨t', news', hfold, h', hsame, hend⟩ := ih (pre ++ [b])
      (by rw [heq, List.append_assoc, List.singleton_append]) news₁
      (by rwa [List.length_append, List.length_singleton])
    refine ⟨t', news', by rw [List.foldlM_cons, hrefine]; exact hfold, h', fun hnews => ?_,
      fun hi => (hend hi).trans (hend₁ hi)⟩
    obtain ⟨hnews₁, rfl⟩ := hsame hnews
    exact hsame₁ hnews₁

theorem refined_of_unchanged (h : Refined c i 0 t)
    (hpass : c.rpo.foldlM c.refine? (t, false) = some (t, false)) (j : Nat) :
    Refined c (i + j) 0 t := by
  induction j with
  | zero => exact h
  | succ j ih =>
    obtain ⟨t', news', hfold, h', -, -⟩ := exists_pass hn hc hpreds c.rpo [] rfl false ih
    rw [hpass] at hfold
    obtain ⟨rfl, -⟩ := Prod.mk.inj (Option.some.inj hfold)
    exact h'.next hn

theorem exists_settle? (k : Nat) (h : Refined c i 0 t) (hi : i ≤ c.size)
    (hk : c.size + 1 ≤ i + k) : ∃ t', c.settle? k t = some t' ∧ Refined c c.size 0 t' := by
  induction k generalizing i t with
  | zero => omega
  | succ k ih =>
    obtain ⟨t', news', hfold, h', hsame, hend⟩ := exists_pass hn hc hpreds c.rpo [] rfl false h
    have hsettle : c.settle? (k + 1) t = if news' then c.settle? k t' else some t' := by
      simp only [settle?, hfold, Option.bind_eq_bind, Option.bind_some]
    rw [hsettle]
    cases news' with
    | false =>
      obtain ⟨-, rfl⟩ := hsame rfl
      have hlast := refined_of_unchanged hn hc hpreds h hfold (c.size - i)
      rw [Nat.add_sub_cancel' hi] at hlast
      exact ⟨t', rfl, hlast⟩
    | true =>
      have hlt : i < c.size := by
        by_contra hge
        exact nomatch hend (Nat.le_of_not_lt hge)
      exact ih (h'.next hn) hlt (by omega)

theorem exists_idoms? (hsize : 0 < c.size) : ∃ t, c.idoms? = some t ∧ Refined c c.size 0 t := by
  have hget (y : BlockId) : (({} : Idoms).set entry (some entry)).get y =
      if entry = y then some entry else none := SideTable.get_set {} entry y (some entry)
  have hup (d p : BlockId) : ¬ Up (({} : Idoms).set entry (some entry)) d p := by
    rintro ⟨hne, hp⟩
    rw [hget, if_neg (Ne.symm hne)] at hp
    cases hp
  have hstart : Refined c 0 0 (({} : Idoms).set entry (some entry)) := by
    refine ⟨⟨?_, ?_, ?_, ?_, ?_, ?_⟩, ?_, fun b _ hknown => by omega⟩
    · rw [hget, if_pos rfl]
    all_goals exact fun {d p} h => absurd h (hup d p)
  have hfuel : c.size + 1 ≤ Nat.pow (c.size + 1) (c.size + 1) := Nat.le_self_pow (by omega) _
  obtain ⟨t, hsettle, ht⟩ := exists_settle? hn hc hpreds (Nat.pow (c.size + 1) (c.size + 1)) hstart
    (Nat.zero_le _) (by rwa [Nat.zero_add])
  exact ⟨t, (if_neg hsize.ne').trans hsettle, ht⟩

end Passes

end Cfg

end SeaNodes
