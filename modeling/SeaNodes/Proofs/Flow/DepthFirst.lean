import SeaNodes.Proofs.Flow.Dominance

namespace SeaNodes

namespace Cfg

variable {c : Cfg} {b x y : BlockId} {new new' starts starts' : List BlockId} {k : Nat}
variable {s s' s'' : BitSet × List BlockId}

/-- Something before `x` in the list leads to `x`. -/
def LedTo (c : Cfg) (l : List BlockId) (x : BlockId) : Prop :=
  ∃ pre p post, l = pre ++ p :: post ∧ x ∈ post ∧ x ∈ (c.block p).succs

theorem LedTo.append_left {l : List BlockId} (h : c.LedTo l x) (l' : List BlockId) :
    c.LedTo (l' ++ l) x := by
  obtain ⟨pre, p, post, rfl, hx, hp⟩ := h
  exact ⟨l' ++ pre, p, post, (List.append_assoc ..).symm, hx, hp⟩

theorem LedTo.append_right {l : List BlockId} (h : c.LedTo l x) (l' : List BlockId) :
    c.LedTo (l ++ l') x := by
  obtain ⟨pre, p, post, rfl, hx, hp⟩ := h
  exact ⟨pre, p, post ++ l', by simp, List.mem_append_left l' hx, hp⟩

/-- The blocks `new` are what visiting `starts` adds to those that were seen and left before. -/
structure Visited (c : Cfg) (starts : List BlockId) (s s' : BitSet × List BlockId)
    (new : List BlockId) : Prop where
  left : s'.2 = new ++ s.2
  seen : ∀ x, s'.1.contains x ↔ s.1.contains x ∨ x ∈ new
  fresh : ∀ x ∈ new, s.1.contains x = false
  nodup : new.Nodup
  lt_size : ∀ x ∈ new, x < c.size
  closed : ∀ x ∈ new, ∀ y ∈ (c.block x).succs, s'.1.contains y
  found : ∀ x ∈ starts, s'.1.contains x
  led : ∀ x ∈ new, x ∈ starts ∨ c.LedTo new x

namespace Visited

theorem nil (h : ∀ x ∈ starts, s.1.contains x) : c.Visited starts s s [] where
  left := rfl
  seen x := by simp
  fresh x hx := absurd hx List.not_mem_nil
  nodup := List.nodup_nil
  lt_size x hx := absurd hx List.not_mem_nil
  closed x hx := absurd hx List.not_mem_nil
  found := h
  led x hx := absurd hx List.not_mem_nil

theorem trans (h : c.Visited starts s s' new) (h' : c.Visited starts' s' s'' new') :
    c.Visited (starts ++ starts') s s'' (new' ++ new) where
  left := by rw [h'.left, h.left, List.append_assoc]
  seen x := by rw [h'.seen, h.seen, List.mem_append, or_assoc, or_comm (a := x ∈ new)]
  fresh x hx := by
    rcases List.mem_append.mp hx with hx | hx
    · refine Bool.eq_false_iff.mpr fun hs => ?_
      have := h'.fresh x hx
      rw [(h.seen x).mpr (.inl hs)] at this
      exact nomatch this
    · exact h.fresh x hx
  nodup := by
    refine h'.nodup.append h.nodup fun x hx' hx => ?_
    have := h'.fresh x hx'
    rw [(h.seen x).mpr (.inr hx)] at this
    exact nomatch this
  lt_size x hx := (List.mem_append.mp hx).elim (h'.lt_size x) (h.lt_size x)
  closed x hx y hy := by
    rcases List.mem_append.mp hx with hx | hx
    · exact h'.closed x hx y hy
    · exact (h'.seen y).mpr (.inl (h.closed x hx y hy))
  found x hx := by
    rcases List.mem_append.mp hx with hx | hx
    · exact (h'.seen x).mpr (.inl (h.found x hx))
    · exact h'.found x hx
  led x hx := by
    rw [List.mem_append]
    rcases List.mem_append.mp hx with hx | hx
    · exact (h'.led x hx).imp .inr fun hled => hled.append_right new
    · exact (h.led x hx).imp .inl fun hled => hled.append_left new'

theorem cons (hb : b < c.size) (hnew : s.1.contains b = false)
    (hstarts : ∀ y, y ∈ starts ↔ y ∈ (c.block b).succs)
    (h : c.Visited starts (s.1.insert b, s.2) s' new) :
    c.Visited [b] s (s'.1, b :: s'.2) (b :: new) where
  left := by rw [h.left, List.cons_append]
  seen x := by
    rw [h.seen, BitSet.contains_insert, Bool.or_eq_true, decide_eq_true_eq, List.mem_cons]
    tauto
  fresh x hx := by
    rcases List.mem_cons.mp hx with rfl | hx
    · exact hnew
    · have := h.fresh x hx
      rw [BitSet.contains_insert, Bool.or_eq_false_iff] at this
      exact this.2
  nodup := by
    refine List.nodup_cons.mpr ⟨fun hb => ?_, h.nodup⟩
    have := h.fresh b hb
    simp at this
  lt_size x hx := (List.mem_cons.mp hx).elim (fun heq => heq ▸ hb) (h.lt_size x)
  closed x hx y hy := by
    rcases List.mem_cons.mp hx with rfl | hx
    · exact h.found y ((hstarts y).mpr hy)
    · exact h.closed x hx y hy
  found x hx := by
    rw [List.mem_singleton.mp hx]
    exact (h.seen b).mpr (.inl (by simp))
  led x hx := by
    rcases List.mem_cons.mp hx with rfl | hx
    · exact .inl List.mem_cons_self
    · rcases h.led x hx with hstart | hled
      · exact .inr ⟨[], b, new, rfl, hx, (hstarts x).mp hstart⟩
      · exact .inr (hled.append_left [b])

end Visited

/-- With fuel for all blocks that are not seen yet, a visit is complete. -/
theorem exists_visited (hsuccs : ∀ x, ∀ y ∈ (c.block x).succs, y < c.size) (k : Nat)
    (s : BitSet × List BlockId) (hb : b < c.size) (hk : (s.1.missing c.size).card ≤ k) :
    ∃ new, c.Visited [b] s (c.visit k s b) new ∧
      (s.1.contains b = false → ∃ rest, new = b :: rest) := by
  induction k generalizing s b with
  | zero =>
    have hseen := BitSet.contains_of_missing_eq_empty hk hb
    refine ⟨[], .nil fun x hx => List.mem_singleton.mp hx ▸ hseen, fun h => ?_⟩
    rw [hseen] at h
    cases h
  | succ k ih =>
    obtain ⟨seen, left⟩ := s
    rw [visit]
    by_cases hseen : seen.contains b
    · rw [if_pos hseen]
      refine ⟨[], .nil fun x hx => List.mem_singleton.mp hx ▸ hseen, fun h => ?_⟩
      rw [hseen] at h
      cases h
    · rw [if_neg hseen]
      rw [Bool.not_eq_true] at hseen
      -- `b` is seen from now on, so there is fuel for what it leads to
      have hcard := seen.card_missing_insert_lt hb hseen
      have hfold (ys : List BlockId) (hys : ∀ y ∈ ys, y < c.size) (s : BitSet × List BlockId)
          (hk : (s.1.missing c.size).card ≤ k) :
          ∃ new, c.Visited ys s (ys.foldl (c.visit k) s) new := by
        induction ys generalizing s with
        | nil => exact ⟨[], .nil fun x hx => absurd hx List.not_mem_nil⟩
        | cons y ys ihys =>
          rw [List.forall_mem_cons] at hys
          obtain ⟨new, hnew, -⟩ := ih s hys.1 hk
          have hmono := BitSet.card_missing_mono c.size fun x hx => (hnew.seen x).mpr (.inl hx)
          obtain ⟨new', hnew'⟩ := ihys hys.2 (c.visit k s y) (hmono.trans hk)
          exact ⟨new' ++ new, hnew.trans hnew'⟩
      obtain ⟨new, hnew⟩ := hfold (c.block b).succs.reverse
        (fun y hy => hsuccs b y (List.mem_reverse.mp hy)) (seen.insert b, left) (by
          dsimp only at hk ⊢
          omega)
      exact ⟨b :: new, hnew.cons hb hseen fun y => List.mem_reverse, fun _ => ⟨new, rfl⟩⟩

/-- Edges are noted at both ends. -/
def EdgesAgree (c : Cfg) : Prop := ∀ a b, b ∈ (c.block a).succs ↔ a ∈ (c.block b).preds

theorem edgesAgree_of_mem (hsuccs : ∀ a < c.size, ∀ b ∈ (c.block a).succs, a ∈ (c.block b).preds)
    (hpreds : ∀ b < c.size, ∀ a ∈ (c.block b).preds, b ∈ (c.block a).succs) : c.EdgesAgree := by
  refine fun a b => ⟨fun hb => hsuccs a ?_ b hb, fun ha => hpreds b (lt_size_of_mem_preds ha) a ha⟩
  by_contra hbig
  rw [block, Array.getD_eq_getD_getElem?, Array.getElem?_eq_none (Nat.le_of_not_lt hbig)] at hb
  exact absurd hb List.not_mem_nil

theorem EdgesAgree.pred_lt (h : c.EdgesAgree) (hx : x ∈ (c.block b).preds) : x < c.size := by
  have hb := (h x b).mpr hx
  by_contra hbig
  rw [block, Array.getD_eq_getD_getElem?, Array.getElem?_eq_none (Nat.le_of_not_lt hbig)] at hb
  exact absurd hb List.not_mem_nil

theorem EdgesAgree.predsInside (h : c.EdgesAgree) : c.PredsInside := fun _ _ => h.pred_lt

/-- What the numbering of the blocks says. -/
structure Numbered (c : Cfg) : Prop where
  nodup : c.rpo.Nodup
  mem_rpo : ∀ b, b ∈ c.rpo ↔ b < c.size
  entry_first : c.rpo.idxOf entry = 0
  /-- A block is left before those laid out ahead of it. -/
  postorder : ∀ a < c.size, ∀ b < c.size,
    (c.postorder.get a < c.postorder.get b ↔ c.rpo.idxOf b < c.rpo.idxOf a)
  exists_pred : ∀ b < c.size, b ≠ entry →
    ∃ p ∈ (c.block b).preds, c.rpo.idxOf p < c.rpo.idxOf b

theorem get_foldl_set (count : Nat) (l : List BlockId) (n : Nat) (t : SideTable Nat)
    (hnodup : l.Nodup) :
    ((l.zipIdx n).foldl (fun t (b, i) => t.set b (count - 1 - i)) t).get b =
      if b ∈ l then count - 1 - (n + l.idxOf b) else t.get b := by
  induction l generalizing n t with
  | nil => simp
  | cons x l ih =>
    obtain ⟨hx, hl⟩ := List.nodup_cons.mp hnodup
    rw [List.zipIdx_cons, List.foldl_cons, ih (n + 1) _ hl]
    by_cases hbx : b = x
    · subst hbx
      simp [hx, SideTable.get_set]
    · have hxb : x ≠ b := Ne.symm hbx
      simp only [List.mem_cons, hbx, false_or, SideTable.get_set, hxb, if_false]
      rw [List.idxOf_cons_ne l hxb]
      congr 1
      omega

theorem LedTo.idxOf_lt {l : List BlockId} (h : c.LedTo l x) (hnodup : l.Nodup) :
    ∃ p ∈ l, x ∈ (c.block p).succs ∧ l.idxOf p < l.idxOf x := by
  obtain ⟨pre, p, post, rfl, hx, hp⟩ := h
  obtain ⟨-, hpost, hdisj⟩ := List.nodup_append.mp hnodup
  have hpx : p ≠ x := fun h => (List.nodup_cons.mp hpost).1 (h ▸ hx)
  have hppre : p ∉ pre := fun h => hdisj p h p List.mem_cons_self rfl
  have hxpre : x ∉ pre := fun h => hdisj x h x (List.mem_cons_of_mem p hx) rfl
  refine ⟨p, by simp, hp, ?_⟩
  rw [List.idxOf_append_of_notMem hppre, List.idxOf_append_of_notMem hxpre,
    List.idxOf_cons_self, List.idxOf_cons_ne post hpx]
  omega

/-- Edges lead to blocks that note them. -/
def SuccsNoted (c : Cfg) : Prop := ∀ a, ∀ b ∈ (c.block a).succs, a ∈ (c.block b).preds

/-- Edges lead from one block to the other. -/
def LeadsTo (c : Cfg) : BlockId → BlockId → Prop :=
  Relation.ReflTransGen fun a b => b ∈ (c.block a).succs

/-- A depth-first walk leaves every block once, the entry last, if edges lead from the entry to each
of them. -/
theorem exists_rpo_number (hsuccs : ∀ x, ∀ y ∈ (c.block x).succs, y < c.size)
    (hleads : ∀ b < c.size, c.LeadsTo entry b) (hsize : 0 < c.size) :
    ∃ rest, c.number.rpo = entry :: rest ∧ (entry :: rest).Nodup ∧
      (∀ b, b ∈ entry :: rest ↔ b < c.size) ∧
      ∀ b ∈ entry :: rest, b ≠ entry → c.LedTo (entry :: rest) b := by
  obtain ⟨new, hnew, hrest⟩ := exists_visited (b := entry) hsuccs c.size
    (.withCapacity c.size, []) hsize ((Finset.card_filter_le _ _).trans (Finset.card_range _).le)
  obtain ⟨rest, rfl⟩ := hrest (by simp)
  have hseen (x : BlockId) :
      (c.visit c.size (.withCapacity c.size, []) entry).1.contains x ↔ x ∈ entry :: rest := by
    rw [hnew.seen]
    simp
  refine ⟨rest, hnew.left.trans (List.append_nil _), hnew.nodup,
    fun b => ⟨hnew.lt_size b, fun hb => ?_⟩, fun b hb hne => ?_⟩
  · have hpath : c.LeadsTo entry b := hleads b hb
    clear hb
    induction hpath with
    | refl => exact List.mem_cons_self
    | @tail p d _ hd ih => exact (hseen d).mp (hnew.closed p ih d hd)
  · exact (hnew.led b hb).resolve_left fun h => hne (List.mem_singleton.mp h)

theorem mem_rpo_number (hsuccs : ∀ x, ∀ y ∈ (c.block x).succs, y < c.size)
    (hleads : ∀ b < c.size, c.LeadsTo entry b) : b ∈ c.number.rpo ↔ b < c.size := by
  by_cases hsize : 0 < c.size
  · obtain ⟨rest, hrpo, -, hmem, -⟩ := exists_rpo_number hsuccs hleads hsize
    rw [hrpo, hmem]
  · have hrpo : c.number.rpo = [] := by simp [number, Nat.eq_zero_of_not_pos hsize, visit]
    rw [hrpo]
    exact iff_of_false List.not_mem_nil fun hb => hsize (Nat.zero_lt_of_lt hb)

theorem numbered_of_leadsTo (hnoted : c.SuccsNoted) (hleads : ∀ b < c.size, c.LeadsTo entry b) :
    c.number.Numbered := by
  have hsuccs (x : BlockId) : ∀ y ∈ (c.block x).succs, y < c.size := fun y hy =>
    lt_size_of_mem_preds (hnoted x y hy)
  have hmem (b : BlockId) : b ∈ c.number.rpo ↔ b < c.size := mem_rpo_number hsuccs hleads
  by_cases hsize : 0 < c.size
  case neg =>
    have hrpo : c.number.rpo = [] := List.eq_nil_iff_forall_not_mem.mpr fun b hb =>
      hsize (Nat.zero_lt_of_lt ((hmem b).mp hb))
    refine ⟨by simp [hrpo], hmem, by simp [hrpo], fun a ha => ?_, fun b hb => ?_⟩
    · exact absurd (Nat.zero_lt_of_lt ha) hsize
    · exact absurd (Nat.zero_lt_of_lt hb) hsize
  obtain ⟨rest, hrpo, hnodup, -, hled⟩ := exists_rpo_number hsuccs hleads hsize
  rw [← hrpo] at hnodup hled
  refine ⟨hnodup, hmem, by rw [hrpo, List.idxOf_cons_self], fun a ha b hb => ?_, fun b hb hne => ?_⟩
  · have hget (x : BlockId) (hx : x < c.size) : c.number.postorder.get x =
        c.number.rpo.length - 1 - c.number.rpo.idxOf x := by
      have h := get_foldl_set (b := x) c.number.rpo.length c.number.rpo 0 {} hnodup
      rwa [if_pos ((hmem x).mpr hx), Nat.zero_add] at h
    have hlt (x : BlockId) (hx : x < c.size) : c.number.rpo.idxOf x < c.number.rpo.length :=
      List.idxOf_lt_length_iff.mpr ((hmem x).mpr hx)
    rw [hget a ha, hget b hb]
    have := hlt a ha
    have := hlt b hb
    omega
  · obtain ⟨p, -, hp, hlt⟩ := (hled b ((hmem b).mpr hb) hne).idxOf_lt hnodup
    exact ⟨p, hnoted p b hp, hlt⟩

theorem numbered_number (hc : c.Connected) (hedges : c.EdgesAgree) : c.number.Numbered := by
  refine numbered_of_leadsTo (fun a b => (hedges a b).mp) fun b hb => ?_
  obtain ⟨walk, hwalk⟩ := hc b hb
  suffices hall : ∀ l, c.Walk l → ∀ x ∈ l.head?, c.LeadsTo entry x from hall _ hwalk b rfl
  intro l hl
  induction hl with
  | entry => exact fun x hx => Option.some.inj hx ▸ .refl
  | @step p d _ hp _ ih =>
    rintro x ⟨rfl⟩
    exact (ih p rfl).tail ((hedges p _).mpr hp)

end Cfg

end SeaNodes
