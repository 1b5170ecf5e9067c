import SeaNodes.Proofs.Flow.Iteration

namespace SeaNodes

namespace DomTree

variable {c : Cfg} {d d' : DomTree} {a b p x y : BlockId} {k n : Nat}

theorem hang?_keeps (h : d.hang? b = some d') :
    d'.idom = d.idom ∧ d'.children.size = d.children.size := by
  unfold hang? at h
  split_ifs at h
  · obtain rfl := Option.some.inj h
    exact ⟨rfl, rfl⟩
  · obtain ⟨p, -, rfl⟩ := Option.map_eq_some_iff.mp h
    exact ⟨rfl, Array.size_modify⟩

theorem foldlM_hang?_keeps (l : List BlockId) (h : l.foldlM hang? d = some d') :
    d'.idom = d.idom ∧ d'.children.size = d.children.size := by
  induction l generalizing d with
  | nil =>
    obtain rfl := Option.some.inj h
    exact ⟨rfl, rfl⟩
  | cons b l ih =>
    rw [List.foldlM_cons] at h
    obtain ⟨mid, hmid, h⟩ := Option.bind_eq_some_iff.mp h
    obtain ⟨hidom, hsize⟩ := hang?_keeps hmid
    obtain ⟨hidom', hsize'⟩ := ih h
    exact ⟨hidom'.trans hidom, hsize'.trans hsize⟩

theorem of_ofCfg? (h : ofCfg? c = some d) :
    c.idoms? = some d.idom ∧ d.children.size = c.size := by
  obtain ⟨t, ht, h⟩ := Option.bind_eq_some_iff.mp h
  obtain ⟨hidom, hsize⟩ := foldlM_hang?_keeps c.rpo h
  exact ⟨ht.trans (congrArg some hidom.symm), hsize.trans Array.size_replicate⟩

theorem domTree_eq_ok : c.domTree = .ok d ↔ ofCfg? c = some d := by
  unfold Cfg.domTree
  cases ofCfg? c <;> simp

theorem settled_of_ofCfg? (h : ofCfg? c = some d) (hsize : 0 < c.size) : c.Settled d.idom := by
  have hidoms := (of_ofCfg? h).1
  rw [Cfg.idoms?, if_neg hsize.ne'] at hidoms
  refine Cfg.settled_of_settle? _ ?_ hidoms
  rw [SideTable.get_set, if_pos rfl]

theorem parent?_eq_some : d.parent? b = some p ↔ d.idom.get b = some p ∧ p ≠ b := by
  simp [parent?, Option.filter_eq_some_iff]

theorem up_of_parent? (hentry : d.idom.get Cfg.entry = some Cfg.entry) (h : d.parent? b = some p) :
    Cfg.Up d.idom b p := by
  obtain ⟨hget, hne⟩ := parent?_eq_some.mp h
  refine ⟨?_, hget⟩
  rintro rfl
  exact hne (Option.some.inj (hget.symm.trans hentry))

theorem above_of_meets (hentry : d.idom.get Cfg.entry = some Cfg.entry) (k : Nat)
    (h : d.meets a k b) : Cfg.Above d.idom a b := by
  induction k generalizing b with
  | zero => exact eq_of_beq h ▸ .refl d.idom a
  | succ k ih =>
    rw [meets] at h
    split_ifs at h
    · obtain ⟨p, hp, h⟩ := (Option.any_eq_true _ _).mp h
      exact (ih h).head (up_of_parent? hentry hp)
    · exact eq_of_beq h ▸ .refl d.idom a

theorem dominates_sound (h : ofCfg? c = some d) (hrpo : ∀ b < c.size, b ∈ c.rpo)
    (hab : d.dominates a b) : c.Dominates a b := by
  by_cases hsize : 0 < c.size
  · have hsettled := settled_of_ofCfg? h hsize
    exact hsettled.dominates hrpo (above_of_meets hsettled.entry _ hab)
  · rw [dominates, (of_ofCfg? h).2, Nat.eq_zero_of_not_pos hsize] at hab
    exact eq_of_beq hab ▸ .refl c a

theorem above_of_mem_pathUp (hentry : d.idom.get Cfg.entry = some Cfg.entry) (k : Nat)
    (h : a ∈ d.pathUp k b) : Cfg.Above d.idom a b := by
  induction k generalizing b with
  | zero => exact List.mem_singleton.mp h ▸ .refl d.idom b
  | succ k ih =>
    rw [pathUp] at h
    split at h
    case h_1 p hp =>
      rcases List.mem_cons.mp h with rfl | h
      · exact .refl d.idom a
      · exact (ih h).head (up_of_parent? hentry hp)
    case h_2 => exact List.mem_singleton.mp h ▸ .refl d.idom b

theorem dominates_of_mem_dominators (h : ofCfg? c = some d) (hrpo : ∀ b < c.size, b ∈ c.rpo)
    (hab : a ∈ d.dominators b) : c.Dominates a b := by
  by_cases hsize : 0 < c.size
  · have hsettled := settled_of_ofCfg? h hsize
    exact hsettled.dominates hrpo (above_of_mem_pathUp hsettled.entry _ hab)
  · rw [dominators, (of_ofCfg? h).2, Nat.eq_zero_of_not_pos hsize] at hab
    exact List.mem_singleton.mp hab ▸ .refl c b

/-- The tree tells which block immediately dominates which, and how many blocks dominate each. -/
structure Tells (d : DomTree) (c : Cfg) : Prop where
  connected : c.Connected
  size : d.children.size = c.size
  entry : d.parent? Cfg.entry = none
  parent : ∀ b < c.size, b ≠ Cfg.entry → ∃ p, d.parent? b = some p ∧ c.ImmediatelyDominates p b
  depth : ∀ b < c.size, d.depth b = c.strictCount b

theorem exists_hang? (hb : b ≠ Cfg.entry) (hp : d.idom.get b = some a) :
    ∃ d', d.hang? b = some d' ∧ d'.idom = d.idom ∧
      ∀ x, d'.depth x = if b = x then d.depth a + 1 else d.depth x := by
  refine ⟨{ d with
      children := d.children.modify a (· ++ [b])
      depths := d.depths.set b (d.depths.get a + 1) }, ?_, rfl, fun x => ?_⟩
  · rw [hang?, if_neg hb, hp, Option.map_some]
  · exact SideTable.get_set d.depths b x _

/-- One pass over the layout tells the depths, since parents come first in it. -/
theorem exists_hangs (hn : c.Numbered) (hc : c.Connected)
    (habove : ∀ b < c.size, b ≠ Cfg.entry → ∃ p, d.idom.get b = some p ∧
      c.ImmediatelyDominates p b ∧ c.pos p < c.pos b)
    (suf pre : List BlockId) (heq : c.rpo = pre ++ suf)
    (hdepth : ∀ b ∈ Cfg.entry :: pre, d.depth b = c.strictCount b) :
    ∃ d', suf.foldlM hang? d = some d' ∧ ∀ b ∈ c.rpo, d'.depth b = c.strictCount b := by
  induction suf generalizing pre d with
  | nil =>
    rw [List.append_nil] at heq
    exact ⟨d, rfl, fun b hb => hdepth b (List.mem_cons_of_mem _ (heq ▸ hb))⟩
  | cons b suf ih =>
    have hb : b < c.size := (hn.mem_rpo b).mp (heq ▸ List.mem_append_right pre List.mem_cons_self)
    have heq' : c.rpo = pre ++ [b] ++ suf := by rw [heq, List.append_assoc, List.singleton_append]
    have hold {x : BlockId} (hx : x ∈ Cfg.entry :: (pre ++ [b])) (hne : x ≠ b) :
        d.depth x = c.strictCount x := by
      refine hdepth x ?_
      simpa [hne] using hx
    rw [List.foldlM_cons]
    by_cases hentry : b = Cfg.entry
    · obtain ⟨d', hd', hall⟩ := ih habove (pre ++ [b]) heq' fun x hx => by
        by_cases hxb : x = b
        · exact hdepth x (hxb ▸ hentry ▸ List.mem_cons_self)
        · exact hold hx hxb
      exact ⟨d', by rw [hang?, if_pos hentry]; exact hd', hall⟩
    · obtain ⟨p, hp, himm, hlt⟩ := habove b hb hentry
      have hpre : p ∈ pre := Cfg.mem_of_pos_lt heq hlt
      obtain ⟨d₁, hhang, hidom, hd₁⟩ := exists_hang? hentry hp
      obtain ⟨d', hd', hall⟩ := ih (hidom ▸ habove) (pre ++ [b]) heq' fun x hx => by
        rw [hd₁]
        split_ifs with hbx
        · rw [← hbx, himm.strictCount_eq hc hb, hdepth p (List.mem_cons_of_mem _ hpre)]
        · exact hold hx (Ne.symm hbx)
      exact ⟨d', by rw [hhang]; exact hd', hall⟩

theorem exists_tells (hn : c.Numbered) (hc : c.Connected) (hpreds : c.PredsInside) :
    ∃ d, ofCfg? c = some d ∧ d.Tells c := by
  by_cases hsize : 0 < c.size
  case neg =>
    have hrpo : c.rpo = [] := List.eq_nil_iff_forall_not_mem.mpr fun b hb =>
      hsize (Nat.zero_lt_of_lt ((hn.mem_rpo b).mp hb))
    have hzero := Nat.eq_zero_of_not_pos hsize
    refine ⟨{ children := .replicate c.size [] }, ?_, hc, Array.size_replicate, rfl,
      fun b hb => absurd (Nat.zero_lt_of_lt hb) hsize,
      fun b hb => absurd (Nat.zero_lt_of_lt hb) hsize⟩
    simp [ofCfg?, Cfg.idoms?, hrpo, hzero]
  obtain ⟨t, ht, hrefined⟩ := Cfg.exists_idoms? hn hc hpreds hsize
  have hparent (b : BlockId) (hb : b < c.size) (hne : b ≠ Cfg.entry) : ∃ p, t.get b = some p ∧
      c.ImmediatelyDominates p b ∧ c.pos p < c.pos b := by
    obtain ⟨p, hp⟩ := Option.isSome_iff_exists.mp (hrefined.known b hb (.inr hsize))
    have hup : Cfg.Up t b p := ⟨hne, hp⟩
    exact ⟨p, hp, hrefined.immediatelyDominates le_rfl hup, hrefined.pos_lt hup⟩
  obtain ⟨d, hd, hdepth⟩ := exists_hangs (d := { idom := t, children := .replicate c.size [] }) hn hc
    hparent c.rpo [] rfl fun b hb => by
      rw [List.mem_singleton.mp hb, Cfg.strictCount_entry]
      rfl
  obtain ⟨hidom, hchildren⟩ := foldlM_hang?_keeps c.rpo hd
  refine ⟨d, ?_, hc, hchildren.trans Array.size_replicate, ?_, fun b hb hne => ?_,
    fun b hb => hdepth b ((hn.mem_rpo b).mpr hb)⟩
  · rw [ofCfg?, ht]
    exact hd
  · rw [parent?, hidom, hrefined.entry]
    simp
  · obtain ⟨p, hp, himm, -⟩ := hparent b hb hne
    exact ⟨p, parent?_eq_some.mpr ⟨by rw [hidom, hp], himm.2.1⟩, himm⟩

theorem exists_pathUp {pre post : List BlockId} (h : d.pathUp k b = pre ++ x :: post) :
    ∃ j, x :: post = d.pathUp j x := by
  induction k generalizing b pre with
  | zero =>
    obtain ⟨-, hx⟩ := List.append_eq_singleton_iff.mp h.symm |>.resolve_right fun hbad => by
      cases hbad.2
    obtain ⟨rfl, rfl⟩ := List.cons.inj hx
    exact ⟨0, rfl⟩
  | succ k ih =>
    cases pre with
    | nil =>
      have hbx : b = x := by
        rw [pathUp] at h
        split at h
        · exact (List.cons.inj h).1
        · exact (List.cons.inj h).1
      exact ⟨k + 1, hbx ▸ h.symm⟩
    | cons y pre =>
      rw [pathUp] at h
      split at h
      · exact ih (List.cons.inj h).2
      · exact absurd (List.cons.inj h).2 (by simp)

namespace Tells

variable (h : d.Tells c)
include h

theorem parent?_iff (hb : b < c.size) : d.parent? b = some p ↔ c.ImmediatelyDominates p b := by
  by_cases hne : b = Cfg.entry
  · subst hne
    rw [h.entry]
    exact ⟨nofun, fun himm => absurd himm.1.eq_entry himm.2.1⟩
  · obtain ⟨q, hq, himm⟩ := h.parent b hb hne
    rw [hq]
    refine ⟨?_, fun himm' => congrArg some (himm.unique h.connected hb himm')⟩
    rintro ⟨rfl⟩
    exact himm

theorem exists_parent (hb : b < c.size) (hpos : 0 < c.strictCount b) : ∃ p, d.parent? b = some p ∧
    d.idom.get b = some p ∧ p < c.size ∧ c.strictCount b = c.strictCount p + 1 ∧
      ∀ a, c.Dominates a b ↔ a = b ∨ c.Dominates a p := by
  have hne : b ≠ Cfg.entry := by
    rintro rfl
    rw [Cfg.strictCount_entry] at hpos
    exact absurd hpos (lt_irrefl 0)
  obtain ⟨p, hp, himm⟩ := h.parent b hb hne
  refine ⟨p, hp, (parent?_eq_some.mp hp).1, himm.1.lt_size h.connected hb,
    himm.strictCount_eq h.connected hb, fun a => ⟨fun hab => ?_, ?_⟩⟩
  · by_cases heq : a = b
    · exact .inl heq
    · exact .inr (himm.2.2 a hab heq)
  · rintro (rfl | hap)
    · exact .refl c a
    · exact hap.trans himm.1

theorem eq_entry (hb : b < c.size) (hzero : c.strictCount b = 0) : b = Cfg.entry := by
  by_contra hne
  have := Cfg.strictCount_lt h.connected hb (.of_entry c b) (Ne.symm hne)
  omega

theorem mem_pathUp (hb : b < c.size) (hk : c.strictCount b ≤ k) :
    a ∈ d.pathUp k b ↔ c.Dominates a b := by
  induction k generalizing b with
  | zero =>
    obtain rfl := h.eq_entry hb (Nat.le_zero.mp hk)
    rw [pathUp, List.mem_singleton]
    exact ⟨fun heq => heq ▸ .refl c _, Cfg.Dominates.eq_entry⟩
  | succ k ih =>
    rw [pathUp]
    by_cases hpos : 0 < c.strictCount b
    · obtain ⟨p, hp, -, hlt, hcount, hdom⟩ := h.exists_parent hb hpos
      simp only [hp]
      rw [List.mem_cons, ih hlt (by omega), hdom]
    · obtain rfl := h.eq_entry hb (Nat.eq_zero_of_not_pos hpos)
      simp only [h.entry]
      rw [List.mem_singleton]
      exact ⟨fun heq => heq ▸ .refl c _, Cfg.Dominates.eq_entry⟩

theorem strictCount_le (hb : b < c.size) : c.strictCount b ≤ d.children.size :=
  h.size ▸ Cfg.strictCount_le_size h.connected hb

theorem mem_dominators (hb : b < c.size) : a ∈ d.dominators b ↔ c.Dominates a b :=
  h.mem_pathUp hb (h.strictCount_le hb)

theorem dominates_of_mem_pathUp (k : Nat) (hb : b < c.size) (ha : a ∈ d.pathUp k b) :
    c.Dominates a b := by
  induction k generalizing b with
  | zero => exact List.mem_singleton.mp ha ▸ .refl c b
  | succ k ih =>
    rw [pathUp] at ha
    split at ha
    case h_1 p hp =>
      have hpb := ((h.parent?_iff hb).mp hp).1
      rcases List.mem_cons.mp ha with rfl | ha
      · exact .refl c a
      · exact (ih (hpb.lt_size h.connected hb) ha).trans hpb
    case h_2 => exact List.mem_singleton.mp ha ▸ .refl c b

theorem dominates_of_pathUp_append (hb : b < c.size) {pre post : List BlockId}
    (heq : d.pathUp k b = pre ++ x :: post) : ∀ y ∈ x :: post, c.Dominates y x := by
  obtain ⟨j, hj⟩ := exists_pathUp heq
  have hxb := h.dominates_of_mem_pathUp k hb (heq ▸ List.mem_append_right pre List.mem_cons_self)
  exact fun y hy => h.dominates_of_mem_pathUp j (hxb.lt_size h.connected hb) (hj ▸ hy)

theorem meets_iff (hb : b < c.size) (hk : c.strictCount b ≤ k) :
    d.meets a k b ↔ c.Dominates a b := by
  induction k generalizing b with
  | zero =>
    obtain rfl := h.eq_entry hb (Nat.le_zero.mp hk)
    rw [meets, beq_iff_eq]
    exact ⟨fun heq => heq ▸ .refl c _, Cfg.Dominates.eq_entry⟩
  | succ k ih =>
    rw [meets]
    split_ifs with hlt
    · rw [h.depth b hb] at hlt
      obtain ⟨p, hp, -, hpsize, hcount, hdom⟩ := h.exists_parent hb (Nat.zero_lt_of_lt hlt)
      have hne : a ≠ b := by
        rintro rfl
        rw [h.depth a hb] at hlt
        exact hlt.false
      rw [hp, Option.any_some, ih hpsize (by omega), hdom, or_iff_right hne]
    · rw [beq_iff_eq]
      refine ⟨fun heq => heq ▸ .refl c a, fun hab => ?_⟩
      by_contra hne
      rw [h.depth a (hab.lt_size h.connected hb), h.depth b hb] at hlt
      exact hlt (Cfg.strictCount_lt h.connected hb hab hne)

theorem dominates_iff (hb : b < c.size) : d.dominates a b ↔ c.Dominates a b :=
  h.meets_iff hb (h.strictCount_le hb)

theorem exists_rise? (hb : b < c.size) (hk : c.strictCount b ≤ k) :
    ∃ x, d.rise? n k b = some x ∧ x < c.size ∧ c.strictCount x = min n (c.strictCount b) ∧
      ∀ a, c.Dominates a x ↔ c.Dominates a b ∧ c.strictCount a ≤ n := by
  have hcount (hle : c.strictCount b ≤ n) (a : BlockId) (hab : c.Dominates a b) :
      c.strictCount a ≤ n := (Cfg.strictCount_le h.connected hb hab).trans hle
  induction k generalizing b with
  | zero =>
    have hle : c.strictCount b ≤ n := by omega
    exact ⟨b, rfl, hb, (min_eq_right hle).symm, fun a => (and_iff_left_of_imp (hcount hle a)).symm⟩
  | succ k ih =>
    rw [rise?, h.depth b hb]
    by_cases hlt : n < c.strictCount b
    · obtain ⟨p, -, hp, hpsize, hpcount, hpdom⟩ := h.exists_parent hb (Nat.zero_lt_of_lt hlt)
      obtain ⟨x, hx, hxsize, hxcount, hxdom⟩ := ih hpsize (by omega) fun hle a hap =>
        (Cfg.strictCount_le h.connected hpsize hap).trans hle
      refine ⟨x, by rw [if_pos hlt, hp]; exact hx, hxsize, by omega, fun a => ?_⟩
      rw [hxdom, hpdom]
      refine and_congr_left fun hle => (or_iff_right ?_).symm
      rintro rfl
      omega
    · have hle := Nat.le_of_not_lt hlt
      exact ⟨b, if_neg hlt, hb, (min_eq_right hle).symm,
        fun a => (and_iff_left_of_imp (hcount hle a)).symm⟩

/-- Two blocks that are equally deep meet on their ways up. -/
theorem exists_join? (ha : a < c.size) (hb : b < c.size) (hk : c.strictCount a ≤ k)
    (heq : c.strictCount a = c.strictCount b) : ∃ x, d.join? k a b = some x ∧
      ∀ y, c.Dominates y x ↔ c.Dominates y a ∧ c.Dominates y b := by
  induction k generalizing a b with
  | zero =>
    obtain rfl := h.eq_entry ha (Nat.le_zero.mp hk)
    obtain rfl := h.eq_entry hb (heq ▸ Nat.le_zero.mp hk)
    exact ⟨_, if_pos rfl, fun y => (and_self_iff).symm⟩
  | succ k ih =>
    rw [join?]
    by_cases hab : a = b
    · subst hab
      exact ⟨a, if_pos rfl, fun y => (and_self_iff).symm⟩
    rw [if_neg hab]
    have hpos : 0 < c.strictCount a := by
      by_contra hzero
      have hzero := Nat.eq_zero_of_not_pos hzero
      exact hab ((h.eq_entry ha hzero).trans (h.eq_entry hb (heq ▸ hzero)).symm)
    obtain ⟨p, -, hp, hpsize, hpcount, hpdom⟩ := h.exists_parent ha hpos
    obtain ⟨q, -, hq, hqsize, hqcount, hqdom⟩ := h.exists_parent hb (heq ▸ hpos)
    obtain ⟨x, hx, hxdom⟩ := ih hpsize hqsize (by omega) (by omega)
    refine ⟨x, by rw [hp, hq]; exact hx, fun y => ?_⟩
    -- neither block dominates the other, since they are equally deep
    have hya : c.Dominates a b → a = b := fun hdom => by
      by_contra hne
      have := Cfg.strictCount_lt h.connected hb hdom hne
      omega
    have hyb : c.Dominates b a → b = a := fun hdom => by
      by_contra hne
      have := Cfg.strictCount_lt h.connected ha hdom hne
      omega
    rw [hxdom, hpdom, hqdom]
    constructor
    · exact fun hy => ⟨.inr hy.1, .inr hy.2⟩
    · rintro ⟨rfl | hyp, rfl | hyq⟩
      · exact absurd rfl hab
      · exact absurd (hya ((hqdom y).mpr (.inr hyq))) hab
      · exact absurd (hyb ((hpdom y).mpr (.inr hyp))).symm hab
      · exact ⟨hyp, hyq⟩

theorem exists_lca (ha : a < c.size) (hb : b < c.size) : ∃ x, d.lca (some a) (some b) = some x ∧
    ∀ y, c.Dominates y x ↔ c.Dominates y a ∧ c.Dominates y b := by
  obtain ⟨a', hrise, ha', hacount, hadom⟩ :=
    h.exists_rise? (n := d.depth b) ha (h.strictCount_le ha)
  obtain ⟨b', hrise', hb', hbcount, hbdom⟩ :=
    h.exists_rise? (n := d.depth a') hb (h.strictCount_le hb)
  rw [h.depth b hb] at hacount hadom
  rw [h.depth a' ha'] at hbcount hbdom
  obtain ⟨x, hx, hxdom⟩ := h.exists_join? ha' hb' (h.strictCount_le ha') (by omega)
  refine ⟨x, ?_, fun y => ?_⟩
  · simp only [lca, hrise, hrise', Option.bind_eq_bind, Option.bind_some]
    exact hx
  · rw [hxdom, hadom, hbdom]
    refine ⟨fun hy => ⟨hy.1.1, hy.2.1⟩, fun ⟨hya, hyb⟩ => ?_⟩
    have := Cfg.strictCount_le h.connected ha hya
    have := Cfg.strictCount_le h.connected hb hyb
    exact ⟨⟨hya, by omega⟩, hyb, by omega⟩

end Tells

theorem lca_none_right (d : DomTree) (b : Option BlockId) : d.lca b none = b := by
  cases b <;> rfl

/-- Where all blocks are reached, the iteration over the layout ends, and its tree tells immediate
dominators, dominance, depth and common dominators. -/
theorem iteration_finds_dominators (c : Cfg) (hc : c.Connected) (hedges : c.EdgesAgree) :
    ∃ d, ofCfg? c.number = some d ∧ d.parent? Cfg.entry = none ∧
      (∀ b < c.size, b ≠ Cfg.entry → (d.parent? b).isSome) ∧
      (∀ b < c.size, ∀ p, d.parent? b = some p ↔ c.ImmediatelyDominates p b) ∧
      (∀ a, ∀ b < c.size, d.dominates a b ↔ c.Dominates a b) ∧
      (∀ b < c.size, d.depth b = {a | c.Dominates a b ∧ a ≠ b}.ncard) ∧
      (∀ b, d.lca none b = b ∧ d.lca b none = b) ∧
      ∀ a < c.size, ∀ b < c.size, ∃ x, d.lca (some a) (some b) = some x ∧
        c.Dominates x a ∧ c.Dominates x b ∧ ∀ y, c.Dominates y a → c.Dominates y b → y ≠ x →
          d.depth y < d.depth x := by
  have hn := Cfg.numbered_number hc hedges
  obtain ⟨d, hd, htells⟩ := exists_tells hn (Cfg.connected_number hc) hedges.predsInside
  refine ⟨d, hd, htells.entry, fun b hb hne => ?_, fun b hb p => ?_, fun a b hb => ?_,
    fun b hb => ?_, fun b => ⟨rfl, d.lca_none_right b⟩, fun a ha b hb => ?_⟩
  · obtain ⟨p, hp, -⟩ := htells.parent b hb hne
    exact Option.isSome_of_mem hp
  · rw [htells.parent?_iff hb]
    simp only [Cfg.ImmediatelyDominates, Cfg.dominates_number]
  · rw [htells.dominates_iff hb, Cfg.dominates_number]
  · rw [htells.depth b hb, Cfg.strictCount]
    simp only [Cfg.dominates_number]
  · obtain ⟨x, hx, hdom⟩ := htells.exists_lca ha hb
    obtain ⟨hxa, hxb⟩ := (hdom x).mp (.refl _ x)
    refine ⟨x, hx, Cfg.dominates_number.mp hxa, Cfg.dominates_number.mp hxb,
      fun y hya hyb hne => ?_⟩
    rw [← Cfg.dominates_number] at hya hyb
    have hxsize := hxa.lt_size htells.connected ha
    rw [htells.depth y (hya.lt_size htells.connected ha), htells.depth x hxsize]
    exact Cfg.strictCount_lt htells.connected hxsize ((hdom y).mpr ⟨hya, hyb⟩) hne

/-- Two blocks that lead to each other, both led to by the entry: no order of the blocks makes all
edges but those back to dominators lead forward. -/
def irreducible : Cfg where
  blocks := #[{ head := 0, ctrl := [0], succs := [1, 2] },
    { head := 1, ctrl := [1], preds := [0, 2], succs := [2, 3] },
    { head := 2, ctrl := [2], preds := [0, 1], succs := [1] },
    { head := 3, ctrl := [3], preds := [1] }]

theorem iteration_finds_dominators_irreducible :
    irreducible.Connected ∧ irreducible.EdgesAgree ∧ ∃ d, ofCfg? irreducible.number = some d ∧
      irreducible.ImmediatelyDominates 0 1 ∧ irreducible.ImmediatelyDominates 0 2 ∧
      irreducible.ImmediatelyDominates 1 3 ∧ d.lca (some 2) (some 3) = some 0 := by
  have hc : irreducible.Connected := by
    intro b (hb : b < 4)
    interval_cases b
    · exact ⟨[], .entry⟩
    · exact ⟨[0], .step (by decide) .entry⟩
    · exact ⟨[0], .step (by decide) .entry⟩
    · exact ⟨[1, 0], .step (by decide) (.step (by decide) .entry)⟩
  have hedges : irreducible.EdgesAgree := Cfg.edgesAgree_of_mem (by decide) (by decide)
  obtain ⟨d, hd, -, -, hparent, -⟩ := iteration_finds_dominators irreducible hc hedges
  have hfound : (ofCfg? irreducible.number).any (fun d => d.parent? 1 = some 0 ∧
      d.parent? 2 = some 0 ∧ d.parent? 3 = some 1 ∧ d.lca (some 2) (some 3) = some 0) := by
    decide +kernel
  rw [hd, Option.any_some, decide_eq_true_eq] at hfound
  obtain ⟨h1, h2, h3, hlca⟩ := hfound
  exact ⟨hc, hedges, d, hd, (hparent 1 (by decide) 0).mp h1, (hparent 2 (by decide) 0).mp h2,
    (hparent 3 (by decide) 1).mp h3, hlca⟩

end DomTree

end SeaNodes
