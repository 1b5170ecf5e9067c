import SeaNodes.Proofs.Registers.Merging
import SeaNodes.Registers.Allocate
import SeaNodes.Registers.Color

namespace SeaNodes

variable {τ : Type}

namespace LiveRanges

/-- Every color is one that the range may have, and neighbours have different ones. -/
structure Proper (r : LiveRanges) (c : Coloring) : Prop where
  size : c.colors.size = r.size
  inMask : ∀ v reg, c.colorOf v = some reg → (r.maskOf v).contains reg
  differ : ∀ v w reg, v ≠ w → (r.adjOf v).contains w → (r.adjOf w).contains v →
    c.colorOf v = some reg → c.colorOf w ≠ some reg

section

variable {r : LiveRanges} {c : Coloring} {root : VReg} {reg : Reg}

theorem contains_available (h : (r.available c root).contains reg) :
    (r.maskOf root).contains reg ∧
      ∀ n, (r.adjOf root).contains n → c.colorOf n ≠ some reg := by
  have hloop (step : RegMask → VReg → RegMask)
      (hstep : ∀ m n, (step m n).contains reg → m.contains reg ∧ c.colorOf n ≠ some reg)
      (ns : List VReg) (m : RegMask) (h : (ns.foldl step m).contains reg) :
      m.contains reg ∧ ∀ n ∈ ns, c.colorOf n ≠ some reg := by
    induction ns generalizing m with
    | nil => exact ⟨h, by simp⟩
    | cons n ns ih =>
      obtain ⟨hm, hns⟩ := ih _ h
      rw [List.forall_mem_cons]
      exact ⟨(hstep m n hm).1, (hstep m n hm).2, hns⟩
  obtain ⟨hm, hns⟩ := hloop _ (fun m n h => by
    rcases hn : c.colorOf n with _ | q
    · rw [hn] at h
      exact ⟨h, by simp⟩
    · rw [hn, RegMask.contains_erase, Bool.and_eq_true, Bool.not_eq_true',
        decide_eq_false_iff_not] at h
      exact ⟨h.1, fun he => h.2 (Option.some.inj he)⟩) _ _ h
  exact ⟨hm, fun n hn => hns n (BitSet.mem_toList.mpr hn)⟩

theorem colorOne_cases (r : LiveRanges) (partners : Array (List VReg)) (c : Coloring)
    (root : VReg) :
    (∃ reg, (r.available c root).contains reg ∧ r.colorOne partners c root =
      { c with colors := c.colors.setIfInBounds root (some reg) }) ∨
    r.colorOne partners c root = { c with failed := c.failed ++ [root] } := by
  rw [colorOne]
  split
  · rename_i reg hreg
    refine .inl ⟨reg, ?_, rfl⟩
    rcases Option.or_eq_some_iff.mp hreg with hw | ⟨-, hfirst⟩
    · obtain ⟨p, -, hp⟩ := List.exists_of_findSome?_eq_some hw
      exact (Option.filter_eq_some_iff.mp hp).2
    · exact RegMask.contains_of_first? hfirst
  · exact .inr rfl

theorem colorOf_set (c : Coloring) (root v : VReg) (reg : Reg) :
    Coloring.colorOf { c with colors := c.colors.setIfInBounds root (some reg) } v =
      if root = v ∧ root < c.colors.size then some reg else c.colorOf v :=
  getD_setIfInBounds c.colors root v (some reg) none

theorem Proper.colorOne (h : r.Proper c) (partners : Array (List VReg)) (root : VReg) :
    r.Proper (r.colorOne partners c root) := by
  rcases colorOne_cases r partners c root with ⟨reg, havail, heq⟩ | heq
  · obtain ⟨hmask, hnew⟩ := contains_available havail
    rw [heq]
    refine ⟨Array.size_setIfInBounds.trans h.size, fun v q hv => ?_, fun v w q hne hvw hwv hv => ?_⟩
    · rw [colorOf_set] at hv
      split_ifs at hv with hroot
      · rw [← hroot.1, ← Option.some.inj hv]
        exact hmask
      · exact h.inMask v q hv
    · rw [colorOf_set] at hv ⊢
      by_cases hrv : root = v ∧ root < c.colors.size
      · rw [if_pos hrv] at hv
        rw [if_neg fun hrw => hne (hrv.1.symm.trans hrw.1), ← Option.some.inj hv]
        exact hnew w (hrv.1 ▸ hvw)
      · rw [if_neg hrv] at hv
        by_cases hrw : root = w ∧ root < c.colors.size
        · rw [if_pos hrw]
          intro hq
          rw [Option.some.inj hq] at hnew
          exact hnew v (hrw.1 ▸ hwv) hv
        · rw [if_neg hrw]
          exact h.differ v w q hne hvw hwv hv
  · rw [heq]
    exact ⟨h.size, h.inMask, h.differ⟩

theorem Proper.foldl (h : r.Proper c) (partners : Array (List VReg)) (turns : List VReg) :
    r.Proper (turns.foldl (r.colorOne partners) c) ∧
      ((turns.foldl (r.colorOne partners) c).failed = [] → c.failed = [] ∧
        (∀ v, c.colorOf v ≠ none → (turns.foldl (r.colorOne partners) c).colorOf v ≠ none) ∧
        ∀ v ∈ turns, v < r.size → (turns.foldl (r.colorOne partners) c).colorOf v ≠ none) := by
  induction turns generalizing c with
  | nil => exact ⟨h, fun hf => ⟨hf, fun _ hv => hv, by simp⟩⟩
  | cons root turns ih =>
    obtain ⟨hproper, hfailed⟩ := ih (h.colorOne partners root)
    refine ⟨hproper, fun hf => ?_⟩
    obtain ⟨hone, hkeep, hturns⟩ := hfailed hf
    rcases colorOne_cases r partners c root with ⟨reg, -, heq⟩ | heq
    · have hset (v : VReg) := colorOf_set c root v reg
      rw [← heq] at hset
      rw [heq] at hone
      refine ⟨hone, fun v hv => hkeep v ?_, fun v hv hlt => ?_⟩
      · rw [hset]
        split_ifs
        · exact Option.some_ne_none reg
        · exact hv
      · rcases List.mem_cons.mp hv with rfl | hv
        · apply hkeep v
          rw [hset, if_pos ⟨rfl, h.size.symm ▸ hlt⟩]
          exact Option.some_ne_none reg
        · exact hturns v hv hlt
    · rw [heq] at hone
      simp at hone

end

theorem mem_turns {r : LiveRanges} {v : VReg} : v ∈ r.turns ↔ v ∈ r.roots := by
  simp only [turns, List.mem_map, List.mem_mergeSort, exists_exists_and_eq_and, turnKey,
    exists_eq_right]

theorem mem_roots {r : LiveRanges} {v : VReg} : v ∈ r.roots ↔
    v < r.size ∧ ∃ w, w < r.size ∧ r.occurs.getD w false = true ∧ r.find w = v := by
  have hloop (ws : List VReg) (s : BitSet) : (ws.foldl (fun s w =>
      if r.occurs.getD w false then s.insert (r.find w) else s) s).contains v ↔
        s.contains v ∨ ∃ w ∈ ws, r.occurs.getD w false = true ∧ r.find w = v := by
    induction ws generalizing s with
    | nil => simp
    | cons w ws ih =>
      rw [List.foldl_cons, ih, List.exists_mem_cons_iff, ← or_assoc]
      apply or_congr_left
      split_ifs with hw
      · rw [BitSet.contains_insert, Bool.or_eq_true, decide_eq_true_eq, or_comm]
        simp only [hw, true_and, eq_comm]
      · rw [or_iff_left fun h => hw h.1]
  simp only [roots, List.mem_filter, List.mem_range, hloop, BitSet.contains_empty,
    Bool.false_eq_true, false_or]

theorem proper_none (r : LiveRanges) : r.Proper { colors := Array.replicate r.size none } := by
  have hnone (v : VReg) : Coloring.colorOf { colors := Array.replicate r.size none } v = none := by
    rw [Coloring.colorOf, Array.getD_eq_getD_getElem?, Array.getElem?_replicate]
    split_ifs <;> rfl
  refine ⟨by simp, fun v reg hv => ?_, fun v w reg _ _ _ hv => ?_⟩
  · rw [hnone] at hv
    exact absurd hv.symm (Option.some_ne_none reg)
  · rw [hnone] at hv
    exact absurd hv.symm (Option.some_ne_none reg)

theorem proper_color (r : LiveRanges) : r.Proper r.color :=
  (r.proper_none.foldl r.partners r.turns).1

theorem exists_color {f : MachFunction τ} {p : Nat → Inst τ → Prop} {r : LiveRanges}
    (h : r.Faithful f p) (hf : f.InRange) (hc : r.color.failed = []) {i : Inst τ} (hi : i ∈ f.insts)
    {v : VReg} (hv : i.Mentions v) : ∃ reg, r.color.colorOf (r.find v) = some reg := by
  obtain ⟨o, ho, rfl⟩ := hv
  have hlt : o.vreg < r.size := (hf i hi o ho).trans_eq h.size.symm
  have hroot := find_lt h.forest hlt
  apply Option.ne_none_iff_exists'.mp
  apply ((r.proper_none.foldl r.partners r.turns).2 hc).2.2 _ _ hroot
  exact mem_turns.mpr (mem_roots.mpr ⟨hroot, o.vreg, hlt, h.occurs i hi o ho, rfl⟩)

theorem getD_assign (r : LiveRanges) (file : RegFile) {vregs : Array VRegInfo} (c : Coloring)
    {v : VReg} (hv : v < vregs.size) {reg : Reg} (hreg : c.colorOf (r.find v) = some reg) :
    (r.assign file vregs c).getD v 0 = reg := by
  rw [assign, Array.getD_eq_getD_getElem?, Array.getElem?_mapIdx, Array.getElem?_eq_getElem hv]
  simp [hreg]

end LiveRanges

theorem MachFunction.LiveFrom.mentioned {f : MachFunction τ} {v : VReg} {rest : List (Inst τ)}
    {b : Nat} (h : f.LiveFrom v rest b) (hrest : ∀ i ∈ rest, i ∈ f.insts) :
    ∃ i ∈ f.insts, i.Mentions v := by
  induction h with
  | use hu => exact ⟨_, hrest _ List.mem_cons_self, Inst.Reads.mentions hu⟩
  | skip _ _ ih => exact ih fun i hi => hrest i (List.mem_cons_of_mem _ hi)
  | leave _ _ ih => exact ih fun i hi => mem_insts hi

theorem pairwise_of_splits {α : Type} {R : α → α → Prop} {l : List α}
    (h : ∀ a x b, l = a ++ x :: b → ∀ y ∈ b, R x y) : l.Pairwise R := by
  induction l with
  | nil => exact .nil
  | cons x l ih =>
    refine List.pairwise_cons.mpr ⟨h [] x l rfl, ih fun a y b hl => h (x :: a) y b ?_⟩
    rw [hl, List.cons_append]

/-- When the ranges tell what all instructions demand and none of them fails, the check accepts the
assignment. -/
theorem LiveRanges.Faithful.verify {f : MachFunction τ} {r : LiveRanges}
    (h : r.Faithful f fun _ _ => True) (hf : f.InRange) (hc : r.color.failed = [])
    (file : RegFile) :
    f.verify file (r.assign file f.vregs r.color) = .ok () := by
  let reg (v : VReg) : Reg := (r.assign file f.vregs r.color).getD v 0
  have hcolor {i : Inst τ} (hi : i ∈ f.insts) {v : VReg} (hv : i.Mentions v) :
      r.color.colorOf (r.find v) = some (reg v) := by
    obtain ⟨q, hq⟩ := exists_color h hf hc hi hv
    obtain ⟨o, ho, rfl⟩ := hv
    rw [hq, ← r.getD_assign file r.color (hf i hi o ho) hq]
  have hallows {i : Inst τ} (hi : i ∈ f.insts) {v : VReg} (hv : i.Mentions v) :
      f.Allows v (reg v) := by
    have hmask := r.proper_color.inMask _ _ (hcolor hi hv)
    obtain ⟨o, ho, rfl⟩ := hv
    exact h.allows _ (hf i hi o ho) _ hmask
  have hdiffer {x y : VReg} (hxy : f.Clash (fun _ _ => True) x y) {i j : Inst τ} (hi : i ∈ f.insts)
      (hx : i.Mentions x) (hj : j ∈ f.insts) (hy : j.Mentions y) : reg x ≠ reg y := by
    obtain ⟨hne, hadj⟩ := h.apart x y hxy
    intro heq
    exact r.proper_color.differ _ _ _ hne hadj.left hadj.right (hcolor hi hx)
      (heq ▸ hcolor hj hy)
  -- masks and ties hold by the colors, the rest as registers that clash differ
  rw [MachFunction.verify_eq_ok_iff]
  refine ⟨by simp [LiveRanges.assign], fun i hi => ⟨fun o ho => ?_, fun d u ht => ?_⟩, ?_⟩
  · exact (hallows hi ⟨o, ho, rfl⟩).operand i hi o ho rfl
  · have hroot := h.ties d u ⟨i, hi, ht⟩
    have hd := hcolor hi (Inst.writes_of_tie? ht).mentions
    have hu := hcolor hi (Inst.reads_of_tie? ht).mentions
    rw [hroot, hu] at hd
    exact (Option.some.inj hd).symm
  · intro b hb pre i post hsplit
    have hi : i ∈ f.insts := MachFunction.mem_insts (b := b) (by simp [hsplit])
    have hpost (j : Inst τ) (hj : j ∈ post) : j ∈ f.insts :=
      MachFunction.mem_insts (b := b) (by simp [hsplit, hj])
    have hdef {d : Operand} (hd : d ∈ i.defs) : i.Mentions d.vreg :=
      Inst.Writes.mentions ⟨d, hd, rfl⟩
    refine ⟨?_, fun d hd v hv hne hsrc => ?_, fun v hv hd => ?_⟩
    · refine List.pairwise_map.mpr (pairwise_of_splits fun a d m hds o ho => ?_)
      have hd : d ∈ i.defs := by simp [hds]
      have ho' : o ∈ i.defs := by simp [hds, ho]
      exact hdiffer (.defs hb trivial hsplit hds ho rfl rfl) hi (hdef hd) hi (hdef ho')
    · obtain ⟨j, hj, hjv⟩ := hv.mentioned hpost
      exact (hdiffer (.live hb trivial hsplit hd rfl hv hne hsrc) hi (hdef hd) hj hjv).symm
    · obtain ⟨j, hj, hjv⟩ := hv.mentioned hpost
      exact (hallows hj hjv).kill b hb pre i post hsplit hv hd

end SeaNodes

namespace SeaNodes

variable {τ : Type}

namespace MachFunction

/-- Register `u` links `j`, which writes nothing else, to the tied instruction `i`, and `d` is
written by `i` only and not read on the way. -/
structure TiedAt (f : MachFunction τ) (b : Nat) (a : List (Inst τ)) (j : Inst τ)
    (m : List (Inst τ)) (i : Inst τ) (post : List (Inst τ)) (d u : VReg) : Prop where
  link : f.Link b a j m i post u
  untied : j.tie? = none
  alone : ∀ v, j.Writes v → v = u
  writes : i.Writes d
  notRead : ¬ i.Reads d
  between : ∀ x ∈ m, ¬ x.Reads d
  once : ∀ x ∈ a ++ j :: m ++ post, ¬ x.Writes d
  elsewhere : ∀ c, c ≠ b → ∀ x ∈ (f.block c).insts, ¬ x.Writes d

/-- Registers are in the table, defs are different, and ties other than those of copies can be
kept. -/
structure Tidy (f : MachFunction τ) : Prop where
  inRange : f.InRange
  defs : ∀ i ∈ f.insts, (i.defs.map (·.vreg)).Nodup
  ties : ∀ b pre i post d u, (f.block b).insts = pre ++ i :: post → i.isCopy = false →
    i.tie? = some (d, u) → ∃ a j m, pre = a ++ j :: m ∧ f.TiedAt b a j m i post d u

def UntiedCopies (f : MachFunction τ) : Prop := ∀ i ∈ f.insts, i.isCopy → i.tie? = none

section

variable {f : MachFunction τ} {b c : Nat} {a m post p q : List (Inst τ)} {i j x : Inst τ}
  {d u : VReg}

theorem Link.cases (h : f.Link b a j m i post u) (hx : (f.block c).insts = p ++ x :: q)
    (hu : x.Mentions u) : c = b ∧ ((x = j ∧ q = m ++ i :: post) ∨ (x = i ∧ q = post)) := by
  have hothers {y : Inst τ} (hy : y ∈ a ++ m ++ post) : ¬ y.Mentions u := h.others y hy
  have hc : c = b := by
    by_contra hc
    exact h.elsewhere c hc x (by simp [hx]) hu
  subst hc
  rw [h.insts] at hx
  refine ⟨rfl, ?_⟩
  rcases append_cons_eq_append hx.symm with ⟨q', rfl, -⟩ | ⟨p', -, hp'⟩
  · exact absurd hu (hothers (by simp))
  rcases List.cons_eq_append_iff.mp hp' with ⟨-, hx'⟩ | ⟨p'', -, hp''⟩
  · obtain ⟨rfl, rfl⟩ := List.cons.inj hx'
    exact .inl ⟨rfl, rfl⟩
  rcases append_cons_eq_append hp''.symm with ⟨q', rfl, -⟩ | ⟨p₃, -, hp₃⟩
  · exact absurd hu (hothers (by simp))
  rcases List.cons_eq_append_iff.mp hp₃ with ⟨-, hx'⟩ | ⟨p₄, -, hp₄⟩
  · obtain ⟨rfl, rfl⟩ := List.cons.inj hx'
    exact .inr ⟨rfl, rfl⟩
  · exact absurd hu (hothers (by simp [hp₄]))

theorem TiedAt.cases (h : f.TiedAt b a j m i post d u) (hx : (f.block c).insts = p ++ x :: q)
    (hd : x.Writes d) : c = b ∧ x = i ∧ q = post := by
  have hc : c = b := by
    by_contra hc
    exact h.elsewhere c hc x (by simp [hx]) hd
  subst hc
  have hinsts : (a ++ j :: m) ++ i :: post = p ++ x :: q := by
    rw [← hx, h.link.insts]
    simp
  refine ⟨rfl, ?_⟩
  rcases append_cons_eq_append hinsts.symm with ⟨q', hq', -⟩ | ⟨p', -, hp'⟩
  · exact absurd hd (h.once x (by simp [hq']))
  rcases List.cons_eq_append_iff.mp hp' with ⟨-, hx'⟩ | ⟨p'', -, hp''⟩
  · obtain ⟨rfl, rfl⟩ := List.cons.inj hx'
    exact ⟨rfl, rfl⟩
  · exact absurd hd (h.once x (by simp [hp'']))

theorem Link.live (h : f.Link b a j m i post u) {rest : List (Inst τ)} (hl : f.LiveFrom u rest c)
    {p : List (Inst τ)} (hp : (f.block c).insts = p ++ rest) :
    c = b ∧ ∃ m₁ m₂, m = m₁ ++ m₂ ∧ rest = m₂ ++ i :: post := by
  induction hl generalizing p with
  | @use x rest c hu =>
    obtain ⟨hc, ⟨rfl, -⟩ | ⟨rfl, rfl⟩⟩ := h.cases hp (Inst.Reads.mentions hu)
    · exact absurd hu h.notRead
    · exact ⟨hc, m, [], by simp, rfl⟩
  | @skip x rest c hd _ ih =>
    obtain ⟨rfl, m₁, m₂, rfl, rfl⟩ := ih (p := p ++ [x]) (by simpa using hp)
    refine ⟨rfl, ?_⟩
    rcases List.eq_nil_or_concat m₁ with rfl | ⟨m₁, y, rfl⟩
    · have heq : (p ++ [x]) ++ (m₂ ++ i :: post) = (a ++ [j]) ++ (m₂ ++ i :: post) := by
        simpa using hp.symm.trans h.insts
      obtain ⟨o, ho, hou⟩ := h.written
      have hxj := List.append_inj' (List.append_cancel_right heq) rfl
      rw [List.cons.injEq] at hxj
      exact absurd hou (hd o (hxj.2.1 ▸ ho))
    · have heq : (p ++ [x]) ++ (m₂ ++ i :: post) =
          ((a ++ j :: m₁) ++ [y]) ++ (m₂ ++ i :: post) := by
        simpa using hp.symm.trans h.insts
      have hxy := (List.append_inj' (List.append_cancel_right heq) rfl).2
      rw [List.cons.injEq] at hxy
      exact ⟨m₁, y :: m₂, by simp, by simp [hxy.1]⟩
  | @leave c t ht _ ih =>
    obtain ⟨rfl, m₁, m₂, rfl, heq⟩ := ih (p := []) rfl
    have hlen := congrArg List.length (h.insts.symm.trans heq)
    simp at hlen
    omega

theorem TiedAt.not_live (h : f.TiedAt b a j m i post d u) (m' : List (Inst τ))
    (hm : ∀ x ∈ m', ¬ x.Reads d) : ¬ f.LiveFrom d (m' ++ i :: post) b := by
  induction m' with
  | nil =>
    intro hl
    cases hl with
    | use hu => exact h.notRead hu
    | skip hd _ =>
      obtain ⟨o, ho, hod⟩ := h.writes
      exact hd o ho hod
  | cons x m' ih =>
    rw [List.forall_mem_cons] at hm
    intro hl
    cases hl with
    | use hu => exact hm.1 hu
    | skip _ hl => exact ih hm.2 hl

theorem not_clash_def_use (h : f.TiedAt b a j m i post d u) {P : Nat → Inst τ → Prop} :
    ¬ f.Clash P d u := by
  intro hc
  cases hc with
  | @live c p q x o hc _ hx ho hod hl _ _ =>
    obtain ⟨rfl, -, rfl⟩ := h.cases hx ⟨o, ho, hod⟩
    obtain ⟨-, m₁, m₂, -, heq⟩ := h.link.live hl (p := p ++ [x]) (by simpa using hx)
    have hlen := congrArg List.length heq
    simp at hlen
    omega
  | @defs c p q x ds ds' o o' hc _ hx hds ho' hod hou =>
    obtain ⟨-, rfl, -⟩ := h.cases hx ⟨o, by simp [hds], hod⟩
    exact h.link.notWritten ⟨o', by simp [hds, ho'], hou⟩

theorem not_clash_use_def (h : f.TiedAt b a j m i post d u) {P : Nat → Inst τ → Prop} :
    ¬ f.Clash P u d := by
  intro hc
  cases hc with
  | @live c p q x o hc _ hx ho hou hl _ _ =>
    have hw : x.Writes u := ⟨o, ho, hou⟩
    obtain ⟨rfl, ⟨-, rfl⟩ | ⟨rfl, -⟩⟩ := h.link.cases hx hw.mentions
    · exact h.not_live m h.between hl
    · exact h.link.notWritten hw
  | @defs c p q x ds ds' o o' hc _ hx hds ho' hou hod =>
    obtain ⟨-, rfl, -⟩ := h.cases hx ⟨o', by simp [hds, ho'], hod⟩
    exact h.link.notWritten ⟨o, by simp [hds], hou⟩

end

theorem exists_split {f : MachFunction τ} {i : Inst τ} (hi : i ∈ f.insts) :
    ∃ b pre post, (f.block b).insts = pre ++ i :: post := by
  obtain ⟨b, hb⟩ := mem_insts_iff.mp hi
  obtain ⟨pre, post, h⟩ := List.append_of_mem hb
  exact ⟨b, pre, post, h⟩

namespace Tidy

variable {f : MachFunction τ} {p : Nat → Inst τ → Prop}

theorem ne_of_clash (h : f.Tidy) {x y : VReg} (hc : f.Clash p x y) : x ≠ y := by
  cases hc with
  | live _ _ _ _ _ _ hne _ => exact hne.symm
  | @defs b pre post i a m d o _ _ hi hds ho hx hy =>
    have hn := h.defs i (mem_insts (b := b) (by simp [hi]))
    rw [hds, List.map_append, List.map_cons] at hn
    have hd := (List.nodup_cons.mp (List.nodup_append.mp hn).2.1).1
    exact fun he => hd (List.mem_map.mpr ⟨o, ho, by rw [hx, he, hy]⟩)

theorem lt_of_clash (h : f.Tidy) {x y : VReg} (hc : f.Clash p x y) :
    x < f.vregs.size ∧ y < f.vregs.size := by
  cases hc with
  | @live b pre post i d _ _ hi hd hx hl _ _ =>
    have hpost (j : Inst τ) (hj : j ∈ post) : j ∈ f.insts :=
      mem_insts (b := b) (by simp [hi, hj])
    obtain ⟨j, hj, o, ho, rfl⟩ := hl.mentioned hpost
    refine ⟨?_, h.inRange j hj o ho⟩
    rw [← hx]
    exact h.inRange i (mem_insts (b := b) (by simp [hi])) d (List.mem_append_left _ hd)
  | @defs b pre post i a m d o _ _ hi hds ho hx hy =>
    have hmem : i ∈ f.insts := mem_insts (b := b) (by simp [hi])
    rw [← hx, ← hy]
    exact ⟨h.inRange i hmem d (List.mem_append_left _ (by simp [hds])),
      h.inRange i hmem o (List.mem_append_left _ (by simp [hds, ho]))⟩

theorem exists_tiedAt (h : f.Tidy) {i : Inst τ} (hi : i ∈ f.insts) (hc : i.isCopy = false)
    {d u : VReg} (ht : i.tie? = some (d, u)) : ∃ b a j m post, f.TiedAt b a j m i post d u := by
  obtain ⟨b, pre, post, hsplit⟩ := exists_split hi
  obtain ⟨a, j, m, -, hat⟩ := h.ties b pre i post d u hsplit hc ht
  exact ⟨b, a, j, m, post, hat⟩

theorem exists_tiedAt_of_untied (h : f.Tidy) (hu : f.UntiedCopies) {d u : VReg}
    (ht : TiedIn f.insts d u) :
    ∃ b a j m i post, i.tie? = some (d, u) ∧ f.TiedAt b a j m i post d u := by
  obtain ⟨i, hi, htie⟩ := ht
  have hc : i.isCopy = false := by
    by_contra hc
    rw [hu i hi (by simpa using hc)] at htie
    cases htie
  obtain ⟨b, a, j, m, post, hat⟩ := h.exists_tiedAt hi hc htie
  exact ⟨b, a, j, m, i, post, htie, hat⟩

theorem tiesDisjoint (h : f.Tidy) (hu : f.UntiedCopies) : f.TiesDisjoint := by
  intro d u d' u' ht ht' hshare
  obtain ⟨b, a, j, m, i, post, hi, T⟩ := h.exists_tiedAt_of_untied hu ht
  obtain ⟨b', a', j', m', i', post', hi', T'⟩ := h.exists_tiedAt_of_untied hu ht'
  -- it is enough that the two instructions are the same
  suffices hsame : i' = i by
    rw [hsame, hi] at hi'
    exact Prod.mk.inj (Option.some.inj hi')
  have hsplit {b a j m i post u} (L : f.Link b a j m i post u) :
      (f.block b).insts = (a ++ j :: m) ++ i :: post := by simp [L.insts]
  have huse {b a j m i post u x p q c} (L : f.Link b a j m i post u) (hj : j.tie? = none)
      (hx : (f.block c).insts = p ++ x :: q) (hxt : x.tie? ≠ none) (hu : x.Mentions u) : x = i := by
    obtain ⟨-, ⟨rfl, -⟩ | ⟨rfl, -⟩⟩ := L.cases hx hu
    · exact absurd hj hxt
    · rfl
  rcases hshare with rfl | rfl | rfl | rfl
  · exact (T.cases (hsplit T'.link) T'.writes).2.1
  · exact (huse T'.link T'.untied (hsplit T.link) (by simp [hi]) T.writes.mentions).symm
  · exact huse T.link T.untied (hsplit T'.link) (by simp [hi']) T'.writes.mentions
  · exact huse T.link T.untied (hsplit T'.link) (by simp [hi']) T'.link.read.mentions

theorem not_tiedTogether (h : f.Tidy) (hu : f.UntiedCopies) {x y : VReg} (hc : f.Clash p x y) :
    ¬ TiedTogether f.insts x y := by
  intro hxy
  rcases (h.tiesDisjoint hu).cases hxy with rfl | ht | ht
  · exact h.ne_of_clash hc rfl
  · obtain ⟨b, a, j, m, i, post, -, T⟩ := h.exists_tiedAt_of_untied hu ht
    exact not_clash_def_use T hc
  · obtain ⟨b, a, j, m, i, post, -, T⟩ := h.exists_tiedAt_of_untied hu ht
    exact not_clash_use_def T hc

/-- The live ranges of a tidy function tell what its instructions demand, when ties join no
registers that clash. -/
theorem faithful (h : f.Tidy) (hp : ∀ x y, f.Clash p x y → ¬ TiedTogether f.insts x y)
    (file : RegFile) (w : Double) :
    (LiveRanges.ofFunction file f (.ofFunction f) w).Faithful f p := by
  have hr : LiveRanges.Refines (.joined file f w)
      (LiveRanges.ofFunction file f (.ofFunction f) w) := LiveRanges.refines_ofFunction _
  have J := LiveRanges.joining_joined file w h.inRange
  have hlt {v : VReg} (hv : v < f.vregs.size) :
      (LiveRanges.joined file f w).find v < f.vregs.size :=
    (LiveRanges.find_lt J.forest (hv.trans_eq J.size.symm)).trans_eq J.size
  refine ⟨hr.parent ▸ J.forest, hr.parent ▸ J.size, hr.maskSize.trans J.maskSize,
    hr.adjSize.trans J.adjSize, ?_, ?_, ?_, ?_⟩
  · intro d u ht
    rw [hr.find, hr.find]
    exact J.same d u ht
  · intro x y hc
    obtain ⟨hx, hy⟩ := h.lt_of_clash hc
    have hne : (LiveRanges.joined file f w).find x ≠ (LiveRanges.joined file f w).find y :=
      fun heq => hp x y hc (J.only x y heq)
    have hs : (LiveRanges.joined file f w).Separate x y :=
      ⟨hne, (hlt hx).trans_eq J.adjSize.symm, (hlt hy).trans_eq J.adjSize.symm⟩
    refine ⟨?_, LiveRanges.apart_ofFunction hc hs⟩
    rw [hr.find, hr.find]
    exact hne
  · intro v hv reg hreg
    rw [hr.find] at hreg
    exact LiveRanges.allows_ofFunction ((hlt hv).trans_eq J.maskSize.symm) hreg
  · intro i hi o ho
    rw [hr.occurs]
    exact J.occurs i hi o ho (h.inRange i hi o ho)

theorem lt_of_mem_copies (h : f.Tidy) {file : RegFile} {w : Double} {d s : VReg}
    (hp : (d, s) ∈ (LiveRanges.ofFunction file f (.ofFunction f) w).copies) :
    d < f.vregs.size ∧ s < f.vregs.size := by
  rw [(LiveRanges.refines_ofFunction _).copies] at hp
  obtain ⟨i, hi, hcopy⟩ := List.mem_filterMap.mp hp
  simp only [Inst.copy?, Option.bind_eq_bind, Option.bind_eq_some_iff, Option.pure_def,
    Option.some.injEq, Prod.mk.injEq] at hcopy
  obtain ⟨-, -, a, ha, b, hb, rfl, rfl⟩ := hcopy
  exact ⟨h.inRange i hi a (List.mem_append_left _ (List.mem_of_mem_head? ha)),
    h.inRange i hi b (List.mem_append_right _ (List.mem_of_mem_head? hb))⟩

theorem faithful_ranges (h : f.Tidy) (hp : ∀ x y, f.Clash p x y → ¬ TiedTogether f.insts x y)
    (file : RegFile) (cfg : AllocConfig) : (f.ranges file cfg).2.Faithful f p := by
  have hfaith := h.faithful hp file cfg.loopWeight
  rw [ranges]
  split
  · exact hfaith.coalesce fun _ hp => h.lt_of_mem_copies hp
  · exact hfaith

theorem verify_ok (h : f.Tidy) (hu : f.UntiedCopies) (file : RegFile) (cfg : AllocConfig)
    (hc : (f.ranges file cfg).2.color.failed = []) :
    f.verify file ((f.ranges file cfg).2.assign file f.vregs (f.ranges file cfg).2.color) =
      .ok () :=
  (h.faithful_ranges (fun _ _ => h.not_tiedTogether hu) file cfg).verify h.inRange hc file

end Tidy

end MachFunction

end SeaNodes
