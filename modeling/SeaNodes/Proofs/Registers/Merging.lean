import Mathlib.Logic.Relation
import SeaNodes.Proofs.Registers.Interference
import SeaNodes.Proofs.Registers.Rewriting

namespace SeaNodes

variable {τ : Type}

def TiedIn (is : List (Inst τ)) (d u : VReg) : Prop := ∃ i ∈ is, i.tie? = some (d, u)

theorem TiedIn.append_left {is : List (Inst τ)} {d u : VReg} (h : TiedIn is d u)
    (js : List (Inst τ)) : TiedIn (is ++ js) d u :=
  h.imp fun _ hi => ⟨List.mem_append_left _ hi.1, hi.2⟩

theorem tiedIn_concat {is : List (Inst τ)} {i : Inst τ} {d u : VReg} :
    TiedIn (is ++ [i]) d u ↔ TiedIn is d u ∨ i.tie? = some (d, u) := by
  simp only [TiedIn, List.mem_append, List.mem_singleton, or_and_right, exists_or, exists_eq_left]

/-- A chain of ties connects two registers. -/
def TiedTogether (is : List (Inst τ)) : VReg → VReg → Prop := Relation.EqvGen (TiedIn is)

theorem TiedTogether.mono {is js : List (Inst τ)} (h : ∀ d u, TiedIn is d u → TiedIn js d u)
    {x y : VReg} (hxy : TiedTogether is x y) : TiedTogether js x y :=
  Relation.EqvGen.mono h x y hxy

/-- Ties that share a register are the same. -/
def MachFunction.TiesDisjoint (f : MachFunction τ) : Prop :=
  ∀ d u d' u', TiedIn f.insts d u → TiedIn f.insts d' u' →
    d = d' ∨ d = u' ∨ u = d' ∨ u = u' → d = d' ∧ u = u'

theorem MachFunction.TiesDisjoint.cases {f : MachFunction τ} (h : f.TiesDisjoint) {x y : VReg}
    (hxy : TiedTogether f.insts x y) :
    x = y ∨ TiedIn f.insts x y ∨ TiedIn f.insts y x := by
  induction hxy with
  | rel x y ht => exact .inr (.inl ht)
  | refl x => exact .inl rfl
  | symm x y _ ih => exact ih.imp Eq.symm Or.symm
  | trans x y z _ _ ih ih' =>
    rcases ih with rfl | hxy
    · exact ih'
    rcases ih' with rfl | hyz
    · exact .inr hxy
    -- both ties have the register in the middle, so they are one
    left
    rcases hxy with hxy | hxy <;> rcases hyz with hyz | hyz
    · obtain ⟨rfl, rfl⟩ := h _ _ _ _ hxy hyz (by simp)
      rfl
    · exact (h _ _ _ _ hxy hyz (by simp)).1
    · exact (h _ _ _ _ hxy hyz (by simp)).2
    · obtain ⟨rfl, rfl⟩ := h _ _ _ _ hxy hyz (by simp)
      rfl

namespace LiveRanges

/-- The ranges of `n` registers when the ties of the instructions `is` are joined. -/
structure Joining (n : Nat) (is : List (Inst τ)) (r : LiveRanges) : Prop where
  forest : Forest r.parent
  size : r.parent.size = n
  maskSize : r.mask.size = n
  adjSize : r.adj.size = n
  occursSize : r.occurs.size = n
  same : ∀ d u, TiedIn is d u → r.find d = r.find u
  only : ∀ x y, r.find x = r.find y → TiedTogether is x y
  occurs : ∀ i ∈ is, ∀ o ∈ i.operands, o.vreg < n → r.occurs.getD o.vreg false = true

theorem Joining.initial (file : RegFile) (f : MachFunction τ) :
    Joining f.vregs.size ([] : List (Inst τ)) (initial file f) := by
  have hget (v : VReg) : (Array.range f.vregs.size).getD v v = v := by
    rw [Array.getD_eq_getD_getElem?]
    by_cases hv : v < f.vregs.size
    · simp [hv]
    · simp [Nat.le_of_not_lt hv]
  have hroot (k : Nat) (v : VReg) : climb (Array.range f.vregs.size) k v = v :=
    climb_of_isRoot (hget v) k
  have hfind (v : VReg) : (LiveRanges.initial file f).find v = v := hroot _ v
  refine ⟨⟨fun v hv => ?_, fun v => ?_⟩, Array.size_range, by simp [LiveRanges.initial],
    by simp [LiveRanges.initial], by simp [LiveRanges.initial], by simp [TiedIn], fun x y h => ?_,
    by simp⟩
  · exact (hget v).symm ▸ hv
  · exact (hroot _ v).symm ▸ hget v
  · rw [hfind, hfind] at h
    exact h ▸ .refl x

section

variable {n : Nat} {is : List (Inst τ)} {r : LiveRanges} {i : Inst τ}

theorem Joining.union (h : Joining n is r) {d u : VReg} (hd : d < n) (hu : u < n) :
    Forest (r.union d u).parent ∧ (r.union d u).parent.size = n ∧
      (r.union d u).find d = (r.union d u).find u ∧
      (∀ x y, r.find x = r.find y → (r.union d u).find x = (r.union d u).find y) ∧
      ∀ x y, (r.union d u).find x = (r.union d u).find y → r.find x = r.find y ∨
        (r.find x = r.find d ∧ r.find y = r.find u) ∨
        (r.find x = r.find u ∧ r.find y = r.find d) := by
  by_cases hroots : r.find d = r.find u
  · rw [LiveRanges.union, if_pos hroots]
    exact ⟨h.forest, h.size, hroots, fun _ _ hxy => hxy, fun _ _ hxy => .inl hxy⟩
  · have hd' := find_lt h.forest (h.size.symm ▸ hd)
    have hu' := find_lt h.forest (h.size.symm ▸ hu)
    have hparent : (r.union d u).parent = r.parent.setIfInBounds (r.find u) (r.find d) := by
      rw [LiveRanges.union, if_neg hroots]
    have hfind (v : VReg) : (r.union d u).find v =
        if r.find v = r.find u then r.find d else r.find v :=
      find_hang h.forest.root (isRoot_find h.forest.root d) (isRoot_find h.forest.root u) hroots hu'
        hparent v
    refine ⟨?_, ?_, ?_, fun x y hxy => ?_, fun x y hxy => ?_⟩
    · rw [hparent]
      exact h.forest.hang hroots hu' (isRoot_find h.forest.root u) (isRoot_find h.forest.root d) hd'
    · rw [hparent, Array.size_setIfInBounds]
      exact h.size
    · rw [hfind, hfind, if_pos rfl, if_neg hroots]
    · rw [hfind, hfind, hxy]
    · -- at most one of the two ranges went into the other
      rw [hfind, hfind] at hxy
      split_ifs at hxy with hx hy hy
      · exact .inl (hx.trans hy.symm)
      · exact .inr (.inr ⟨hx, hxy.symm⟩)
      · exact .inr (.inl ⟨hxy, hy⟩)
      · exact .inl hxy

def countOperand (w : Double) (r : LiveRanges) (o : Operand) : LiveRanges := { r with
  occurs := r.occurs.setIfInBounds o.vreg true
  weight := r.weight.modify o.vreg (·.add w) }

theorem foldl_countOperand (w : Double) (os : List Operand) (r : LiveRanges) :
    let r' := os.foldl (countOperand w) r
    (r'.parent = r.parent ∧ r'.mask = r.mask ∧ r'.adj = r.adj ∧ r'.occurs.size = r.occurs.size) ∧
      (∀ v, r.occurs.getD v false = true → r'.occurs.getD v false = true) ∧
      ∀ o ∈ os, o.vreg < r.occurs.size → r'.occurs.getD o.vreg false = true := by
  induction os generalizing r with
  | nil => simp
  | cons a os ih =>
    obtain ⟨⟨hp, hm, ha, hsize⟩, hmono, hset⟩ := ih (countOperand w r a)
    have hstep (v : VReg) : (countOperand w r a).occurs.getD v false =
        if a.vreg = v ∧ a.vreg < r.occurs.size then true else r.occurs.getD v false :=
      getD_setIfInBounds r.occurs a.vreg v true false
    refine ⟨⟨hp, hm, ha, hsize.trans Array.size_setIfInBounds⟩, fun v hv => hmono v ?_,
      fun o ho hlt => ?_⟩
    · rw [hstep, hv, ite_self]
    · rcases List.mem_cons.mp ho with rfl | ho
      · exact hmono _ ((hstep _).trans (if_pos ⟨rfl, hlt⟩))
      · exact hset o ho (hlt.trans_eq Array.size_setIfInBounds.symm)

/-- One more instruction. -/
theorem Joining.addInst (h : Joining n is r) (w : Double)
    (hi : ∀ o ∈ i.operands, o.vreg < n) : Joining n (is ++ [i]) (r.addInst w i) := by
  have hmentions {v : VReg} (hv : i.Mentions v) : v < n := by
    obtain ⟨o, ho, rfl⟩ := hv
    exact hi o ho
  obtain ⟨r₁, hr₁, hjoin, hmask, hadj, hocc⟩ : ∃ r₁, r.addInst w i = i.operands.foldl
      (countOperand w) r₁ ∧ (Forest r₁.parent ∧ r₁.parent.size = n ∧
        (∀ d u, TiedIn (is ++ [i]) d u → r₁.find d = r₁.find u) ∧
        ∀ x y, r₁.find x = r₁.find y → TiedTogether (is ++ [i]) x y) ∧
      r₁.mask = r.mask ∧ r₁.adj = r.adj ∧ r₁.occurs = r.occurs := by
    have hold (x y : VReg) (hxy : r.find x = r.find y) : TiedTogether (is ++ [i]) x y :=
      (h.only x y hxy).mono fun _ _ ht => ht.append_left [i]
    rcases ht : i.tie? with _ | ⟨d, u⟩
    · refine ⟨r, by rw [LiveRanges.addInst, ht]; rfl, ⟨h.forest, h.size, ?_, hold⟩, rfl, rfl, rfl⟩
      simp only [tiedIn_concat, ht, reduceCtorEq, or_false]
      exact h.same
    · have hnew : TiedTogether (is ++ [i]) d u := .rel d u (tiedIn_concat.mpr (.inr ht))
      obtain ⟨hforest, hsize, hdu, hkeep, honly⟩ := h.union
        (hmentions (Inst.writes_of_tie? ht).mentions) (hmentions (Inst.reads_of_tie? ht).mentions)
      refine ⟨r.union d u, by rw [LiveRanges.addInst, ht]; rfl, ⟨hforest, hsize, ?_, ?_⟩, ?_⟩
      · intro x y hxy
        rcases tiedIn_concat.mp hxy with hxy | hxy
        · exact hkeep x y (h.same x y hxy)
        · obtain ⟨rfl, rfl⟩ := Prod.mk.inj (Option.some.inj (ht.symm.trans hxy))
          exact hdu
      · intro x y hxy
        rcases honly x y hxy with hxy | ⟨hx, hy⟩ | ⟨hx, hy⟩
        · exact hold x y hxy
        · exact ((hold x d hx).trans _ _ _ hnew).trans _ _ _ (hold u y hy.symm)
        · exact ((hold x u hx).trans _ _ _ (hnew.symm _ _)).trans _ _ _ (hold d y hy.symm)
      · rw [LiveRanges.union]
        split <;> exact ⟨rfl, rfl, rfl⟩
  obtain ⟨⟨hp, hm, ha, hsize⟩, hmono, hset⟩ := foldl_countOperand w i.operands r₁
  rw [← hr₁] at hp hm ha hsize hmono hset
  have hfind (v : VReg) : (r.addInst w i).find v = r₁.find v := by
    rw [LiveRanges.find, LiveRanges.find, LiveRanges.size, LiveRanges.size, hp]
  rw [hocc] at hsize hmono hset
  refine ⟨hp ▸ hjoin.1, hp ▸ hjoin.2.1, (hm.trans hmask) ▸ h.maskSize, (ha.trans hadj) ▸ h.adjSize,
    hsize.trans h.occursSize, ?_, ?_, ?_⟩
  · simp only [hfind]
    exact hjoin.2.2.1
  · simp only [hfind]
    exact hjoin.2.2.2
  · intro j hj o ho hlt
    rcases List.mem_append.mp hj with hj | hj
    · exact hmono _ (h.occurs j hj o ho hlt)
    · rw [List.mem_singleton.mp hj] at ho
      exact hset o ho (h.occursSize.symm ▸ hlt)

theorem Joining.foldl_insts (h : Joining n is r) (w : Double) (js : List (Inst τ))
    (hjs : ∀ j ∈ js, ∀ o ∈ j.operands, o.vreg < n) :
    Joining n (is ++ js) (js.foldl (LiveRanges.addInst w) r) := by
  induction js generalizing is r with
  | nil => simpa using h
  | cons j js ih =>
    rw [List.forall_mem_cons] at hjs
    rw [List.append_cons]
    exact ih (h.addInst w hjs.1) hjs.2

end

theorem joining_joined (file : RegFile) {f : MachFunction τ} (w : Double) (hf : f.InRange) :
    Joining f.vregs.size f.insts (joined file f w) := by
  have hblocks (bs : List (MachBlock τ)) (is : List (Inst τ)) (r : LiveRanges)
      (hin : is ++ bs.flatMap (·.insts) = f.insts) (h : Joining f.vregs.size is r) :
      Joining f.vregs.size f.insts
        (bs.foldl (fun r b => b.insts.foldl (LiveRanges.addInst (b.weight w)) r) r) := by
    induction bs generalizing is r with
    | nil =>
      rw [List.flatMap_nil, List.append_nil] at hin
      exact hin ▸ h
    | cons b bs ih =>
      rw [List.flatMap_cons, ← List.append_assoc] at hin
      apply ih (is ++ b.insts) _ hin
      exact h.foldl_insts _ _ fun j hj => hf j (by rw [← hin]; simp [hj])
  have h := hblocks f.blocks.toList [] _ rfl (Joining.initial file f)
  rw [Array.foldl_toList] at h
  exact ⟨h.forest, h.size, h.maskSize, h.adjSize, h.occursSize, h.same, h.only, h.occurs⟩

end LiveRanges

namespace LiveRanges

/-- Two registers are in different ranges that know of each other. -/
def KeptApart (r : LiveRanges) (x y : VReg) : Prop := r.find x ≠ r.find y ∧ r.Apart x y

theorem KeptApart.symm {r : LiveRanges} {x y : VReg} (h : r.KeptApart x y) : r.KeptApart y x :=
  ⟨h.1.symm, h.2.symm⟩

/-- The ranges of a function tell what its instructions demand, as far as clashes go those that `p`
holds of. -/
structure Faithful (f : MachFunction τ) (p : Nat → Inst τ → Prop) (r : LiveRanges) : Prop where
  forest : Forest r.parent
  size : r.parent.size = f.vregs.size
  maskSize : r.mask.size = f.vregs.size
  adjSize : r.adj.size = f.vregs.size
  ties : ∀ d u, TiedIn f.insts d u → r.find d = r.find u
  apart : ∀ x y, f.Clash p x y → r.KeptApart x y
  allows : ∀ v, v < f.vregs.size → ∀ reg, (r.maskOf (r.find v)).contains reg → f.Allows v reg
  occurs : ∀ i ∈ f.insts, ∀ o ∈ i.operands, r.occurs.getD o.vreg false = true

def moveEdge (a b : VReg) (adj : Array BitSet) (n : VReg) : Array BitSet :=
  (adj.modify n fun s => (s.erase b).insert a).modify a (·.insert n)

section

variable {a b : VReg}

@[simp] theorem size_moveEdge (adj : Array BitSet) (n : VReg) :
    (moveEdge a b adj n).size = adj.size := by simp [moveEdge]

theorem contains_moveEdge (adj : Array BitSet) (n : VReg) {x y : VReg} (hy : y ≠ b)
    (h : (adj.getD x .empty).contains y) : ((moveEdge a b adj n).getD x .empty).contains y := by
  rw [moveEdge, contains_modify_insert]
  left
  rw [getD_modify]
  split_ifs
  · simp [-Array.getD_eq_getD_getElem?, hy, h]
  · exact h

theorem moveEdge_both (adj : Array BitSet) {n : VReg} (hn : n < adj.size) (ha : a < adj.size) :
    ((moveEdge a b adj n).getD n .empty).contains a ∧
      ((moveEdge a b adj n).getD a .empty).contains n := by
  rw [moveEdge, contains_modify_insert, contains_modify_insert, Array.size_modify]
  refine ⟨.inl ?_, .inr ⟨rfl, ha, rfl⟩⟩
  rw [getD_modify, if_pos ⟨rfl, hn⟩]
  simp

theorem foldl_moveEdge (ns : List VReg) (adj : Array BitSet) (hab : a ≠ b) (ha : a < adj.size) :
    (ns.foldl (moveEdge a b) adj).size = adj.size ∧
      (∀ x y, y ≠ b → (adj.getD x .empty).contains y →
        ((ns.foldl (moveEdge a b) adj).getD x .empty).contains y) ∧
      ∀ n ∈ ns, n ≠ b → n < adj.size →
        ((ns.foldl (moveEdge a b) adj).getD n .empty).contains a ∧
          ((ns.foldl (moveEdge a b) adj).getD a .empty).contains n := by
  induction ns generalizing adj with
  | nil => exact ⟨rfl, fun _ _ _ h => h, by simp⟩
  | cons m ns ih =>
    obtain ⟨hsize, hmono, hboth⟩ := ih (moveEdge a b adj m) (by simpa using ha)
    refine ⟨hsize.trans (size_moveEdge adj m),
      fun x y hy h => hmono x y hy (contains_moveEdge adj m hy h), fun n hn hnb hlt => ?_⟩
    rcases List.mem_cons.mp hn with rfl | hn
    · obtain ⟨h1, h2⟩ := moveEdge_both (b := b) adj hlt ha
      exact ⟨hmono _ _ hab h1, hmono _ _ hnb h2⟩
    · exact hboth n hn hnb (by simpa using hlt)

end

theorem merge_adj (r : LiveRanges) (a b : VReg) : (r.merge a b).adj =
    (r.adjOf b).toList.foldl (moveEdge a b) (r.adj.setIfInBounds b .empty) := rfl

theorem lt_of_contains_adjOf {r : LiveRanges} {x y : VReg} (h : (r.adjOf x).contains y) :
    x < r.adj.size := by
  by_contra hx
  rw [adjOf, Array.getD_eq_getD_getElem?, Array.getElem?_eq_none (Nat.le_of_not_lt hx)] at h
  simp at h

section

variable {f : MachFunction τ} {p : Nat → Inst τ → Prop} {r : LiveRanges} (h : r.Faithful f p)
  {a b : VReg}
  (ha : IsRoot r.parent a) (hb : IsRoot r.parent b) (hab : a ≠ b) (halt : a < f.vregs.size)
  (hblt : b < f.vregs.size)

include h ha hb hab hblt

theorem find_merge (v : VReg) : (r.merge a b).find v = if r.find v = b then a else r.find v :=
  find_hang h.forest.root ha hb hab (hblt.trans_eq h.size.symm) rfl v

include halt

/-- Registers that are kept apart still are when two ranges without an edge are merged. -/
theorem KeptApart.merge (hedge : (r.adjOf a).contains b = false) {x y : VReg}
    (hxy : r.KeptApart x y) : (r.merge a b).KeptApart x y := by
  obtain ⟨-, hmono, hboth⟩ := foldl_moveEdge (r.adjOf b).toList (r.adj.setIfInBounds b .empty)
    hab (by simpa [h.adjSize] using halt)
  rw [← merge_adj, Array.size_setIfInBounds] at hboth
  rw [← merge_adj] at hmono
  have hfind := find_merge h ha hb hab hblt
  have hleft {x y : VReg} (hxy : r.KeptApart x y) (hx : r.find x = b) :
      (r.merge a b).KeptApart x y := by
    obtain ⟨hne, hl, hr⟩ := hxy
    have hyb : r.find y ≠ b := fun hy => hne (hx.trans hy.symm)
    have hya : r.find y ≠ a := by
      intro hy
      rw [hx, hy, hedge] at hr
      exact absurd hr Bool.false_ne_true
    rw [hx] at hl
    obtain ⟨h1, h2⟩ := hboth _ (BitSet.mem_toList.mpr hl) hyb (lt_of_contains_adjOf hr)
    rw [KeptApart, hfind, hfind, if_pos hx, if_neg hyb]
    refine ⟨Ne.symm hya, ?_, ?_⟩
    · rw [hfind, hfind, if_pos hx, if_neg hyb]
      exact h2
    · rw [hfind, hfind, if_pos hx, if_neg hyb]
      exact h1
  by_cases hx : r.find x = b
  · exact hleft hxy hx
  by_cases hy : r.find y = b
  · exact (hleft hxy.symm hy).symm
  have hother {x y : VReg} (hx : x ≠ b) (hy : y ≠ b) (hxy : (r.adjOf x).contains y) :
      ((r.merge a b).adjOf x).contains y := by
    apply hmono x y hy
    rw [getD_setIfInBounds, if_neg fun hbx => hx hbx.1.symm]
    exact hxy
  rw [KeptApart, hfind, hfind, if_neg hx, if_neg hy]
  refine ⟨hxy.1, ?_, ?_⟩
  · rw [hfind, hfind, if_neg hx, if_neg hy]
    exact hother hx hy hxy.2.left
  · rw [hfind, hfind, if_neg hx, if_neg hy]
    exact hother hy hx hxy.2.right

theorem Faithful.merge (hedge : (r.adjOf a).contains b = false) : (r.merge a b).Faithful f p := by
  have hfind := find_merge h ha hb hab hblt
  have hmask (v : VReg) : (r.merge a b).maskOf v =
      if a = v ∧ a < r.mask.size then (r.maskOf a).inter (r.maskOf b) else r.maskOf v :=
    getD_setIfInBounds r.mask a v _ .empty
  constructor
  case forest =>
    exact h.forest.hang hab (hblt.trans_eq h.size.symm) hb ha (halt.trans_eq h.size.symm)
  case size => exact Array.size_setIfInBounds.trans h.size
  case maskSize => exact Array.size_setIfInBounds.trans h.maskSize
  case adjSize =>
    rw [merge_adj, (foldl_moveEdge _ _ hab (by simpa [h.adjSize] using halt)).1,
      Array.size_setIfInBounds, h.adjSize]
  case ties =>
    intro d u ht
    rw [hfind, hfind, h.ties d u ht]
  case apart => exact fun x y hc => (h.apart x y hc).merge h ha hb hab halt hblt hedge
  case allows =>
    intro v hv reg hreg
    apply h.allows v hv reg
    rw [hfind, hmask, h.maskSize] at hreg
    by_cases hvb : r.find v = b
    · rw [if_pos hvb, if_pos ⟨rfl, halt⟩, RegMask.contains_inter, Bool.and_eq_true] at hreg
      rw [hvb]
      exact hreg.2
    · rw [if_neg hvb] at hreg
      split_ifs at hreg with hva
      · rw [RegMask.contains_inter, Bool.and_eq_true, hva.1] at hreg
        exact hreg.1
      · exact hreg
  case occurs => exact h.occurs

end

theorem coalesce_induction {P : LiveRanges → Prop} {r : LiveRanges} (h : P r)
    (hstep : ∀ r' d s, P r' → (d, s) ∈ r.copies → r'.canMerge (r'.find d) (r'.find s) →
      P (r'.merge (r'.find d) (r'.find s))) : P r.coalesce.2 := by
  have hloop (ps : List (VReg × VReg)) (hps : ∀ p ∈ ps, p ∈ r.copies) (k : Nat) (r' : LiveRanges)
      (h : P r') : P (ps.foldl (fun q p =>
        let a := q.2.find p.1
        let b := q.2.find p.2
        if q.2.canMerge a b then (q.1 + 1, q.2.merge a b) else (q.1, q.2)) (k, r')).2 := by
    induction ps generalizing k r' with
    | nil => exact h
    | cons p ps ih =>
      rw [List.forall_mem_cons] at hps
      rw [List.foldl_cons]
      dsimp only
      split_ifs with hc
      · exact ih hps.2 _ _ (hstep r' p.1 p.2 h hps.1 hc)
      · exact ih hps.2 _ _ h
  exact hloop r.copies (fun _ hp => hp) 0 r h

theorem Faithful.coalesce {f : MachFunction τ} {p : Nat → Inst τ → Prop} {r : LiveRanges}
    (h : r.Faithful f p) (hcopies : ∀ c ∈ r.copies, c.1 < f.vregs.size ∧ c.2 < f.vregs.size) :
    r.coalesce.2.Faithful f p := by
  apply coalesce_induction h
  intro r' d s h hp hc
  obtain ⟨hd, hs⟩ := hcopies _ hp
  simp only [canMerge, Bool.and_eq_true, bne_iff_ne, ne_eq, Bool.not_eq_true'] at hc
  apply h.merge (isRoot_find h.forest.root _) (isRoot_find h.forest.root _) hc.1.1.1.1
  · exact (find_lt h.forest (hd.trans_eq h.size.symm)).trans_eq h.size
  · exact (find_lt h.forest (hs.trans_eq h.size.symm)).trans_eq h.size
  · exact hc.1.2

end LiveRanges

end SeaNodes
