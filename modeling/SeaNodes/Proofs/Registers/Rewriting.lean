import SeaNodes.Proofs.Registers.Liveness
import SeaNodes.Registers.Legal

namespace SeaNodes

variable {τ : Type}

namespace Inst

def Writes (i : Inst τ) (v : VReg) : Prop := ∃ o ∈ i.defs, o.vreg = v

def Reads (i : Inst τ) (v : VReg) : Prop := ∃ o ∈ i.uses, o.vreg = v

def Mentions (i : Inst τ) (v : VReg) : Prop := ∃ o ∈ i.operands, o.vreg = v

instance (i : Inst τ) (v : VReg) : Decidable (i.Writes v) :=
  inferInstanceAs (Decidable (∃ o ∈ i.defs, o.vreg = v))

instance (i : Inst τ) (v : VReg) : Decidable (i.Reads v) :=
  inferInstanceAs (Decidable (∃ o ∈ i.uses, o.vreg = v))

theorem mentions_iff {i : Inst τ} {v : VReg} : i.Mentions v ↔ i.Writes v ∨ i.Reads v := by
  simp only [Mentions, Writes, Reads, operands, List.mem_append, or_and_right, exists_or]

theorem Writes.mentions {i : Inst τ} {v : VReg} (h : i.Writes v) : i.Mentions v :=
  mentions_iff.mpr (.inl h)

theorem Reads.mentions {i : Inst τ} {v : VReg} (h : i.Reads v) : i.Mentions v :=
  mentions_iff.mpr (.inr h)

theorem writes_of_tie? {i : Inst τ} {d u : VReg} (h : i.tie? = some (d, u)) : i.Writes d := by
  simp only [tie?, Option.bind_eq_bind, Option.bind_eq_some_iff, Option.pure_def,
    Option.some.injEq, Prod.mk.injEq] at h
  obtain ⟨o, ho, _, _, _, _, rfl, _⟩ := h
  exact ⟨o, List.mem_of_mem_head? ho, rfl⟩

theorem reads_of_tie? {i : Inst τ} {d u : VReg} (h : i.tie? = some (d, u)) : i.Reads u := by
  simp only [tie?, Option.bind_eq_bind, Option.bind_eq_some_iff, Option.pure_def,
    Option.some.injEq, Prod.mk.injEq] at h
  obtain ⟨_, _, n, _, o, ho, _, rfl⟩ := h
  exact ⟨o, List.mem_of_getElem? ho, rfl⟩

theorem ends_of_tie? {i : Inst τ} {o o' : Operand} {d u : VReg} (hd : i.defs = [o])
    (hu : i.uses = [o']) (h : i.tie? = some (d, u)) : o.vreg = d ∧ o'.vreg = u := by
  obtain ⟨a, ha, rfl⟩ := writes_of_tie? h
  obtain ⟨a', ha', rfl⟩ := reads_of_tie? h
  rw [hd, List.mem_singleton] at ha
  rw [hu, List.mem_singleton] at ha'
  exact ⟨congrArg Operand.vreg ha.symm, congrArg Operand.vreg ha'.symm⟩

theorem tied_ne_none {i : Inst τ} {p : VReg × VReg} (h : i.tie? = some p) : i.tied ≠ none := by
  intro hnone
  simp [tie?, hnone] at h

end Inst

def Extends (vs vs' : Array VRegInfo) : Prop := ∃ more : Array VRegInfo, vs' = vs ++ more

theorem Extends.refl (vs : Array VRegInfo) : Extends vs vs := ⟨#[], by simp⟩

theorem Extends.push (vs : Array VRegInfo) (info : VRegInfo) : Extends vs (vs.push info) :=
  ⟨#[info], by simp⟩

theorem Extends.trans {a b c : Array VRegInfo} (h : Extends a b) (h' : Extends b c) :
    Extends a c := by
  obtain ⟨m, rfl⟩ := h
  obtain ⟨m', rfl⟩ := h'
  exact ⟨m ++ m', by simp⟩

theorem Extends.size_le {vs vs' : Array VRegInfo} (h : Extends vs vs') : vs.size ≤ vs'.size := by
  obtain ⟨m, rfl⟩ := h
  simp

theorem Extends.getD {vs vs' : Array VRegInfo} (h : Extends vs vs') {v : VReg} (hv : v < vs.size)
    (d : VRegInfo) : vs'.getD v d = vs.getD v d := by
  obtain ⟨m, rfl⟩ := h
  rw [Array.getD_eq_getD_getElem?, Array.getD_eq_getD_getElem?, Array.getElem?_append_left hv]

/-- `out` is what rewriting makes of `is` when the registers `vs` are taken; `vs'` are those taken
afterwards. -/
inductive Rewritten (rewrite : Inst τ → FreshM (List (Inst τ))) :
    Array VRegInfo → List (Inst τ) → List (Inst τ) → Array VRegInfo → Prop
  | nil {vs : Array VRegInfo} : Rewritten rewrite vs [] [] vs
  | cons {vs vs₁ vs₂ : Array VRegInfo} {i : Inst τ} {seg is out : List (Inst τ)} :
    (rewrite i).run vs = (seg, vs₁) → Rewritten rewrite vs₁ is out vs₂ →
    Rewritten rewrite vs (i :: is) (seg ++ out) vs₂

/-- A rewriting takes new registers from the end of the table, and writes and reads no others
besides those of the instruction. -/
structure FreshRewriting (rewrite : Inst τ → FreshM (List (Inst τ))) : Prop where
  grows : ∀ {vs i seg vs'}, (rewrite i).run vs = (seg, vs') → Extends vs vs'
  writes : ∀ {vs i seg vs'}, (rewrite i).run vs = (seg, vs') → ∀ x ∈ seg, ∀ v, x.Writes v →
    i.Writes v ∨ (vs.size ≤ v ∧ v < vs'.size)
  reads : ∀ {vs i seg vs'}, (rewrite i).run vs = (seg, vs') → ∀ x ∈ seg, ∀ v, x.Reads v →
    i.Reads v ∨ (vs.size ≤ v ∧ v < vs'.size)

variable {rewrite : Inst τ → FreshM (List (Inst τ))} {vs vs' : Array VRegInfo}
  {is out : List (Inst τ)}

theorem FreshRewriting.mentions (hr : FreshRewriting rewrite) {vs i seg vs'}
    (h : (rewrite i).run vs = (seg, vs')) (x : Inst τ) (hx : x ∈ seg) (v : VReg)
    (hv : x.Mentions v) : i.Mentions v ∨ (vs.size ≤ v ∧ v < vs'.size) := by
  rcases Inst.mentions_iff.mp hv with hv | hv
  · exact (hr.writes h x hx v hv).imp_left Inst.Writes.mentions
  · exact (hr.reads h x hx v hv).imp_left Inst.Reads.mentions

/-- New instructions around `i`: those before it read what it reads and write new registers, those
after it read new registers and write what it writes. The uses and defs of `i` may be new, too. -/
structure Surrounded (i : Inst τ) (vs : Array VRegInfo) (before : List (Inst τ))
    (uses : List Operand) (vs₁ : Array VRegInfo) (defs : List Operand) (after : List (Inst τ))
    (vs' : Array VRegInfo) : Prop where
  grows : Extends vs vs₁
  grows' : Extends vs₁ vs'
  uses : ∀ o ∈ uses, o ∈ i.uses ∨ (vs.size ≤ o.vreg ∧ o.vreg < vs₁.size)
  defs : ∀ o ∈ defs, o ∈ i.defs ∨ (vs₁.size ≤ o.vreg ∧ o.vreg < vs'.size)
  before : ∀ x ∈ before, ∀ v, (x.Writes v → vs.size ≤ v ∧ v < vs₁.size) ∧ (x.Reads v → i.Reads v)
  after : ∀ x ∈ after, ∀ v, (x.Writes v → i.Writes v) ∧ (x.Reads v → vs₁.size ≤ v ∧ v < vs'.size)

theorem FreshRewriting.of_surrounded (h : ∀ {vs i seg vs'}, (rewrite i).run vs = (seg, vs') →
      ((∀ x ∈ seg, x = i) ∧ vs' = vs) ∨ ∃ before uses vs₁ defs after,
        Surrounded i vs before uses vs₁ defs after vs' ∧
          seg = before ++ { i with uses, defs } :: after) : FreshRewriting rewrite where
  grows hrun := by
    rcases h hrun with ⟨-, rfl⟩ | ⟨_, _, _, _, _, hs, -⟩
    · exact .refl _
    · exact hs.grows.trans hs.grows'
  writes hrun x hx v hv := by
    rcases h hrun with ⟨hself, -⟩ | ⟨before, uses, vs₁, defs, after, hs, rfl⟩
    · exact .inl (hself x hx ▸ hv)
    · rw [List.mem_append, List.mem_cons] at hx
      rcases hx with hx | rfl | hx
      · obtain ⟨hlo, hhi⟩ := (hs.before x hx v).1 hv
        exact .inr ⟨hlo, hhi.trans_le hs.grows'.size_le⟩
      · obtain ⟨o, ho, rfl⟩ := hv
        rcases hs.defs o ho with ho | ⟨hlo, hhi⟩
        · exact .inl ⟨o, ho, rfl⟩
        · exact .inr ⟨hs.grows.size_le.trans hlo, hhi⟩
      · exact .inl ((hs.after x hx v).1 hv)
  reads hrun x hx v hv := by
    rcases h hrun with ⟨hself, -⟩ | ⟨before, uses, vs₁, defs, after, hs, rfl⟩
    · exact .inl (hself x hx ▸ hv)
    · rw [List.mem_append, List.mem_cons] at hx
      rcases hx with hx | rfl | hx
      · exact .inl ((hs.before x hx v).2 hv)
      · obtain ⟨o, ho, rfl⟩ := hv
        rcases hs.uses o ho with ho | ⟨hlo, hhi⟩
        · exact .inl ⟨o, ho, rfl⟩
        · exact .inr ⟨hlo, hhi.trans_le hs.grows'.size_le⟩
      · obtain ⟨hlo, hhi⟩ := (hs.after x hx v).2 hv
        exact .inr ⟨hs.grows.size_le.trans hlo, hhi⟩

theorem rewritten_mapM (rewrite : Inst τ → FreshM (List (Inst τ))) (is : List (Inst τ))
    (vs : Array VRegInfo) : Rewritten rewrite vs is ((is.mapM rewrite).run vs).1.flatten
      ((is.mapM rewrite).run vs).2 := by
  induction is generalizing vs with
  | nil => exact .nil
  | cons i is ih =>
    rw [List.mapM_cons]
    exact .cons rfl (ih ((rewrite i).run vs).2)

theorem Rewritten.grows (hr : FreshRewriting rewrite) (h : Rewritten rewrite vs is out vs') :
    Extends vs vs' := by
  induction h with
  | nil => exact .refl _
  | cons hseg _ ih => exact (hr.grows hseg).trans ih

/-- What holds of the registers of each segment holds of those of the whole result: they are old
ones of the instructions or new ones. -/
theorem Rewritten.occurs (hr : FreshRewriting rewrite) {P : Inst τ → VReg → Prop}
    (hP : ∀ {vs i seg vs'}, (rewrite i).run vs = (seg, vs') → ∀ x ∈ seg, ∀ v, P x v →
      P i v ∨ (vs.size ≤ v ∧ v < vs'.size))
    (h : Rewritten rewrite vs is out vs') {x : Inst τ} (hx : x ∈ out) {v : VReg} (hv : P x v) :
    (∃ i ∈ is, P i v) ∨ (vs.size ≤ v ∧ v < vs'.size) := by
  induction h with
  | nil => exact absurd hx List.not_mem_nil
  | cons hseg hrest ih =>
    have hle := (hr.grows hseg).size_le
    have hle' := (hrest.grows hr).size_le
    rcases List.mem_append.mp hx with hx | hx
    · rcases hP hseg x hx v hv with hi | ⟨hlo, hhi⟩
      · exact .inl ⟨_, List.mem_cons_self, hi⟩
      · exact .inr ⟨hlo, hhi.trans_le hle'⟩
    · rcases ih hx with ⟨i, hi, hiv⟩ | ⟨hlo, hhi⟩
      · exact .inl ⟨i, List.mem_cons_of_mem _ hi, hiv⟩
      · exact .inr ⟨hle.trans hlo, hhi⟩

/-- A register that is taken, and of which none of the instructions says `P`, stays so. -/
theorem Rewritten.avoids (hr : FreshRewriting rewrite) {P : Inst τ → VReg → Prop}
    (hP : ∀ {vs i seg vs'}, (rewrite i).run vs = (seg, vs') → ∀ x ∈ seg, ∀ v, P x v →
      P i v ∨ (vs.size ≤ v ∧ v < vs'.size))
    (h : Rewritten rewrite vs is out vs') {v : VReg} (hv : v < vs.size)
    (hno : ∀ y ∈ is, ¬ P y v) : ∀ x ∈ out, ¬ P x v := by
  intro x hx hxv
  rcases h.occurs hr hP hx hxv with ⟨y, hy, hyv⟩ | ⟨hlo, -⟩
  · exact hno y hy hyv
  · exact absurd hv (Nat.not_lt.mpr hlo)

theorem Rewritten.mentions (hr : FreshRewriting rewrite) (h : Rewritten rewrite vs is out vs')
    {x : Inst τ} (hx : x ∈ out) {v : VReg} (hv : x.Mentions v) :
    (∃ i ∈ is, i.Mentions v) ∨ (vs.size ≤ v ∧ v < vs'.size) :=
  h.occurs hr hr.mentions hx hv

theorem append_cons_eq_append {α : Type} {p q a b : List α} {x : α}
    (h : p ++ x :: q = a ++ b) :
    (∃ q', a = p ++ x :: q' ∧ q = q' ++ b) ∨ ∃ p', p = a ++ p' ∧ b = p' ++ x :: q := by
  rcases List.append_eq_append_iff.mp h with ⟨c, hc, hb⟩ | ⟨c, hc, hb⟩
  · rcases List.cons_eq_append_iff.mp hb with ⟨rfl, hq⟩ | ⟨q', rfl, hq⟩
    · exact .inr ⟨[], by simpa using hc.symm, hq⟩
    · exact .inl ⟨q', hc, hq⟩
  · exact .inr ⟨c, hc, hb⟩

theorem append_cons_inj_of_forall {α : Type} {p : α → Prop} {a b a' b' : List α} {x y : α}
    (ha : ∀ z ∈ a', p z) (hb : ∀ z ∈ b', p z) (hx : ¬ p x)
    (h : a ++ x :: b = a' ++ y :: b') : a = a' ∧ x = y ∧ b = b' := by
  rcases append_cons_eq_append h with ⟨q, rfl, -⟩ | ⟨q, rfl, hq⟩
  · exact absurd (ha x (by simp)) hx
  · rcases q with _ | ⟨z, q⟩
    · obtain ⟨rfl, rfl⟩ := List.cons.inj hq
      simp
    · obtain ⟨rfl, rfl⟩ := List.cons.inj hq
      exact absurd (hb x (by simp)) hx

theorem exists_append_cons_of_getElem? {α : Type} {l : List α} {k : Nat} {x : α}
    (h : l[k]? = some x) : ∃ a b, l = a ++ x :: b ∧ a.length = k := by
  obtain ⟨hk, rfl⟩ := List.getElem?_eq_some_iff.mp h
  exact ⟨l.take k, l.drop (k + 1), by simp, by simp [Nat.le_of_lt hk]⟩

theorem Rewritten.locate (h : Rewritten rewrite vs is out vs') {pre post : List (Inst τ)}
    {x : Inst τ} (hx : out = pre ++ x :: post) :
    ∃ isA i isB outA outB segA segB vs₁ vs₂, is = isA ++ i :: isB ∧
      Rewritten rewrite vs isA outA vs₁ ∧ (rewrite i).run vs₁ = (segA ++ x :: segB, vs₂) ∧
      Rewritten rewrite vs₂ isB outB vs' ∧ pre = outA ++ segA ∧ post = segB ++ outB := by
  induction h generalizing pre with
  | nil => simp at hx
  | @cons vs vs₁ vs₂ i seg is out hseg hrest ih =>
    rcases append_cons_eq_append hx.symm with ⟨q', rfl, rfl⟩ | ⟨p', rfl, hout⟩
    · exact ⟨[], i, is, [], out, pre, q', vs, vs₁, rfl, .nil, hseg, hrest, rfl, rfl⟩
    · obtain ⟨isA, j, isB, outA, outB, segA, segB, ws₁, ws₂, rfl, hA, hj, hB, rfl, rfl⟩ := ih hout
      exact ⟨i :: isA, j, isB, seg ++ outA, outB, segA, segB, ws₁, ws₂, rfl, .cons hseg hA, hj, hB,
        by simp, rfl⟩

theorem Rewritten.split {isA isB : List (Inst τ)} (h : Rewritten rewrite vs (isA ++ isB) out vs') :
    ∃ outA outB vs₁, out = outA ++ outB ∧ Rewritten rewrite vs isA outA vs₁ ∧
      Rewritten rewrite vs₁ isB outB vs' := by
  induction isA generalizing vs out with
  | nil => exact ⟨[], out, vs, rfl, .nil, h⟩
  | cons i isA ih =>
    rw [List.cons_append] at h
    cases h with
    | @cons _ vs₁ _ _ seg _ out hseg hrest =>
      obtain ⟨outA, outB, ws, rfl, hA, hB⟩ := ih hrest
      exact ⟨seg ++ outA, outB, ws, by simp, .cons hseg hA, hB⟩

namespace MachFunction

/-- The registers that instructions mention are in the table. -/
def InRange (f : MachFunction τ) : Prop := ∀ i ∈ f.insts, ∀ o ∈ i.operands, o.vreg < f.vregs.size

instance (f : MachFunction τ) : Decidable f.InRange :=
  inferInstanceAs (Decidable (∀ i ∈ f.insts, ∀ o ∈ i.operands, o.vreg < f.vregs.size))

theorem InRange.lt {f : MachFunction τ} (hf : f.InRange) {b : Nat} {i : Inst τ}
    (hi : i ∈ (f.block b).insts) {v : VReg} (hv : i.Mentions v) : v < f.vregs.size := by
  obtain ⟨o, ho, rfl⟩ := hv
  exact hf i (mem_insts hi) o ho

/-- `g` is what rewriting makes of `f`, the registers `taken b` being taken before block `b`. -/
structure RewrittenTo (f : MachFunction τ) (rewrite : Inst τ → FreshM (List (Inst τ)))
    (g : MachFunction τ) (taken : Nat → Array VRegInfo) : Prop where
  first : taken 0 = f.vregs
  last : ∀ b, f.blocks.size ≤ b → taken b = g.vregs
  block : ∀ b, Rewritten rewrite (taken b) (f.block b).insts (g.block b).insts (taken (b + 1))
  frame : ∀ b, g.block b = { f.block b with insts := (g.block b).insts }

theorem exists_rewrittenTo (f : MachFunction τ) (rewrite : Inst τ → FreshM (List (Inst τ))) :
    ∃ taken, f.RewrittenTo rewrite (f.rewriteInsts rewrite) taken := by
  let rewriteBlock (b : MachBlock τ) : FreshM (MachBlock τ) := do
    return { b with insts := (← b.insts.mapM rewrite).flatten }
  have h (bs : List (MachBlock τ)) (vs : Array VRegInfo) :
      ∃ taken : Nat → Array VRegInfo, taken 0 = vs ∧
        (∀ b, bs.length ≤ b → taken b = ((bs.mapM rewriteBlock).run vs).2) ∧
        ∀ b, Rewritten rewrite (taken b) (bs.getD b default).insts
            (((bs.mapM rewriteBlock).run vs).1.getD b default).insts (taken (b + 1)) ∧
          ((bs.mapM rewriteBlock).run vs).1.getD b default = { bs.getD b default with
            insts := (((bs.mapM rewriteBlock).run vs).1.getD b default).insts } := by
    induction bs generalizing vs with
    | nil => exact ⟨fun _ => vs, rfl, fun _ _ => rfl, fun _ => ⟨.nil, rfl⟩⟩
    | cons b bs ih =>
      obtain ⟨taken, hzero, hlast, hblock⟩ := ih ((b.insts.mapM rewrite).run vs).2
      rw [List.mapM_cons]
      refine ⟨fun n => Nat.casesOn n vs taken, rfl, ?_, ?_⟩
      · rintro (_ | n) hn
        · simp at hn
        · exact hlast n (Nat.le_of_succ_le_succ hn)
      · rintro (_ | n)
        · refine ⟨?_, rfl⟩
          change Rewritten rewrite vs b.insts _ (taken 0)
          rw [hzero]
          exact rewritten_mapM rewrite b.insts vs
        · exact hblock n
  obtain ⟨taken, hzero, hlast, hblock⟩ := h f.blocks.toList f.vregs
  have hget (g : MachFunction τ) (b : Nat) : g.block b = g.blocks.toList.getD b default := by
    simp [MachFunction.block]
  refine ⟨taken, hzero, fun b hb => hlast b (by simpa using hb), fun b => ?_, fun b => ?_⟩
  · rw [hget f, hget]
    exact (hblock b).1
  · rw [hget f, hget]
    exact (hblock b).2

variable {f g : MachFunction τ} {taken : Nat → Array VRegInfo}

theorem RewrittenTo.extends (R : f.RewrittenTo rewrite g taken) (hr : FreshRewriting rewrite)
    {b c : Nat} (h : b ≤ c) : Extends (taken b) (taken c) := by
  induction c, h using Nat.le_induction with
  | base => exact .refl _
  | succ c _ ih => exact ih.trans ((R.block c).grows hr)

theorem RewrittenTo.extends_taken (R : f.RewrittenTo rewrite g taken) (hr : FreshRewriting rewrite)
    (b : Nat) : Extends f.vregs (taken b) :=
  R.first ▸ R.extends hr b.zero_le

theorem RewrittenTo.taken_extends (R : f.RewrittenTo rewrite g taken) (hr : FreshRewriting rewrite)
    (b : Nat) : Extends (taken b) g.vregs :=
  R.last _ (Nat.le_max_right b _) ▸ R.extends hr (Nat.le_max_left b _)

/-- An old register of which no instruction of a block says `P` stays so. -/
theorem RewrittenTo.avoids (R : f.RewrittenTo rewrite g taken) (hr : FreshRewriting rewrite)
    {P : Inst τ → VReg → Prop} (hP : ∀ {vs i seg vs'}, (rewrite i).run vs = (seg, vs') →
      ∀ x ∈ seg, ∀ v, P x v → P i v ∨ (vs.size ≤ v ∧ v < vs'.size))
    {c : Nat} {v : VReg} (hv : v < f.vregs.size) (hno : ∀ y ∈ (f.block c).insts, ¬ P y v) :
    ∀ x ∈ (g.block c).insts, ¬ P x v :=
  (R.block c).avoids hr hP (hv.trans_le (R.extends_taken hr c).size_le) hno

theorem mem_insts_iff {i : Inst τ} : i ∈ f.insts ↔ ∃ b, i ∈ (f.block b).insts := by
  refine ⟨fun h => ?_, fun ⟨b, hb⟩ => mem_insts hb⟩
  obtain ⟨B, hB, hi⟩ := List.mem_flatMap.mp h
  obtain ⟨b, hb, rfl⟩ := List.getElem_of_mem hB
  exact ⟨b, by rwa [block_eq_getElem (by simpa using hb)]⟩

theorem RewrittenTo.inRange (R : f.RewrittenTo rewrite g taken) (hr : FreshRewriting rewrite)
    (hf : f.InRange) : g.InRange := by
  intro x hx o ho
  obtain ⟨b, hb⟩ := mem_insts_iff.mp hx
  rcases (R.block b).mentions hr hb ⟨o, ho, rfl⟩ with ⟨i, hi, hiv⟩ | ⟨-, hhi⟩
  · exact (hf.lt hi hiv).trans_le ((R.extends_taken hr b).trans (R.taken_extends hr b)).size_le
  · exact hhi.trans_le (R.taken_extends hr (b + 1)).size_le

/-- Instruction `i` of block `b` became `seg`. -/
structure Segment (f : MachFunction τ) (rewrite : Inst τ → FreshM (List (Inst τ)))
    (g : MachFunction τ) (taken : Nat → Array VRegInfo) (b : Nat) (isA : List (Inst τ)) (i : Inst τ)
    (isB outA seg outB : List (Inst τ)) (vs₁ vs₂ : Array VRegInfo) : Prop where
  source : (f.block b).insts = isA ++ i :: isB
  result : (g.block b).insts = outA ++ (seg ++ outB)
  before : Rewritten rewrite (taken b) isA outA vs₁
  run : (rewrite i).run vs₁ = (seg, vs₂)
  after : Rewritten rewrite vs₂ isB outB (taken (b + 1))

theorem RewrittenTo.locate (R : f.RewrittenTo rewrite g taken) {b : Nat} {pre post : List (Inst τ)}
    {x : Inst τ} (hx : (g.block b).insts = pre ++ x :: post) :
    ∃ isA i isB outA outB segA segB vs₁ vs₂,
      f.Segment rewrite g taken b isA i isB outA (segA ++ x :: segB) outB vs₁ vs₂ ∧
        pre = outA ++ segA ∧ post = segB ++ outB := by
  obtain ⟨isA, i, isB, outA, outB, segA, segB, vs₁, vs₂, hsrc, hA, hi, hB, rfl, rfl⟩ :=
    (R.block b).locate hx
  exact ⟨isA, i, isB, outA, outB, segA, segB, vs₁, vs₂, ⟨hsrc, by simp [hx], hA, hi, hB⟩, rfl, rfl⟩

theorem RewrittenTo.segment (R : f.RewrittenTo rewrite g taken) {b : Nat} {isA isB : List (Inst τ)}
    {i : Inst τ} (hi : (f.block b).insts = isA ++ i :: isB) :
    ∃ outA seg outB vs₁ vs₂, f.Segment rewrite g taken b isA i isB outA seg outB vs₁ vs₂ := by
  obtain ⟨outA, _, vs₁, hout, hA, hrest⟩ := (hi ▸ R.block b).split
  cases hrest with
  | @cons _ vs₂ _ _ seg _ outB hseg hB =>
    exact ⟨outA, seg, outB, vs₁, vs₂, ⟨hi, hout, hA, hseg, hB⟩⟩

section

variable {b : Nat} {isA isB outA seg outB : List (Inst τ)} {i : Inst τ} {vs₁ vs₂ : Array VRegInfo}

theorem Segment.extends (S : f.Segment rewrite g taken b isA i isB outA seg outB vs₁ vs₂)
    (R : f.RewrittenTo rewrite g taken) (hr : FreshRewriting rewrite) : Extends f.vregs vs₁ :=
  (R.extends_taken hr b).trans (S.before.grows hr)

theorem Segment.fresh (S : f.Segment rewrite g taken b isA i isB outA seg outB vs₁ vs₂)
    (R : f.RewrittenTo rewrite g taken) (hr : FreshRewriting rewrite) (hf : f.InRange) {v : VReg}
    (hlo : vs₁.size ≤ v) (hhi : v < vs₂.size) :
    (∀ x ∈ outA ++ outB, ¬ x.Mentions v) ∧
      ∀ c, c ≠ b → ∀ x ∈ (g.block c).insts, ¬ x.Mentions v := by
  have hold {c : Nat} {y : Inst τ} (hy : y ∈ (f.block c).insts) : ¬ y.Mentions v := fun hv =>
    absurd (hf.lt hy hv) (Nat.not_lt.mpr ((S.extends R hr).size_le.trans hlo))
  have hsrc {y : Inst τ} (hy : y ∈ isA ++ i :: isB) : y ∈ (f.block b).insts := by rwa [S.source]
  refine ⟨fun x hx hv => ?_, fun c hc x hx hv => ?_⟩
  · rcases List.mem_append.mp hx with hx | hx
    · rcases S.before.mentions hr hx hv with ⟨y, hy, hyv⟩ | h
      · exact hold (hsrc (List.mem_append_left _ hy)) hyv
      · exact absurd h.2 (Nat.not_lt.mpr hlo)
    · rcases S.after.mentions hr hx hv with ⟨y, hy, hyv⟩ | h
      · exact hold (hsrc (List.mem_append_right _ (List.mem_cons_of_mem _ hy))) hyv
      · exact absurd hhi (Nat.not_lt.mpr h.1)
  · rcases (R.block c).mentions hr hx hv with ⟨y, hy, hyv⟩ | h
    · exact hold hy hyv
    · have h1 := (S.before.grows hr).size_le
      have h2 := (S.after.grows hr).size_le
      rcases Nat.lt_or_gt_of_ne hc with hlt | hgt
      · have hle := (R.extends hr (Nat.succ_le_of_lt hlt)).size_le
        exact absurd (h.2.trans_le (hle.trans h1)) (Nat.not_lt.mpr hlo)
      · have hle := (R.extends hr (Nat.succ_le_of_lt hgt)).size_le
        exact absurd hhi (Nat.not_lt.mpr (h2.trans (hle.trans h.1)))

theorem Segment.writes (S : f.Segment rewrite g taken b isA i isB outA seg outB vs₁ vs₂)
    (R : f.RewrittenTo rewrite g taken) (hr : FreshRewriting rewrite) {d : VReg}
    (hd : d < f.vregs.size) (h : ∀ x ∈ isA ++ isB, ¬ x.Writes d) :
    ∀ x ∈ outA ++ outB, ¬ x.Writes d := by
  have hlt : d < (taken b).size := hd.trans_le (R.extends_taken hr b).size_le
  have hlt' : d < vs₂.size := hd.trans_le ((S.extends R hr).trans (hr.grows S.run)).size_le
  rw [List.forall_mem_append] at h ⊢
  exact ⟨S.before.avoids hr hr.writes hlt h.1, S.after.avoids hr hr.writes hlt' h.2⟩

end

/-- Register `u` is written by `j`, read by `i` later in the block, and occurs nowhere else. -/
structure Link (f : MachFunction τ) (b : Nat) (pre : List (Inst τ)) (j : Inst τ)
    (mid : List (Inst τ)) (i : Inst τ) (post : List (Inst τ)) (u : VReg) : Prop where
  insts : (f.block b).insts = pre ++ j :: (mid ++ i :: post)
  written : j.Writes u
  notRead : ¬ j.Reads u
  read : i.Reads u
  notWritten : ¬ i.Writes u
  others : ∀ x ∈ pre ++ mid ++ post, ¬ x.Mentions u
  elsewhere : ∀ c, c ≠ b → ∀ x ∈ (f.block c).insts, ¬ x.Mentions u

theorem Segment.link {b : Nat} {isA isB outA a m z outB : List (Inst τ)} {i j k : Inst τ}
    {vs₁ vs₂ : Array VRegInfo} {u : VReg}
    (S : f.Segment rewrite g taken b isA i isB outA (a ++ j :: (m ++ k :: z)) outB vs₁ vs₂)
    (R : f.RewrittenTo rewrite g taken) (hr : FreshRewriting rewrite) (hf : f.InRange)
    (hlo : vs₁.size ≤ u) (hhi : u < vs₂.size) (hw : j.Writes u) (hnr : ¬ j.Reads u)
    (hk : k.Reads u) (hnw : ¬ k.Writes u) (ho : ∀ x ∈ a ++ m ++ z, ¬ x.Mentions u) :
    g.Link b (outA ++ a) j m k (z ++ outB) u := by
  obtain ⟨hout, helse⟩ := S.fresh R hr hf hlo hhi
  refine ⟨by simp [S.result], hw, hnr, hk, hnw, fun x hx => ?_, helse⟩
  simp only [List.mem_append] at hx ho hout
  rcases hx with ((hx | hx) | hx) | hx | hx
  · exact hout x (.inl hx)
  · exact ho x (.inl (.inl hx))
  · exact ho x (.inl (.inr hx))
  · exact ho x (.inr hx)
  · exact hout x (.inr hx)

end MachFunction

end SeaNodes
