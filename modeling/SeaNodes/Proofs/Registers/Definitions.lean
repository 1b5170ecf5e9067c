import SeaNodes.Proofs.Registers.LegalMeaning

namespace SeaNodes

variable {τ : Type}

def definedIn (is : List (Inst τ)) : List VReg := is.flatMap (·.defs.map (·.vreg))

@[simp] theorem definedIn_nil : definedIn ([] : List (Inst τ)) = [] := rfl

@[simp] theorem definedIn_cons (i : Inst τ) (is : List (Inst τ)) :
    definedIn (i :: is) = i.defs.map (·.vreg) ++ definedIn is := rfl

@[simp] theorem definedIn_append (is js : List (Inst τ)) :
    definedIn (is ++ js) = definedIn is ++ definedIn js := List.flatMap_append

def MachBlock.definitions (b : MachBlock τ) : List VReg := b.phis.map (·.dst) ++ definedIn b.insts

namespace MachFunction

/-- A walk from the first block along edges that are noted at either end, the last block first. -/
inductive Walk (f : MachFunction τ) : List Nat → Prop where
  | entry : Walk f [0]
  | step {p b : Nat} {rest : List Nat} (hp : b ∈ (f.block p).succs ∨ p ∈ (f.block b).preds)
      (hrest : Walk f (p :: rest)) : Walk f (b :: p :: rest)

/-- Every walk to `b` goes through `a`. -/
def Dominates (f : MachFunction τ) (a b : Nat) : Prop :=
  ∀ rest, f.Walk (b :: rest) → a ∈ b :: rest

/-- The definition of register `v` dominates the place in block `b` after the instructions `pre`: it is
a phi of the block, before that place, or in another block that dominates. -/
def KnownAt (f : MachFunction τ) (b : Nat) (pre : List (Inst τ)) (v : VReg) : Prop :=
  v ∈ (f.block b).phis.map (·.dst) ∨ v ∈ definedIn pre ∨
    ∃ a, a ≠ b ∧ f.Dominates a b ∧ v ∈ (f.block a).definitions

/-- The form of static single assignments. -/
structure Ssa (f : MachFunction τ) : Prop where
  /-- Each register is defined exactly once, and nothing else is. -/
  once : f.definitions.Perm (List.range f.vregs.size)
  uses : ∀ b pre i post, (f.block b).insts = pre ++ i :: post → ∀ o ∈ i.uses,
    f.KnownAt b pre o.vreg
  arity : ∀ b, ∀ p ∈ (f.block b).phis, p.args.length = (f.block b).preds.length
  /-- A phi takes its arguments at the ends of the predecessors. -/
  args : ∀ b, ∀ p ∈ (f.block b).phis, ∀ (k q : Nat) (a : VReg), (f.block b).preds[k]? = some q →
    p.args[k]? = some a → f.KnownAt q (f.block q).insts a

end MachFunction

/-- Instructions read registers that satisfy `K` or that were defined by instructions before. -/
def ReadsKnown (K : VReg → Prop) : List (Inst τ) → Prop
  | [] => True
  | i :: is => (∀ o ∈ i.uses, K o.vreg) ∧
    ReadsKnown (fun v => K v ∨ v ∈ i.defs.map (·.vreg)) is

namespace ReadsKnown

variable {K K' : VReg → Prop} {is js pre post : List (Inst τ)} {i : Inst τ}

theorem mono (h : ReadsKnown K is) (hK : ∀ v, K v → K' v) : ReadsKnown K' is := by
  induction is generalizing K K' with
  | nil => trivial
  | cons i is ih =>
    exact ⟨fun o ho => hK _ (h.1 o ho), ih h.2 fun v hv => hv.imp_left (hK v)⟩

theorem append : ReadsKnown K (is ++ js) ↔
    ReadsKnown K is ∧ ReadsKnown (fun v => K v ∨ v ∈ definedIn is) js := by
  induction is generalizing K with
  | nil => simp [ReadsKnown]
  | cons i is ih =>
    rw [List.cons_append, ReadsKnown, ReadsKnown, ih, and_assoc]
    simp only [definedIn_cons, List.mem_append, or_assoc]

theorem snoc (h : ReadsKnown K is) (hi : ∀ o ∈ i.uses, K o.vreg ∨ o.vreg ∈ definedIn is) :
    ReadsKnown K (is ++ [i]) := append.mpr ⟨h, hi, trivial⟩

theorem of_mem (h : ReadsKnown K (pre ++ i :: post)) {o : Operand} (ho : o ∈ i.uses) :
    K o.vreg ∨ o.vreg ∈ definedIn pre :=
  (append.mp h).2.1 o ho

theorem insert (h : ReadsKnown K (pre ++ post)) (hjs : ReadsKnown (fun _ => False) js) :
    ReadsKnown K (pre ++ js ++ post) := by
  obtain ⟨hpre, hpost⟩ := append.mp h
  refine append.mpr ⟨append.mpr ⟨hpre, hjs.mono fun _ => False.elim⟩, hpost.mono fun v hv => ?_⟩
  rw [definedIn_append, List.mem_append]
  exact hv.imp_right .inl

end ReadsKnown

theorem mem_definedIn {is : List (Inst τ)} {v : VReg} :
    v ∈ definedIn is ↔ ∃ i ∈ is, i.Writes v := by
  simp only [definedIn, List.mem_flatMap, List.mem_map, Inst.Writes]

theorem notMem_definedIn_concat {is : List (Inst τ)} {i : Inst τ} {v : VReg} :
    v ∉ definedIn (is ++ [i]) ↔ v ∉ definedIn is ∧ ¬ i.Writes v := by
  rw [definedIn_append, List.mem_append, not_or, definedIn_cons, definedIn_nil, List.append_nil,
    List.mem_map, Inst.Writes]

theorem count_definedIn_append_cons (v : VReg) (pre : List (Inst τ)) (i : Inst τ)
    (post : List (Inst τ)) : (definedIn (pre ++ i :: post)).count v =
      (definedIn pre).count v + ((i.defs.map (·.vreg)).count v + (definedIn post).count v) := by
  rw [definedIn_append, definedIn_cons, List.count_append, List.count_append]

namespace MachFunction

/-- Some way from the start of the code enters block `b` and is through with its phis, and there is
no definition of `v` on it. -/
inductive Bypassed (f : MachFunction τ) (v : VReg) : Nat → Prop
  | start : v ∉ (f.block 0).phis.map (·.dst) → Bypassed f v 0
  | next {b t : Nat} : Bypassed f v b → v ∉ definedIn (f.block b).insts → t ∈ (f.block b).succs →
    v ∉ (f.block t).phis.map (·.dst) → Bypassed f v t

/-- On every way from the start of the code to an instruction that `q` holds of, `v` is defined. -/
def DefinedBefore (f : MachFunction τ) (v : VReg) (q : Inst τ → Prop) : Prop :=
  ∀ b pre i post, (f.block b).insts = pre ++ i :: post → q i → f.Bypassed v b → v ∈ definedIn pre

/-- No two instructions write `v`, nor does one twice. -/
def WrittenOnce (f : MachFunction τ) (v : VReg) : Prop :=
  ∀ b, v ∈ definedIn (f.block b).insts → (definedIn (f.block b).insts).count v = 1 ∧
    ∀ c, c ≠ b → v ∉ definedIn (f.block c).insts

variable {f : MachFunction τ} {v : VReg} {b : Nat}

theorem mem_definedIn_block {pre post : List (Inst τ)} {i : Inst τ}
    (hi : (f.block b).insts = pre ++ i :: post) (hv : i.Writes v) :
    v ∈ definedIn (f.block b).insts :=
  mem_definedIn.mpr ⟨i, by simp [hi], hv⟩

section

variable {c : Nat} {pre post p q : List (Inst τ)} {i x : Inst τ} (h : f.WrittenOnce v)
  (hi : (f.block b).insts = pre ++ i :: post) (hv : i.Writes v)

include h hi hv

theorem WrittenOnce.notMem : v ∉ definedIn pre ∧ v ∉ definedIn post := by
  have hcount := (h b (mem_definedIn_block hi hv)).1
  have hpos : 0 < (i.defs.map (·.vreg)).count v :=
    List.count_pos_iff.mpr (List.mem_map.mpr hv)
  rw [hi, count_definedIn_append_cons] at hcount
  rw [← List.count_eq_zero, ← List.count_eq_zero]
  omega

theorem WrittenOnce.not_writes : ∀ x ∈ pre ++ post, ¬ x.Writes v := by
  intro x hx hw
  obtain ⟨hpre, hpost⟩ := h.notMem hi hv
  rcases List.mem_append.mp hx with hx | hx
  · exact hpre (mem_definedIn.mpr ⟨x, hx, hw⟩)
  · exact hpost (mem_definedIn.mpr ⟨x, hx, hw⟩)

theorem WrittenOnce.not_writes_elsewhere (hc : c ≠ b) : ∀ x ∈ (f.block c).insts, ¬ x.Writes v :=
  fun x hx hw => (h b (mem_definedIn_block hi hv)).2 c hc (mem_definedIn.mpr ⟨x, hx, hw⟩)

theorem WrittenOnce.place (hx : (f.block c).insts = p ++ x :: q) (hxv : x.Writes v) :
    c = b ∧ p = pre ∧ x = i ∧ q = post := by
  have hc : c = b := by
    by_contra hc
    exact (h b (mem_definedIn_block hi hv)).2 c hc (mem_definedIn_block hx hxv)
  subst hc
  obtain ⟨hpre, hpost⟩ := h.notMem hi hv
  rcases append_cons_eq_append (hx.symm.trans hi) with ⟨q', rfl, -⟩ | ⟨p', rfl, hp'⟩
  · exact absurd (mem_definedIn.mpr ⟨x, by simp, hxv⟩) hpre
  rcases List.cons_eq_append_iff.mp hp' with ⟨rfl, hcons⟩ | ⟨p'', rfl, rfl⟩
  · obtain ⟨rfl, rfl⟩ := List.cons.inj hcons
    simp
  · exact absurd (mem_definedIn.mpr ⟨x, by simp, hxv⟩) hpost

/-- When a block is reached, so is the only definition of a register in it, with none before. -/
theorem WrittenOnce.bypassed (hphis : ∀ c, (f.block c).phis = []) (hb : f.Reached b) :
    f.Bypassed v b := by
  have hother := (h b (mem_definedIn_block hi hv)).2
  have hnot (c : Nat) : v ∉ (f.block c).phis.map (·.dst) := by simp [hphis c]
  -- on the way to any block there is no definition yet, or the block was passed
  have hway (c : Nat) (hc : f.Reached c) : f.Bypassed v c ∨ f.Bypassed v b := by
    induction hc with
    | refl => exact .inl (.start (hnot 0))
    | @tail a t _ ht ih =>
      rcases ih with ha | hb
      · by_cases hab : a = b
        · exact .inr (hab ▸ ha)
        · exact .inl (.next ha (hother a hab) ht (hnot t))
      · exact .inr hb
  exact (hway b hb).elim id id

end

theorem WrittenOnce.eq (h : f.WrittenOnce v) {i x : Inst τ} (hi : i ∈ f.insts) (hx : x ∈ f.insts)
    (hv : i.Writes v) (hxv : x.Writes v) : x = i := by
  obtain ⟨b, hb⟩ := mem_insts_iff.mp hi
  obtain ⟨c, hc⟩ := mem_insts_iff.mp hx
  obtain ⟨pre, post, hsplit⟩ := List.append_of_mem hb
  obtain ⟨p, q, hsplit'⟩ := List.append_of_mem hc
  exact (h.place hsplit hv hsplit' hxv).2.2.1

theorem nodup_block (h : f.definitions.Nodup) (b : Nat) : (f.block b).definitions.Nodup := by
  by_cases hb : b < f.blocks.size
  · rw [block_eq_getElem hb]
    exact (List.nodup_flatMap.mp h).1 _ (by simp)
  · rw [block_of_size_le (Nat.le_of_not_lt hb)]
    exact List.nodup_nil

theorem eq_of_mem_definitions (h : f.definitions.Nodup) {c : Nat}
    (hb : v ∈ (f.block b).definitions) (hc : v ∈ (f.block c).definitions) : c = b := by
  have hltb := f.lt_of_mem MachBlock.definitions rfl hb
  have hltc := f.lt_of_mem MachBlock.definitions rfl hc
  rw [block_eq_getElem hltb] at hb
  rw [block_eq_getElem hltc] at hc
  have hpair := List.pairwise_iff_getElem.mp (List.nodup_flatMap.mp h).2
  rcases Nat.lt_trichotomy c b with hcb | rfl | hbc
  · exact absurd hb (hpair c b (by simpa using hltc) (by simpa using hltb) hcb hc)
  · rfl
  · exact absurd hc (hpair b c (by simpa using hltb) (by simpa using hltc) hbc hb)

theorem writtenOnce_of_nodup (hf : f.definitions.Nodup) (v : VReg) : f.WrittenOnce v := by
  intro b hb
  have hsub := List.sublist_append_right ((f.block b).phis.map (·.dst)) (definedIn (f.block b).insts)
  refine ⟨List.count_eq_one_of_mem ((nodup_block hf b).sublist hsub) hb, fun c hc hmem => hc ?_⟩
  exact eq_of_mem_definitions hf (List.mem_append_right _ hb) (List.mem_append_right _ hmem)

theorem Bypassed.exists_walk (h : f.Bypassed v b) : ∃ rest, f.Walk (b :: rest) ∧
    (∀ a ∈ rest, v ∉ (f.block a).definitions) ∧ v ∉ (f.block b).phis.map (·.dst) := by
  induction h with
  | start hphi => exact ⟨[], .entry, by simp, hphi⟩
  | @next b t _ hinsts hsucc hphi ih =>
    obtain ⟨rest, hwalk, hrest, hb⟩ := ih
    refine ⟨b :: rest, .step (.inl hsucc) hwalk, List.forall_mem_cons.mpr ⟨?_, hrest⟩, hphi⟩
    rw [MachBlock.definitions, List.mem_append, not_or]
    exact ⟨hb, hinsts⟩

theorem KnownAt.mem_definedIn {pre : List (Inst τ)} (h : f.KnownAt b pre v)
    (hb : f.Bypassed v b) : v ∈ definedIn pre := by
  obtain ⟨rest, hwalk, hrest, hphi⟩ := hb.exists_walk
  rcases h with hv | hv | ⟨a, hne, hdom, hv⟩
  · exact absurd hv hphi
  · exact hv
  · have ha := (List.mem_cons.mp (hdom rest hwalk)).resolve_left hne
    exact absurd hv (hrest a ha)

theorem Ssa.definedBefore (h : f.Ssa) (v : VReg) : f.DefinedBefore v (·.Reads v) := by
  rintro b pre i post hi ⟨o, ho, rfl⟩ hb
  exact (h.uses b pre i post hi o ho).mem_definedIn hb

theorem Ssa.nodup (h : f.Ssa) : f.definitions.Nodup := h.once.nodup_iff.mpr List.nodup_range

theorem Ssa.not_reads (h : f.Ssa) {i : Inst τ} (hi : i ∈ f.insts) (hw : i.Writes v) :
    ¬ i.Reads v := by
  rintro ⟨o, ho, rfl⟩
  obtain ⟨b, hib⟩ := mem_insts_iff.mp hi
  obtain ⟨pre, post, hsplit⟩ := List.append_of_mem hib
  have hdef : o.vreg ∈ definedIn (i :: post) := mem_definedIn.mpr ⟨i, List.mem_cons_self, hw⟩
  have hblock := nodup_block h.nodup b
  rw [MachBlock.definitions, hsplit, definedIn_append] at hblock
  rcases h.uses b pre i post hsplit o ho with hphi | hpre | ⟨a, hne, -, ha⟩
  · exact List.disjoint_of_nodup_append hblock hphi (List.mem_append_right _ hdef)
  · exact List.disjoint_of_nodup_append (List.nodup_append.mp hblock).2.1 hpre hdef
  · refine hne (eq_of_mem_definitions h.nodup ?_ ha)
    exact List.mem_append_right _ (mem_definedIn_block hsplit hw)

section

variable {rewrite : Inst τ → FreshM (List (Inst τ))} {g : MachFunction τ}
  {taken : Nat → Array VRegInfo}

/-- Rewriting leaves the definitions of `v`, a register that is taken, in place. -/
def KeepsDefs (f : MachFunction τ) (rewrite : Inst τ → FreshM (List (Inst τ))) (v : VReg) : Prop :=
  ∀ i ∈ f.insts, ∀ (vs : Array VRegInfo) (seg : List (Inst τ)) (vs' : Array VRegInfo),
    v < vs.size → (rewrite i).run vs = (seg, vs') →
      (definedIn seg).count v = (i.defs.map (·.vreg)).count v

theorem KeepsDefs.count (hk : f.KeepsDefs rewrite v) (hr : FreshRewriting rewrite)
    {vs vs' : Array VRegInfo} {is out : List (Inst τ)} (his : is ⊆ f.insts) (hv : v < vs.size)
    (h : Rewritten rewrite vs is out vs') : (definedIn out).count v = (definedIn is).count v := by
  induction h with
  | nil => rfl
  | cons hseg _ ih =>
    obtain ⟨hi, his⟩ := List.cons_subset.mp his
    rw [definedIn_append, definedIn_cons, List.count_append, List.count_append,
      hk _ hi _ _ _ hv hseg, ih his (hv.trans_le (hr.grows hseg).size_le)]

theorem KeepsDefs.mem_iff (hk : f.KeepsDefs rewrite v) (hr : FreshRewriting rewrite)
    {vs vs' : Array VRegInfo} {is out : List (Inst τ)} (his : is ⊆ f.insts) (hv : v < vs.size)
    (h : Rewritten rewrite vs is out vs') : v ∈ definedIn out ↔ v ∈ definedIn is := by
  rw [← List.count_pos_iff, hk.count hr his hv h, List.count_pos_iff]

variable (hk : f.KeepsDefs rewrite v) (hr : FreshRewriting rewrite)
  (R : f.RewrittenTo rewrite g taken) (hv : v < f.vregs.size)

include hk hr R hv

theorem KeepsDefs.count_block (b : Nat) : (definedIn (g.block b).insts).count v =
    (definedIn (f.block b).insts).count v :=
  hk.count hr (fun _ hi => mem_insts hi) (hv.trans_le (R.extends_taken hr b).size_le) (R.block b)

theorem KeepsDefs.mem_block (b : Nat) :
    v ∈ definedIn (g.block b).insts ↔ v ∈ definedIn (f.block b).insts :=
  hk.mem_iff hr (fun _ hi => mem_insts hi) (hv.trans_le (R.extends_taken hr b).size_le) (R.block b)

theorem KeepsDefs.writtenOnce (h : f.WrittenOnce v) : g.WrittenOnce v := by
  intro b hb
  rw [hk.mem_block hr R hv] at hb
  rw [hk.count_block hr R hv]
  refine ⟨(h b hb).1, fun c hc => ?_⟩
  rw [hk.mem_block hr R hv]
  exact (h b hb).2 c hc

theorem KeepsDefs.bypassed (h : g.Bypassed v b) : f.Bypassed v b := by
  have hphis (b : Nat) : (g.block b).phis = (f.block b).phis := by rw [R.frame b]
  have hsuccs (b : Nat) : (g.block b).succs = (f.block b).succs := by rw [R.frame b]
  induction h with
  | start hphi => exact .start (hphis 0 ▸ hphi)
  | next _ hinsts hsucc hphi ih =>
    rw [hk.mem_block hr R hv] at hinsts
    exact .next ih hinsts (hsuccs _ ▸ hsucc) (hphis _ ▸ hphi)

/-- What is defined before the instructions of one kind still is, if those come from ones of the same
kind. -/
theorem KeepsDefs.definedBefore {q : Inst τ → Prop}
    (hq : ∀ {vs i seg vs'}, f.vregs.size ≤ vs.size → (rewrite i).run vs = (seg, vs') →
      ∀ x ∈ seg, q x → q i) (h : f.DefinedBefore v q) : g.DefinedBefore v q := by
  intro b pre x post hx hqx hb
  obtain ⟨isA, i, isB, outA, outB, segA, segB, vs₁, vs₂, S, rfl, -⟩ := R.locate hx
  have hsize := (S.extends R hr).size_le
  have hA : v ∈ definedIn isA :=
    h b isA i isB S.source (hq hsize S.run x (by simp) hqx) (hk.bypassed hr R hv hb)
  have hsub : isA ⊆ f.insts := fun y hy => mem_insts (b := b) (by simp [S.source, hy])
  rw [definedIn_append, List.mem_append]
  exact .inl ((hk.mem_iff hr hsub (hv.trans_le (R.extends_taken hr b).size_le) S.before).mpr hA)

end

end MachFunction

section

variable {file : RegFile} {mk : RegClass → VReg → VReg → Inst τ}
  {moves : RegClass → Nat → Operand → Prop} {k : Nat} {vs vs' : Array VRegInfo} {os : List Operand}
  {us : List (List (Inst τ) × Operand)} {v : VReg}

/-- A def is kept, or written by the copy that is made for it, unless it is another register. -/
theorem Isolated.count_defs (h : Isolated mk moves k vs os us vs')
    (hmk : ∀ c k t o, moves c k o →
      ((mk c t o.vreg).defs.map (·.vreg)).count v = [o.vreg].count v) (hv : v < vs.size) :
    (us.map (·.2.vreg)).count v + (definedIn (us.flatMap (·.1))).count v =
      (os.map (·.vreg)).count v := by
  induction h with
  | nil => rfl
  | keep _ _ ih =>
    simp only [List.map_cons, List.flatMap_cons, List.nil_append, List.count_cons, ← ih hv]
    omega
  | @move k vs vs' info o os us hmove _ ih =>
    have hne : (vs.size == v) = false := beq_eq_false_iff_ne.mpr (Nat.ne_of_gt hv)
    have hone := hmk _ _ vs.size o hmove
    rw [List.count_singleton] at hone
    simp only [List.map_cons, List.flatMap_cons, List.singleton_append, definedIn_cons, hone,
      List.count_append, List.count_cons, hne, Bool.false_eq_true, if_false, Nat.add_zero,
      ← ih (hv.trans_le (by simp))]
    omega

theorem Inst.count_isolate {i : Inst τ} {seg : List (Inst τ)} (hv : v < vs.size)
    (h : (i.isolate file).run vs = (seg, vs')) :
    (definedIn seg).count v = (i.defs.map (·.vreg)).count v := by
  rcases hc : i.isCopy with _ | _
  case true =>
    rw [isolate_run_copy file i hc] at h
    rw [← (Prod.mk.inj h).1, definedIn_cons, definedIn_nil, List.append_nil]
  case false =>
    obtain ⟨us, ds, vs₁, hu, hd, rfl⟩ := isolate_run file i hc h
    have hnone : (definedIn (us.flatMap (·.1))).count v = 0 := by
      rw [List.count_eq_zero, mem_definedIn]
      rintro ⟨x, hx, hw⟩
      obtain ⟨c, t, o, -, rfl, hlo, -⟩ := hu.copies hx
      exact absurd (((writes_ofCopy file).mp hw ▸ hlo)) (Nat.not_le.mpr hv)
    rw [count_definedIn_append_cons, hnone, Nat.zero_add, List.map_map]
    exact hd.count_defs (fun _ _ _ _ _ => rfl) (hv.trans_le hu.grows.size_le)

theorem MachFunction.keepsDefs_isolate (f : MachFunction τ) (file : RegFile) (v : VReg) :
    f.KeepsDefs (·.isolate file) v :=
  fun _ _ _ _ _ hv h => Inst.count_isolate hv h

end

theorem definedIn_heads (file : RegFile) (sites : List PhiSite) :
    definedIn (sites.map (·.head file) : List (Inst τ)) = (sites.map (·.phi)).map (·.dst) := by
  induction sites with
  | nil => rfl
  | cons p sites ih =>
    rw [List.map_cons, definedIn_cons, ih]
    rfl

namespace MachFunction

section

variable {file : RegFile} {f h : MachFunction τ} {body closing : Nat → List (Inst τ)}
  {ts : List PhiSite} {v : VReg} {b : Nat} (L : Lowering file f h body closing [] [] ts ts)

include L

theorem Lowering.definedIn_heads (b : Nat) :
    definedIn ((ts.filter (·.block == b)).map (·.head file) : List (Inst τ)) =
      (f.block b).phis.map (·.dst) := by
  rw [SeaNodes.definedIn_heads, L.sites b, if_neg List.not_mem_nil]

theorem Lowering.notMem_tails (hv : v < f.vregs.size) (b : Nat) :
    v ∉ definedIn (ts.flatMap (·.tails file f b) : List (Inst τ)) := by
  rw [mem_definedIn]
  rintro ⟨x, hx, hw⟩
  obtain ⟨p, hp, hx⟩ := List.mem_flatMap.mp hx
  obtain ⟨a, -, rfl⟩ := PhiSite.mem_tails.mp hx
  rw [Inst.writes_ofCopy] at hw
  exact absurd (hw ▸ (L.temps p hp).1) (Nat.not_le.mpr hv)

variable (hin : ∀ c < f.blocks.size, (f.block c).insts = body c ++ closing c)

include hin

theorem Lowering.count_definedIn (hv : v < f.vregs.size) (b : Nat) :
    (definedIn (h.block b).insts).count v = (f.block b).definitions.count v := by
  by_cases hb : b < f.blocks.size
  · have htails := List.count_eq_zero.mpr (L.notMem_tails hv b)
    rw [L.insts b hb, MachBlock.definitions, hin b hb]
    simp only [definedIn_append, List.count_append, L.definedIn_heads, htails]
    omega
  · have hb' := Nat.le_of_not_lt hb
    rw [block_of_size_le hb', block_of_size_le (L.size.trans_le hb')]
    rfl

theorem Lowering.mem_definitions (hv : v < f.vregs.size) (b : Nat) :
    v ∈ definedIn (h.block b).insts ↔ v ∈ (f.block b).definitions := by
  rw [← List.count_pos_iff, L.count_definedIn hin hv, List.count_pos_iff]

theorem Lowering.writtenOnce (hf : f.definitions.Nodup) (hv : v < f.vregs.size) :
    h.WrittenOnce v := by
  intro b hb
  rw [L.mem_definitions hin hv] at hb
  rw [L.count_definedIn hin hv]
  refine ⟨List.count_eq_one_of_mem (nodup_block hf b) hb, fun c hc hmem => hc ?_⟩
  exact eq_of_mem_definitions hf hb ((L.mem_definitions hin hv c).mp hmem)

theorem Lowering.bypassed (hv : v < f.vregs.size) (hb : h.Bypassed v b)
    (hphi : v ∉ (f.block b).phis.map (·.dst)) : f.Bypassed v b := by
  induction hb with
  | start => exact .start hphi
  | @next b t _ hinsts hsucc _ ih =>
    rw [L.mem_definitions hin hv, MachBlock.definitions, List.mem_append, not_or] at hinsts
    exact .next (ih hinsts.1) hinsts.2 (L.succs b ▸ hsucc) hphi

/-- What is defined before the instructions of one kind still is, if the copies at the starts of
blocks are not of that kind, and it is defined before those at the ends that are. -/
theorem Lowering.definedBefore (hv : v < f.vregs.size) {q : Inst τ → Prop}
    (hq : f.DefinedBefore v q) (hheads : ∀ p ∈ ts, ¬ q (p.head file))
    (htails : ∀ c < f.blocks.size, ∀ x ∈ ts.flatMap (·.tails file f c), q x → f.Bypassed v c →
      v ∈ definedIn (body c)) : h.DefinedBefore v q := by
  intro b pre i post hi hqi hb
  have hlt : b < f.blocks.size := L.size ▸ lt_of_mem_insts (i := i) (by simp [hi])
  rw [L.insts b hlt, List.append_assoc, List.append_assoc] at hi
  rcases append_cons_eq_append hi.symm with ⟨r, hr, -⟩ | ⟨pre₁, rfl, hi₁⟩
  · obtain ⟨p, hp, rfl⟩ := List.mem_map.mp (hr ▸ (by simp : i ∈ pre ++ i :: r))
    exact absurd hqi (hheads p (List.mem_filter.mp hp).1)
  rw [definedIn_append, List.mem_append, L.definedIn_heads, or_iff_not_imp_left]
  intro hphi
  have hf := L.bypassed hin hv hb hphi
  rcases append_cons_eq_append hi₁.symm with ⟨r, hr, rfl⟩ | ⟨pre₂, rfl, hi₂⟩
  · exact hq b pre₁ i (r ++ closing b) (by rw [hin b hlt, hr]; simp) hqi hf
  rw [definedIn_append, List.mem_append]
  rcases append_cons_eq_append hi₂.symm with ⟨r, hr, -⟩ | ⟨pre₃, rfl, hi₃⟩
  · exact .inl (htails b hlt i (hr ▸ by simp) hqi hf)
  · have hdef := hq b (body b ++ pre₃) i post (by rw [hin b hlt, hi₃]; simp) hqi hf
    rw [definedIn_append, List.mem_append] at hdef ⊢
    exact hdef.imp_right .inr

end

end MachFunction

end SeaNodes
