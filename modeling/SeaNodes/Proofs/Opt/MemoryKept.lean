import SeaNodes.Proofs.Opt.MemoryRules
import SeaNodes.Schedule.Order

namespace SeaNodes

namespace Graph

variable {g g' h : Graph} {t : Trace} {n m s a : NodeId} {e : Edge} {H : Memory} {v : Value}
  {σ τ : Slot}

/-- What is done with a load behind the memory node `m`. -/
inductive Loaded (g : Graph) (n m : NodeId) : Edge → Graph → Prop where
  | forwarded (hop : g.op m = .store) (hptr : g.input m 2 = g.input n 2)
      (hoff : g.input m 3 = g.input n 3) : Loaded g n m (g.input m 4) g
  | pastStore (hop : g.op m = .store)
      (hdisjoint : g.disjoint (g.input n 2) (g.input n 3) (g.input m 2) (g.input m 3) = true) :
      Loaded g n m (some n) (g.setInput n 1 (g.input m 1))
  | zero {a : NodeId} (hop : g.op m = .proj 0) (ha : g.input m 0 = some a) (halloc : g.op a = .alloc)
      (hptr : g.input n 2 = some a) :
      Loaded g n m (some (g.const (g.decl n).zero).1) (g.const (g.decl n).zero).2
  | pastObject {a b : NodeId} (hop : g.op m = .proj 0) (ha : g.input m 0 = some a)
      (halloc : g.op a = .alloc) (hptr : g.input n 2 = some b) (hb : g.op b = .alloc) (hne : b ≠ a) :
      Loaded g n m (some n) (g.setInput n 1 (g.input a 1))

theorem exists_loaded (hrule : g.ruleLoad n = some (e, h)) :
    ∃ m, g.input n 1 = some m ∧ g.Loaded n m e h := by
  unfold ruleLoad at hrule
  dsimp only at hrule
  cases hm : g.input n 1 with
  | none =>
    rw [hm] at hrule
    exact nomatch hrule
  | some m =>
    refine ⟨m, rfl, ?_⟩
    rw [hm] at hrule
    split at hrule
    case h_1 hop =>
      have hop := Option.some.inj hop
      split_ifs at hrule with hsame hdisjoint
      · obtain ⟨rfl, rfl⟩ := Prod.mk.inj (Option.some.inj hrule)
        exact .forwarded hop hsame.1 hsame.2
      · obtain ⟨rfl, rfl⟩ := Prod.mk.inj (Option.some.inj hrule)
        exact .pastStore hop hdisjoint
    case h_2 hop =>
      have hop := Option.some.inj hop
      split_ifs at hrule with halloc hsrc hptr
      all_goals
        rw [Bool.not_eq_true', Bool.not_eq_false] at halloc
        obtain ⟨a, ha, hopa⟩ := exists_of_isOp (e := g.input m 0) halloc
        obtain ⟨rfl, rfl⟩ := Prod.mk.inj (Option.some.inj hrule)
      · exact .zero hop ha hopa (hsrc.symm.trans ha)
      · obtain ⟨b, hb, hopb⟩ := exists_of_isOp hptr
        have hbehind : g.inputOf (g.inputOf (some m) 0) 1 = g.input a 1 := congrArg (g.inputOf · 1) ha
        rw [hbehind]
        refine .pastObject hop ha hopa hb hopb ?_
        rintro rfl
        exact hsrc (ha.trans hb.symm)
    case h_3 => exact nomatch hrule

theorem ofConst?_zero {d : Ty} (h : ∀ f, d ≠ .fn f) :
    Value.ofConst? d.zero = some ((Value.int 0).readAs d) := by
  cases d with
  | fn f => exact absurd rfl (h f)
  | _ => rfl

theorem readAs_zero_ne_ref (d : Ty) (o : Nat) : (Value.int 0).readAs d ≠ .ref (some o) := by
  intro h
  cases d <;> cases h

theorem readAs_eq_of_stored (hz : t.ReadsZeros g) (hn : n ∈ g.live) (hs : s ∈ g.live)
    (hop : g.op n = .load) (hops : g.op s = .store) (hσ : t.slot n = some σ) (hσ' : t.slot s = some σ)
    (hv : g.valueAt t (g.input s 4) = some v) : v.readAs (g.decl n) = v := by
  by_cases hzero : v = .int 0
  · obtain ⟨hptr, hfloat⟩ := hz.stored n hn s hs hop hops σ hσ hσ' (hzero ▸ hv)
    rw [hzero]
    generalize g.decl n = d at hptr hfloat ⊢
    cases d with
    | ptr => exact nomatch hptr
    | float => exact nomatch hfloat
    | _ => rfl
  · unfold Value.readAs
    split
    · exact absurd rfl hzero
    · exact absurd rfl hzero
    · rfl

section

variable (hm : g.Mirrored) (hnum : g.Numbered) (ht : t.Fits g) (hz : t.ReadsZeros g)
  (hn : n ∈ g.live)

include ht hn

theorem eq_zero_of_fetches (hop : g.op n = .load) (hd : g.input n 1 = some m) (hopm : g.op m = .proj 0)
    (ha : g.input m 0 = some a) (halloc : g.op a = .alloc) (hptr : g.input n 2 = some a)
    (hv : g.Fetches t n v) : v = (Value.int 0).readAs (g.decl n) := by
  obtain ⟨d, H, σ, x, hd', hH, hσ, hx, rfl⟩ := hv
  obtain rfl := Option.some.inj (hd.symm.trans hd')
  obtain ⟨-, H₀, o, k, -, -, ho, rfl⟩ := hH.of_alloc hopm ha halloc
  obtain ⟨p, i, hp, -, hslot⟩ := exists_of_address (ht.accesses n hn (.inl hop) σ hσ)
  rw [hptr, valueAt_of_not_isConst (by rw [halloc]; rfl), ho, Value.eq_ref_of_slot? hslot] at hp
  have hobject : σ.1 = o := (Option.some.inj (Value.ref.inj (Option.some.inj hp))).symm
  rw [Memory.eq_zero_of_grow hx hobject]

include hm

theorem slot_eq_of_inputs (hop : g.op n = .load ∨ g.op n = .store) (hs : g.input n 1 = some s)
    (hops : g.op s = .store) (hptr : g.input s 2 = g.input n 2) (hoff : g.input s 3 = g.input n 3)
    (hσ : t.slot n = some σ) (hτ : t.slot s = some τ) : σ = τ := by
  have haddress := ht.accesses n hn hop σ hσ
  have haddress' := ht.accesses s (hm.live_of_input hs) (.inr hops) τ hτ
  rw [address, hptr, hoff] at haddress'
  exact Option.some.inj (haddress.symm.trans haddress')

include hnum

theorem rewired_store (hop : g.op n = .store) (hrule : g.ruleStore n = some (e, h)) :
    Rewired t g (h.subsume n e) := by
  unfold ruleStore at hrule
  split at hrule
  case h_1 => exact nomatch hrule
  case h_2 s hs =>
    split_ifs at hrule with hcond
    obtain ⟨hops, -, hptr, hoff⟩ := hcond
    obtain ⟨rfl, rfl⟩ := Prod.mk.inj (Option.some.inj hrule)
    rw [subsume, if_pos rfl]
    exact rewired_overwrite hm hnum hn hop hs hops fun σ τ hσ hτ =>
      slot_eq_of_inputs hm ht hn (.inr hop) hs hops hptr hoff hσ hτ

include hz

theorem rewired_load (hop : g.op n = .load) (hrule : g.ruleLoad n = some (e, h)) :
    Rewired t g (h.subsume n e) := by
  obtain ⟨m, hd, hloaded⟩ := exists_loaded hrule
  have hmlive := hm.live_of_input hd
  cases hloaded with
  | forwarded hops hptr hoff =>
    refine rewired_subsume hm hnum ht hn hop (fun d hd => hm.live_of_input hd) fun v hv => ?_
    obtain ⟨d, H, σ, x, hd', hH, hσ, hx, rfl⟩ := hv
    obtain rfl := Option.some.inj (hd.symm.trans hd')
    obtain ⟨d, H₀, τ, y, -, -, hτ, -, hy, rfl⟩ := hH.of_store hops
    obtain rfl := slot_eq_of_inputs hm ht hn (.inl hop) hd hops hptr hoff hσ hτ
    rw [Memory.write_self] at hx
    obtain rfl := Option.some.inj hx
    rw [readAs_eq_of_stored hz hn hmlive hop hops hσ hτ hy]
    exact hy
  | pastStore hops hdisjoint =>
    rw [subsume, if_pos rfl]
    refine rewired_setInput hm hnum hn hop hd (fun d hd => hm.live_of_input hd)
      fun H σ x hH hσ hx => ?_
    obtain ⟨d, H₀, τ, y, hd', hH₀, hτ, -, -, rfl⟩ := hH.of_store hops
    have hne := ne_of_disjoint hm ht (ht.accesses n hn (.inl hop) σ hσ)
      (ht.accesses m hmlive (.inr hops) τ hτ) hdisjoint
    rw [Memory.write_of_ne hne] at hx
    exact ⟨d, H₀, hd', hH₀, hx⟩
  | @zero a hopm ha halloc hptr =>
    have hconst := ofConst?_zero (hz.functions n hn hop)
    have hmade := rewired_const (t := t) hm hnum hconst (readAs_zero_ne_ref (g.decl n))
    obtain ⟨hgrown, hclive, hcop, -⟩ := hnum.const_spec (g.decl n).zero
    have hlt {x : NodeId} (hx : x ∈ g.live) : x < g.size := (mem_live.mp hx).1
    have halive := hm.live_of_input ha
    refine hmade.trans (rewired_subsume hmade.mirrored hmade.numbered (hmade.fits ht)
      ((hgrown.live n (hlt hn)).mpr hn) ((hmade.op_of_live hn).trans hop)
      (fun d hd => Option.some.inj hd ▸ hclive) fun v hv => ?_)
    have hzero := eq_zero_of_fetches (hmade.fits ht) ((hgrown.live n (hlt hn)).mpr hn)
      ((hmade.op_of_live hn).trans hop) ((hgrown.input n (hlt hn) 1).trans hd)
      ((hmade.op_of_live hmlive).trans hopm) ((hgrown.input m (hlt hmlive) 0).trans ha)
      ((hmade.op_of_live halive).trans halloc) ((hgrown.input n (hlt hn) 2).trans hptr) hv
    rw [hzero, hgrown.decl n (hlt hn), valueAt_some, hcop]
    exact Option.or_eq_some_iff.mpr (.inl hconst)
  | @pastObject a b hopm ha halloc hptr hopb hne =>
    rw [subsume, if_pos rfl]
    refine rewired_setInput hm hnum hn hop hd (fun d hd => hm.live_of_input hd)
      fun H σ x hH hσ hx => ?_
    obtain ⟨d, H₀, o, k, hd', hH₀, ho, rfl⟩ := hH.of_alloc hopm ha halloc
    obtain ⟨p, i, hp, -, hslot⟩ := exists_of_address (ht.accesses n hn (.inl hop) σ hσ)
    rw [hptr, valueAt_of_not_isConst (by rw [hopb]; rfl), Value.eq_ref_of_slot? hslot] at hp
    have hobject : σ.1 ≠ o := by
      rintro rfl
      exact hne (ht.objects b (hm.live_of_input hptr) a (hm.live_of_input ha) hopb halloc _ hp ho)
    rw [Memory.grow_of_ne hobject] at hx
    exact ⟨d, H₀, hd', hH₀, hx⟩

end

/-- The graph after a rule was applied to `n` and `n` was replaced by the answer, if a rule applies. -/
def ruled (g : Graph) (n : NodeId) : Option Graph :=
  (g.idealize n).map fun (e, h) => h.subsume n e

/-- A rule is applied to a load or a store. -/
def MemoryStep (g g' : Graph) : Prop :=
  ∃ n ∈ g.live, (g.op n = .load ∨ g.op n = .store) ∧ g.ruled n = some g'

theorem MemoryStep.rewired (hstep : g.MemoryStep g') (hm : g.Mirrored) (hnum : g.Numbered)
    (ht : t.Fits g) (hz : t.ReadsZeros g) : Rewired t g g' := by
  obtain ⟨n, hn, hop, hruled⟩ := hstep
  obtain ⟨⟨e, h⟩, hrule, rfl⟩ := Option.map_eq_some_iff.mp hruled
  unfold idealize applyRule at hrule
  rcases hop with hop | hop
  · rw [hop] at hrule
    exact rewired_load hm hnum ht hz hn hop hrule
  · rw [hop] at hrule
    exact rewired_store hm hnum ht hn hop hrule

theorem rewired_of_steps (hm : g.Mirrored) (hnum : g.Numbered) (ht : t.Fits g) (hz : t.ReadsZeros g)
    (hrun : Relation.ReflTransGen MemoryStep g g') : Rewired t g g' := by
  induction hrun with
  | refl => exact .refl hm hnum
  | tail _ hstep ih =>
    exact ih.trans (hstep.rewired ih.mirrored ih.numbered (ih.fits ht) (ih.readsZeros ht hz))

def ruledAll (g : Graph) : List NodeId → Option Graph
  | [] => some g
  | n :: ns =>
    if n ∈ g.live ∧ (g.op n = .load ∨ g.op n = .store) then (g.ruled n).bind (ruledAll · ns) else none

theorem steps_of_ruledAll {ns : List NodeId} (h : g.ruledAll ns = some g') :
    Relation.ReflTransGen MemoryStep g g' := by
  induction ns generalizing g with
  | nil => exact Option.some.inj h ▸ .refl
  | cons n ns ih =>
    obtain ⟨⟨hn, hop⟩, h⟩ := Option.ite_none_right_eq_some.mp h
    obtain ⟨g₁, hruled, h⟩ := Option.bind_eq_some_iff.mp h
    exact .head ⟨n, hn, hop, hruled⟩ (ih h)

end Graph

/-- However often rules are applied to loads and stores, memory nodes that are left stand for the states
they stood for and loads that are left yield what they yielded. Every node that is left sees the same
values, also of loads that were replaced, and the same states of memory, except along the edge of a load
or a store that may be led on. -/
theorem rewriting_keeps_memory {g g' : Graph} {t : Trace} (hm : g.Mirrored) (hnum : g.Numbered)
    (ht : t.Fits g) (hz : t.ReadsZeros g) (hrun : Relation.ReflTransGen Graph.MemoryStep g g') :
    Graph.KeepsMemory t g g' ∧ t.Fits g' := by
  have hrewired := Graph.rewired_of_steps hm hnum ht hz hrun
  exact ⟨hrewired.toKeepsMemory, hrewired.fits ht⟩

theorem Edit.inOrder_run {es : List Edit} (hlegal : LegalRun .empty es)
    (hsparing : SparingRun .empty es) : (run .empty es).Mirrored ∧ (run .empty es).Numbered :=
  ⟨mirrored_run Graph.mirrored_empty hlegal,
    (exact_run Graph.exact_empty Graph.mirrored_empty hsparing).filed.entry⟩

/-- A new object of two slots. -/
def newObject : List Edit := [
  .add .startMem #[some 0] .top,
  .const (.ofInt 16),
  .const (.ofInt 0),
  .add .alloc #[some 0, some 3, some 4] (.ref 0 false),
  .add (.proj 0) #[some 6] .top]

def traceOfObject (load : NodeId) (v : Value) (slots : List (NodeId × Slot)) : Trace where
  value n := if n = 6 then some (.ref (some 0)) else if n = load then some v else none
  slot n := slots.lookup n
  memory n := if n = 3 then some fun _ => none else none

section

variable {g : Graph} {load : NodeId} {v : Value} {slots : List (NodeId × Slot)}

theorem denotes_newObject (h : g.op 3 = .startMem ∧ g.op 6 = .alloc ∧ g.op 7 = .proj 0 ∧
    g.input 7 0 = some 6 ∧ g.input 6 1 = some 3 ∧ g.input 6 2 = some 4 ∧
    g.op 4 = .const (.ofInt 16)) :
    g.Denotes (traceOfObject load v slots) 7 (Memory.grow (fun _ => none) 0 2) := by
  obtain ⟨hstart, halloc, hproj, hobject, hmem, hsize, hconst⟩ := h
  have hstate : g.Denotes (traceOfObject load v slots) 3 fun _ => none :=
    .source (by unfold Graph.isMemorySource; rw [hstart]) rfl
  refine .alloc hproj hobject halloc hmem hstate rfl (fun _ => rfl) ?_
  rw [hsize, Graph.valueAt_some, hconst]
  rfl

theorem fits_traceOfObject (hfetch : g.Fetches (traceOfObject load v slots) load v)
    (hload : ∀ n ∈ g.live, g.op n = .load → n = load ∧ n ≠ 6)
    (hslots : ∀ n ∈ g.live, g.op n = .load ∨ g.op n = .store →
      slots.lookup n = g.address (traceOfObject load v slots) n)
    (hstores : ∀ n ∈ g.live, g.op n = .store →
      (g.valueAt (traceOfObject load v slots) (g.input n 4)).isSome)
    (halloc : ∀ n ∈ g.live, g.op n = .alloc → n = 6)
    (hty : ∀ n ∈ g.live, (g.ty (some n)).structId? = none) :
    (traceOfObject load v slots).Fits g where
  accesses n hn hop σ hσ := (hslots n hn hop).symm.trans hσ
  stores n hn hop _ := hstores n hn hop
  loads n hn hop w hw := by
    obtain ⟨rfl, hne⟩ := hload n hn hop
    have hv : (traceOfObject n v slots).value n = some v := (if_neg hne).trans (if_pos rfl)
    rw [Option.some.inj (hw.symm.trans hv)]
    exact hfetch
  objects a ha b hb hopa hopb _ _ _ := (halloc a ha hopa).trans (halloc b hb hopb).symm
  layouts a ha _ _ _ _ _ i _ hi _ := by
    rw [hty a ha] at hi
    exact nomatch hi

end

/-- Two stores to the first slot of a new object and a load of the second one. -/
def storesAndLoad : List Edit := newObject ++ [
  .const (.ofInt 8),
  .add .store #[some 0, some 7, some 6, some 5, some 4] .top,
  .add .store #[some 0, some 9, some 6, some 5, some 8] .top,
  .add .load #[some 0, some 10, some 6, some 8] .anyInt,
  .add .ret #[some 0, some 10, some 11] .top,
  .pushInput 1 (some 12)]

/-- The first store is dropped, the load is led past the second one and replaced by zero. -/
theorem rewriting_keeps_memory_storesAndLoad :
    let g := Edit.run .empty storesAndLoad
    let t := traceOfObject 11 (.int 0) [(9, 0, 0), (10, 0, 0), (11, 0, 1)]
    ∃ g', g.ruledAll [10, 11, 11] = some g' ∧ (9 ∉ g'.live ∧ 10 ∈ g'.live ∧ 11 ∉ g'.live) ∧
      g'.Denotes t 10 ((Memory.grow (fun _ => none) 0 2).write (0, 0) (.int 8)) ∧
      g'.valueAt t (g'.input 12 2) = some (.int 0) := by
  intro g t
  obtain ⟨hm, hnum⟩ : g.Mirrored ∧ g.Numbered :=
    Edit.inOrder_run (by decide +kernel) (by decide +kernel)
  have hobject : g.Denotes t 7 (Memory.grow (fun _ => none) 0 2) :=
    denotes_newObject (by decide +kernel)
  have hfirst : g.Denotes t 9 ((Memory.grow (fun _ => none) 0 2).write (0, 0) (.int 16)) :=
    .store (by decide +kernel) (by decide +kernel) hobject rfl rfl (by decide +kernel)
  have hsecond : g.Denotes t 10 ((Memory.grow (fun _ => none) 0 2).write (0, 0) (.int 8)) := by
    rw [← Memory.write_write (x := .int 16)]
    exact .store (by decide +kernel) (by decide +kernel) hfirst rfl rfl (by decide +kernel)
  have hfetch : g.Fetches t 11 (.int 0) :=
    ⟨10, _, (0, 1), .int 0, by decide +kernel, hsecond, rfl, rfl, by decide +kernel⟩
  have ht : t.Fits g := fits_traceOfObject hfetch (by decide +kernel) (by decide +kernel)
    (by decide +kernel) (by decide +kernel) (by decide +kernel)
  have hdecl : ∀ n ∈ g.live, g.op n = .load → g.decl n = .anyInt := by decide +kernel
  have hz : t.ReadsZeros g := by
    refine ⟨fun n hn hop f => ?_, fun n hn _ _ hop _ _ _ _ _ => ?_⟩
    · rw [hdecl n hn hop]
      exact nofun
    · rw [hdecl n hn hop]
      exact ⟨rfl, rfl⟩
  have hcheck : ((g.ruledAll [10, 11, 11]).any fun g' =>
      decide (9 ∉ g'.live ∧ 10 ∈ g'.live ∧ 11 ∉ g'.live ∧ 12 ∈ g'.live)) = true := by
    decide +kernel
  obtain ⟨g', hrun, hleft⟩ := (Option.any_eq_true _ _).mp hcheck
  obtain ⟨hnine, hten, heleven, htwelve⟩ := of_decide_eq_true hleft
  obtain ⟨hkept, -⟩ := rewriting_keeps_memory hm hnum ht hz (Graph.steps_of_ruledAll hrun)
  exact ⟨g', hrun, ⟨hnine, hten, heleven⟩, hkept.states 10 hten (by decide +kernel) _ hsecond,
    hkept.values 12 htwelve (by decide +kernel) 2 (fun h => nomatch h.2) _ (by decide +kernel)⟩

def integerReadAsReference : List Edit := newObject ++ [
  .add .store #[some 0, some 7, some 6, some 5, some 5] .top,
  .add .load #[some 0, some 8, some 6, some 5] (.ref 0 true),
  .add .ret #[some 0, none, some 9] .top,
  .pushInput 1 (some 10)]

def zeroReadAsFunction : List Edit := newObject ++ [
  .add .load #[some 0, some 7, some 6, some 5] (.fn none),
  .add .ret #[some 0, none, some 8] .top,
  .pushInput 1 (some 9)]

def Graph.result (g : Graph) : Option Value :=
  g.schedule.toOption.bind fun s =>
    (({ fuel := 20 } : Machine).call (.ofList [⟨g, s⟩]) 0 #[]).1.toOption

theorem not_keepsMemory {g g' : Graph} {t : Trace} {n : NodeId} {v w : Value} (hn : n ∈ g.live)
    (hn' : n ∈ g'.live) (hv : g.valueAt t (g.input n 2) = some v)
    (hw : g'.valueAt t (g'.input n 2) = some w) (hne : v ≠ w) : ¬ Graph.KeepsMemory t g g' := by
  intro h
  have hsame := h.values n hn' hn 2 (fun h => nomatch h.2) v hv
  exact hne (Option.some.inj (hsame.symm.trans hw))

/-- The integer is forwarded where the load yields null, and null is taken for the zero that a load
yields at the type of a function. -/
theorem forwarded_zero_is_not_what_is_read :
    (let g := Edit.run .empty integerReadAsReference
    let t := traceOfObject 9 (.ref none) [(8, 0, 0), (9, 0, 0)]
    (g.Mirrored ∧ g.Numbered ∧ t.Fits g) ∧ ∃ g', g.MemoryStep g' ∧
      ¬ Graph.KeepsMemory t g g' ∧ g.result = some (.ref none) ∧ g'.result = some (.int 0)) ∧
    (let g := Edit.run .empty zeroReadAsFunction
    let t := traceOfObject 8 (.int 0) [(8, 0, 0)]
    (g.Mirrored ∧ g.Numbered ∧ t.Fits g) ∧ ∃ g', g.MemoryStep g' ∧
      ¬ Graph.KeepsMemory t g g' ∧ g.result = some (.int 0) ∧ g'.result = some (.ref none)) := by
  constructor
  · intro g t
    obtain ⟨hm, hnum⟩ : g.Mirrored ∧ g.Numbered :=
      Edit.inOrder_run (by decide +kernel) (by decide +kernel)
    have hobject : g.Denotes t 7 (Memory.grow (fun _ => none) 0 2) :=
      denotes_newObject (by decide +kernel)
    have hstore : g.Denotes t 8 ((Memory.grow (fun _ => none) 0 2).write (0, 0) (.int 0)) :=
      .store (by decide +kernel) (by decide +kernel) hobject rfl rfl (by decide +kernel)
    have hfetch : g.Fetches t 9 (.ref none) :=
      ⟨8, _, (0, 0), .int 0, by decide +kernel, hstore, rfl, rfl, by decide +kernel⟩
    have ht : t.Fits g := fits_traceOfObject hfetch (by decide +kernel) (by decide +kernel)
      (by decide +kernel) (by decide +kernel) (by decide +kernel)
    have hcheck : ((g.ruled 9).any fun g' => decide (10 ∈ g'.live ∧
        g'.valueAt t (g'.input 10 2) = some (.int 0) ∧ g'.result = some (.int 0))) = true := by
      decide +kernel
    obtain ⟨g', hruled, hleft⟩ := (Option.any_eq_true _ _).mp hcheck
    obtain ⟨hused, hvalue, hresult⟩ := of_decide_eq_true hleft
    exact ⟨⟨hm, hnum, ht⟩, g', ⟨9, by decide +kernel, .inl (by decide +kernel), hruled⟩,
      not_keepsMemory (by decide +kernel) hused (v := .ref none) (by decide +kernel) hvalue nofun,
      by decide +kernel, hresult⟩
  · intro g t
    obtain ⟨hm, hnum⟩ : g.Mirrored ∧ g.Numbered :=
      Edit.inOrder_run (by decide +kernel) (by decide +kernel)
    have hobject : g.Denotes t 7 (Memory.grow (fun _ => none) 0 2) :=
      denotes_newObject (by decide +kernel)
    have hfetch : g.Fetches t 8 (.int 0) :=
      ⟨7, _, (0, 0), .int 0, by decide +kernel, hobject, rfl, rfl, by decide +kernel⟩
    have ht : t.Fits g := fits_traceOfObject hfetch (by decide +kernel) (by decide +kernel)
      (by decide +kernel) (by decide +kernel) (by decide +kernel)
    have hcheck : ((g.ruled 8).any fun g' => decide (9 ∈ g'.live ∧
        g'.valueAt t (g'.input 9 2) = some (.ref none) ∧ g'.result = some (.ref none))) = true := by
      decide +kernel
    obtain ⟨g', hruled, hleft⟩ := (Option.any_eq_true _ _).mp hcheck
    obtain ⟨hused, hvalue, hresult⟩ := of_decide_eq_true hleft
    exact ⟨⟨hm, hnum, ht⟩, g', ⟨8, by decide +kernel, .inl (by decide +kernel), hruled⟩,
      not_keepsMemory (by decide +kernel) hused (v := .int 0) (by decide +kernel) hvalue nofun,
      by decide +kernel, hresult⟩

end SeaNodes
