import SeaNodes.Proofs.Eval.Integers
import SeaNodes.Proofs.Eval.MemoryEdges

namespace SeaNodes

namespace Value

/-- The slot that a reference and a byte offset lead to. -/
def slot? : Value → Value → Option Slot
  | .ref (some o), .int i => if 0 ≤ i ∧ i % 8 = 0 then some (o, (i / 8).toInt.toNat) else none
  | _, _ => none

/-- How many slots an object of so many bytes has. -/
def slots? : Value → Option Nat
  | .int i => if i < 0 then none else some (max ((i.toInt.toNat + 7) / 8) 1)
  | _ => none

variable {p p' i : Value} {a b : Int64} {σ : Slot}

theorem eq_ref_of_slot? (h : p.slot? i = some σ) : p = .ref (some σ.1) := by
  unfold slot? at h
  split at h
  · rw [← Option.some.inj (Option.ite_none_right_eq_some.mp h).2]
  · exact nomatch h

theorem exists_of_slot? (h : p.slot? (.int a) = some σ) :
    0 ≤ a ∧ a % 8 = 0 ∧ σ.2 = (a / 8).toInt.toNat := by
  rw [eq_ref_of_slot? h] at h
  obtain ⟨⟨hpos, hmod⟩, hσ⟩ := Option.ite_none_right_eq_some.mp h
  exact ⟨hpos, hmod, (congrArg Prod.snd (Option.some.inj hσ)).symm⟩

theorem offset_eq_of_slot? (ha : p.slot? (.int a) = some σ) (hb : p'.slot? (.int b) = some σ) :
    a = b := by
  obtain ⟨ha, ha8, hσ⟩ := exists_of_slot? ha
  obtain ⟨hb, hb8, hσ'⟩ := exists_of_slot? hb
  have hdiv (c : Int64) : (c / 8).toInt = c.toInt.tdiv 8 :=
    Int64.toInt_div_of_ne_right c 8 (by decide)
  have hmod {c : Int64} (hc : c % 8 = 0) : c.toInt.tmod 8 = 0 := by
    rw [← Int64.toInt_zero, ← hc]
    exact (Int64.toInt_mod c 8).symm
  have hpos {c : Int64} (hc : 0 ≤ c) : 0 ≤ c.toInt := Int64.le_iff_toInt_le.mp hc
  have heq := hσ.symm.trans hσ'
  have ha8 := hmod ha8
  have hb8 := hmod hb8
  rw [hdiv, hdiv, Int.tdiv_eq_ediv_of_nonneg (hpos ha), Int.tdiv_eq_ediv_of_nonneg (hpos hb)] at heq
  rw [Int.tmod_eq_emod_of_nonneg (hpos ha)] at ha8
  rw [Int.tmod_eq_emod_of_nonneg (hpos hb)] at hb8
  have := hpos ha
  have := hpos hb
  exact Int64.toInt_inj.mp (by omega)

end Value

namespace Memory

def write (H : Memory) (σ : Slot) (x : Value) : Memory := fun τ => if τ = σ then some x else H τ

/-- An object of `k` zeros is added. -/
def grow (H : Memory) (o k : Nat) : Memory := fun τ =>
  if τ.1 = o then if τ.2 < k then some (.int 0) else none else H τ

variable {H : Memory} {σ τ : Slot} {x y : Value} {o k : Nat}

@[simp] theorem write_self : H.write σ x σ = some x := if_pos rfl

theorem write_of_ne (h : τ ≠ σ) : H.write σ x τ = H τ := if_neg h

@[simp] theorem write_write : (H.write σ x).write σ y = H.write σ y := by
  funext τ
  by_cases h : τ = σ
  · rw [h, write_self, write_self]
  · rw [write_of_ne h, write_of_ne h, write_of_ne h]

theorem grow_of_ne (h : τ.1 ≠ o) : H.grow o k τ = H τ := if_neg h

theorem eq_zero_of_grow (h : H.grow o k τ = some x) (hτ : τ.1 = o) : x = .int 0 := by
  rw [grow, if_pos hτ] at h
  exact (Option.some.inj (Option.ite_none_right_eq_some.mp h).2).symm

end Memory

/-- What a run leaves open: the values of nodes, the slots that loads and stores went to, and states of
memory that come from outside. -/
structure Trace where
  value : NodeId → Option Value
  slot : NodeId → Option Slot
  memory : NodeId → Option Memory

namespace Graph

def valueAt (g : Graph) (t : Trace) (e : Edge) : Option Value :=
  e.bind fun n => (g.op n).constant?.or (t.value n)

/-- The slot that the operands of a load or a store lead to. -/
def address (g : Graph) (t : Trace) (n : NodeId) : Option Slot :=
  (g.valueAt t (g.input n 2)).bind fun p => (g.valueAt t (g.input n 3)).bind p.slot?

def isMemorySource (g : Graph) (n : NodeId) : Bool :=
  match g.op n with
  | .startMem | .phi => true
  | .proj 0 => g.op? (g.input n 0) == some .callEnd
  | _ => false

/-- The state of memory that a node stands for. -/
inductive Denotes (g : Graph) (t : Trace) : NodeId → Memory → Prop where
  | source {n : NodeId} {H : Memory} (hop : g.isMemorySource n = true) (hH : t.memory n = some H) :
      Denotes g t n H
  | store {n m : NodeId} {H : Memory} {σ : Slot} {x : Value} (hop : g.op n = .store)
      (hm : g.input n 1 = some m) (hH : Denotes g t m H) (hσ : t.slot n = some σ)
      (hin : (H σ).isSome) (hx : g.valueAt t (g.input n 4) = some x) : Denotes g t n (H.write σ x)
  | alloc {n a m : NodeId} {H : Memory} {o k : Nat} (hop : g.op n = .proj 0)
      (ha : g.input n 0 = some a) (halloc : g.op a = .alloc) (hm : g.input a 1 = some m)
      (hH : Denotes g t m H) (ho : t.value a = some (.ref (some o))) (hnew : ∀ i, H (o, i) = none)
      (hk : (g.valueAt t (g.input a 2)).bind Value.slots? = some k) : Denotes g t n (H.grow o k)

/-- The value of a load by its memory edge. -/
def Fetches (g : Graph) (t : Trace) (n : NodeId) (v : Value) : Prop :=
  ∃ m H σ x, g.input n 1 = some m ∧ g.Denotes t m H ∧ t.slot n = some σ ∧ H σ = some x ∧
    v = x.readAs (g.decl n)

variable {g : Graph} {t : Trace} {n m a : NodeId} {H H' : Memory} {v v' : Value} {e : Edge}

theorem valueAt_some : g.valueAt t (some n) = (g.op n).constant?.or (t.value n) := rfl

theorem valueAt_of_not_isConst (h : (g.op n).isConst = false) :
    g.valueAt t (some n) = t.value n := by
  rw [valueAt_some, Op.constant?_eq_none h, Option.none_or]

theorem exists_of_address {σ : Slot} (h : g.address t n = some σ) :
    ∃ p i, g.valueAt t (g.input n 2) = some p ∧ g.valueAt t (g.input n 3) = some i ∧
      p.slot? i = some σ := by
  obtain ⟨p, hp, h⟩ := Option.bind_eq_some_iff.mp h
  obtain ⟨i, hi, hslot⟩ := Option.bind_eq_some_iff.mp h
  exact ⟨p, i, hp, hi, hslot⟩

namespace Denotes

theorem op_ne_load (h : g.Denotes t n H) : g.op n ≠ .load := by
  cases h with
  | source hop => intro hload; simp [isMemorySource, hload] at hop
  | store hop | alloc hop => rw [hop]; exact nofun

theorem of_store (h : g.Denotes t n H) (hop : g.op n = .store) :
    ∃ m H₀ σ x, g.input n 1 = some m ∧ g.Denotes t m H₀ ∧ t.slot n = some σ ∧ (H₀ σ).isSome ∧
      g.valueAt t (g.input n 4) = some x ∧ H = H₀.write σ x := by
  cases h with
  | source hsource => simp [isMemorySource, hop] at hsource
  | store _ hm hH hσ hin hx => exact ⟨_, _, _, _, hm, hH, hσ, hin, hx, rfl⟩
  | alloc hproj => exact nomatch hop.symm.trans hproj

theorem of_alloc (h : g.Denotes t n H) (hop : g.op n = .proj 0) (ha : g.input n 0 = some a)
    (halloc : g.op a = .alloc) :
    ∃ m H₀ o k, g.input a 1 = some m ∧ g.Denotes t m H₀ ∧ t.value a = some (.ref (some o)) ∧
      H = H₀.grow o k := by
  cases h with
  | source hsource => simp [isMemorySource, hop, ha, op?, halloc] at hsource
  | store hstore => cases hop.symm.trans hstore
  | alloc _ ha' _ hm hH ho =>
    obtain rfl := Option.some.inj (ha.symm.trans ha')
    exact ⟨_, _, _, _, hm, hH, ho, rfl⟩

theorem unique (h : g.Denotes t n H) (h' : g.Denotes t n H') : H = H' := by
  induction h generalizing H' with
  | @source n H hop hH =>
    cases h' with
    | source _ hH' => exact Option.some.inj (hH.symm.trans hH')
    | store hstore => simp [isMemorySource, hstore] at hop
    | alloc hproj ha halloc => simp [isMemorySource, hproj, ha, op?, halloc] at hop
  | store hop hm _ hσ _ hx ih =>
    obtain ⟨m', H₀, σ', x', hm', hH', hσ', -, hx', rfl⟩ := h'.of_store hop
    obtain rfl := Option.some.inj (hm.symm.trans hm')
    rw [ih hH', Option.some.inj (hσ.symm.trans hσ'), Option.some.inj (hx.symm.trans hx')]
  | alloc hop ha halloc hm _ ho _ hk ih =>
    cases h' with
    | source hsource => simp [isMemorySource, hop, ha, op?, halloc] at hsource
    | store hstore => cases hop.symm.trans hstore
    | alloc _ ha' _ hm' hH' ho' _ hk' =>
      obtain rfl := Option.some.inj (ha.symm.trans ha')
      obtain rfl := Option.some.inj (hm.symm.trans hm')
      obtain rfl := Option.some.inj (Value.ref.inj (Option.some.inj (ho.symm.trans ho')))
      rw [ih hH', Option.some.inj (hk.symm.trans hk')]

end Denotes

theorem Fetches.unique (h : g.Fetches t n v) (h' : g.Fetches t n v') : v = v' := by
  obtain ⟨m, H, σ, x, hm, hH, hσ, hx, rfl⟩ := h
  obtain ⟨m', H', σ', x', hm', hH', hσ', hx', rfl⟩ := h'
  obtain rfl := Option.some.inj (hm.symm.trans hm')
  obtain rfl := Option.some.inj (hσ.symm.trans hσ')
  rw [hH.unique hH', hx'] at hx
  rw [Option.some.inj hx]

end Graph

section

variable {m m' : Machine} {a : Activation} {t : Trace} {n d : NodeId} {v : Value} {r : Option Value}
  {call : Machine.Caller}

/-- What was evaluated has its value in the trace, and a load or a store the slot its operands lead to. -/
structure Trace.Records (t : Trace) (a : Activation) (n : NodeId) : Prop where
  value : ∀ e v, a.get e = .ok v → a.graph.valueAt t e = some v
  slot : t.slot n = a.graph.address t n

theorem Machine.slot_spec {offset : Int64} {σ : Slot} (h : m.slot n v offset = .ok σ) :
    v.slot? (.int offset) = some σ ∧ ∃ x, m.content σ = some x := by
  have hlt : σ.2 < (m.heap.getD σ.1 #[]).size := lt_of_slot h
  refine ⟨?_, _, Array.getElem?_eq_getElem hlt⟩
  unfold slot at h
  split at h
  · dsimp only at h
    split_ifs at h with hout
    rw [not_or, not_or] at hout
    refine (if_pos ⟨Int64.not_lt.mp hout.1, not_not.mp hout.2.1⟩).trans ?_
    exact congrArg some (Except.ok.inj h)
  · exact nomatch h
  · exact nomatch h

namespace Trace.Records

variable (ht : t.Records a n)

include ht

theorem slot_eq {p : Value} {offset : Int64} {σ : Slot} (hp : a.get (a.graph.input n 2) = .ok p)
    (ho : a.getInt (a.graph.input n 3) = .ok offset) (hσ : m.slot n p offset = .ok σ) :
    t.slot n = some σ ∧ ∃ x, m.content σ = some x := by
  obtain ⟨hslot, hx⟩ := Machine.slot_spec hσ
  refine ⟨?_, hx⟩
  rw [ht.slot, Graph.address, ht.value _ _ hp, ht.value _ _ (Activation.get_of_getInt ho)]
  exact hslot

variable (hd : a.graph.input n 1 = some d) (hm : a.graph.Denotes t d m.content)

include hd hm

theorem fetches_of_load (hv : m.load a n = .ok v) : a.graph.Fetches t n v := by
  obtain ⟨p, hp, hv⟩ := Except.bind_eq_ok hv
  obtain ⟨offset, ho, hv⟩ := Except.bind_eq_ok hv
  obtain ⟨σ, hσ, hv⟩ := Except.bind_eq_ok hv
  obtain ⟨hslot, x, hx⟩ := ht.slot_eq hp ho hσ
  refine ⟨d, m.content, σ, x, hd, hm, hslot, hx, ?_⟩
  rw [← Except.ok.inj hv, Array.getD_eq_getD_getElem?]
  exact congrArg (fun y => (y.getD .mem).readAs (a.graph.decl n)) hx

theorem denotes_of_store (hop : a.graph.op n = .store)
    (hstep : Machine.stepNode call m a n = (.ok r, m')) : a.graph.Denotes t n m'.content := by
  unfold Machine.stepNode at hstep
  rw [hop] at hstep
  dsimp only at hstep
  cases htarget : m.storeTarget a n with
  | error =>
    rw [htarget] at hstep
    exact nomatch hstep
  | ok target =>
    rw [htarget] at hstep
    obtain ⟨-, rfl⟩ := Prod.mk.inj hstep
    obtain ⟨p, hp, htarget⟩ := Except.bind_eq_ok htarget
    obtain ⟨offset, ho, htarget⟩ := Except.bind_eq_ok htarget
    obtain ⟨x, hx, htarget⟩ := Except.bind_eq_ok htarget
    obtain ⟨σ, hσ, htarget⟩ := Except.bind_eq_ok htarget
    obtain rfl := Except.ok.inj htarget
    obtain ⟨hslot, y, hy⟩ := ht.slot_eq hp ho hσ
    have hcontent := funext (Machine.content_of_store (Machine.lt_of_slot hσ) x)
    rw [hcontent]
    exact .store hop hd hm hslot (Option.isSome_of_eq_some hy) (ht.value _ _ hx)

theorem denotes_of_alloc {q : NodeId} (hop : a.graph.op n = .alloc) (hq : a.graph.op q = .proj 0)
    (hqn : a.graph.input q 0 = some n) (hv : t.value n = some v)
    (hstep : Machine.stepNode call m a n = (.ok (some v), m')) :
    a.graph.Denotes t q m'.content := by
  unfold Machine.stepNode at hstep
  rw [hop] at hstep
  dsimp only at hstep
  cases hslots : Machine.allocSlots a n with
  | error =>
    rw [hslots] at hstep
    cases hstep
  | ok k =>
    rw [hslots] at hstep
    obtain ⟨hresult, rfl⟩ := Prod.mk.inj hstep
    obtain rfl := Option.some.inj (Except.ok.inj hresult)
    obtain ⟨size, hsize, hslots⟩ := Except.bind_eq_ok hslots
    have hcontent := funext (Machine.content_of_alloc m k)
    rw [hcontent]
    refine .alloc hq hqn hop hd hm hv (fun i => ?_) ?_
    · simp [Machine.content, Array.getD_eq_getD_getElem?]
    · rw [ht.value _ _ (Activation.get_of_getInt hsize)]
      show (if size < 0 then none else some (max ((size.toInt.toNat + 7) / 8) 1)) = some k
      by_cases hneg : size < 0
      · rw [if_pos hneg] at hslots
        cases hslots
      · rw [if_neg hneg] at hslots ⊢
        exact congrArg some (Except.ok.inj hslots)

end Trace.Records

end

end SeaNodes
