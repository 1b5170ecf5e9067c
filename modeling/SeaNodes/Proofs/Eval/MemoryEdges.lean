import Mathlib.Data.Set.Basic
import SeaNodes.Proofs.Eval.Points

namespace SeaNodes

/-- An object and a slot of it. -/
abbrev Slot := Nat × Nat

abbrev Memory := Slot → Option Value

namespace Machine

/-- The heap as a memory. -/
def content (m : Machine) : Memory := fun σ => (m.heap.getD σ.1 #[])[σ.2]?

/-- The slot that a load reads. -/
def loadSlot (m : Machine) (a : Activation) (n : NodeId) : Except EvalError Slot := do
  let obj ← a.get (a.graph.input n 2)
  let offset ← a.getInt (a.graph.input n 3)
  m.slot n obj offset

end Machine

/-- A state of memory, and the writes to the heap that it does not know of. -/
structure View where
  state : Memory
  missed : Set (NodeId × Slot)

namespace View

variable {v : View} {g : Graph} {m m' : Machine} {w : NodeId} {σ : Slot}

/-- The whole heap. -/
def ofMachine (m : Machine) : View := ⟨m.content, ∅⟩

/-- A state that `w` is no part of. -/
def miss (v : View) (w : NodeId) (slots : Set Slot) : View :=
  { v with missed := v.missed ∪ {x | x.1 = w ∧ x.2 ∈ slots} }

def write (v : View) (σ : Slot) (x : Value) : View where
  state τ := if τ = σ then some x else v.state τ
  missed := {y | y ∈ v.missed ∧ y.2 ≠ σ}

/-- An object of `k` zeros is added. -/
def alloc (v : View) (o k : Nat) : View where
  state τ := if τ.1 = o then if τ.2 < k then some (.int 0) else none else v.state τ
  missed := {y | y ∈ v.missed ∧ y.2.1 ≠ o}

/-- Where the state knows of all writes it is what the heap holds. -/
structure Sound (v : View) (g : Graph) (m : Machine) : Prop where
  agrees : ∀ σ, (∀ w, (w, σ) ∉ v.missed) → v.state σ = m.content σ
  writers : ∀ w σ, (w, σ) ∈ v.missed → (g.op w).writesMemory

theorem sound_ofMachine (g : Graph) (m : Machine) : (ofMachine m).Sound g m :=
  ⟨fun _ _ => rfl, fun _ _ h => absurd h (Set.notMem_empty _)⟩

theorem Sound.of_heap (h : v.Sound g m) (hm : m'.heap = m.heap) : v.Sound g m' := by
  refine ⟨fun σ hσ => ?_, h.writers⟩
  rw [h.agrees σ hσ, Machine.content, Machine.content, hm]

theorem Sound.miss (h : v.Sound g m) {slots : Set Slot}
    (hw : ∀ σ ∈ slots, (g.op w).writesMemory)
    (hkeep : ∀ σ ∉ slots, m'.content σ = m.content σ) : (v.miss w slots).Sound g m' := by
  constructor
  · intro σ hσ
    have hnot : σ ∉ slots := fun hmem => hσ w (.inr ⟨rfl, hmem⟩)
    rw [hkeep σ hnot]
    exact h.agrees σ fun w' hw' => hσ w' (.inl hw')
  · rintro w' σ (hmem | ⟨rfl, hmem⟩)
    · exact h.writers w' σ hmem
    · exact hw σ hmem

theorem Sound.write {x : Value} (h : v.Sound g m)
    (hkeep : ∀ τ, m'.content τ = if τ = σ then some x else m.content τ) :
    (v.write σ x).Sound g m' := by
  refine ⟨fun τ hτ => ?_, fun w τ hw => h.writers w τ hw.1⟩
  rw [hkeep τ]
  show (if τ = σ then some x else v.state τ) = _
  split_ifs with heq
  · rfl
  · exact h.agrees τ fun w hw => hτ w ⟨hw, heq⟩

theorem Sound.alloc {o k : Nat} (h : v.Sound g m)
    (hkeep : ∀ τ : Slot, m'.content τ =
      if τ.1 = o then if τ.2 < k then some (.int 0) else none else m.content τ) :
    (v.alloc o k).Sound g m' := by
  refine ⟨fun τ hτ => ?_, fun w τ hw => h.writers w τ hw.1⟩
  rw [hkeep τ]
  show (if τ.1 = o then if τ.2 < k then some (.int 0) else none else v.state τ) = _
  split_ifs with heq
  · rfl
  · rfl
  · exact h.agrees τ fun w hw => hτ w ⟨hw, heq⟩

end View

/-- What memory edges stand for in the course of a run. -/
structure Account where
  /-- The state at the start of the call. -/
  entry : View
  /-- The state of each node that was evaluated. -/
  view : NodeId → Option View

namespace Account

/-- A call that starts. -/
def ofMachine (m : Machine) : Account := ⟨.ofMachine m, fun _ => none⟩

/-- The state that an edge stands for. -/
def ofEdge (acc : Account) (e : Edge) : Option View := e.bind acc.view

end Account

namespace Point

/-- The slots that the node may write. -/
def writes (p : Point) (n : NodeId) : Set Slot :=
  match p.act.graph.op n with
  | .store => {σ | ∃ v, p.machine.storeTarget p.act n = .ok (σ.1, σ.2, v)}
  | .alloc => {σ | σ.1 = p.machine.heap.size}
  | .call => Set.univ
  | _ => ∅

theorem writesMemory (p : Point) {n : NodeId} {σ : Slot} (h : σ ∈ p.writes n) :
    (p.act.graph.op n).writesMemory := by
  unfold writes at h
  split at h
  case h_1 hop | h_2 hop | h_3 hop => rw [hop]; rfl
  case h_4 => exact absurd h (Set.notMem_empty σ)

end Point

namespace Account

/-- The state that a node stands for once it is evaluated and has left the machine `m'`. -/
def viewOf (acc : Account) (p : Point) (m' : Machine) (n : NodeId) : Option View :=
  let g := p.act.graph
  match g.op n with
  | .startMem => some acc.entry
  | .store =>
    match p.machine.storeTarget p.act n with
    | .ok (o, i, x) => (acc.ofEdge (g.input n 1)).map (·.write (o, i) x)
    | .error _ => none
  | .alloc =>
    match Machine.allocSlots p.act n with
    | .ok k => (acc.ofEdge (g.input n 1)).map (·.alloc p.machine.heap.size k)
    | .error _ => none
  | .call => some (.ofMachine m')
  | .proj 0 =>
    let src := g.input n 0
    match g.op? src with
    | some .callEnd => acc.ofEdge (g.inputOf src 0)
    | _ => acc.ofEdge src
  | _ => none

/-- A node was evaluated. The states of other nodes are no longer the heap where it wrote. -/
def node (acc : Account) (p : Point) (m' : Machine) (n : NodeId) : Account where
  entry := acc.entry.miss n (p.writes n)
  view x := if x = n then acc.viewOf p m' n else (acc.view x).map (·.miss n (p.writes n))

/-- A block was entered. Its phis stand for what the inputs stood for. -/
def enter (acc : Account) (a : Activation) : Account :=
  match a.prev.bind ((a.routine.schedule.cfg.block a.block).preds.idxOf? ·) with
  | some j =>
    { acc with
      view x := if x ∈ a.phiNodes then acc.ofEdge (a.graph.input x (j + 1)) else acc.view x }
  | none => acc

def next (acc : Account) (p q : Point) : Account :=
  match p.rest with
  | n :: _ => acc.node p q.machine n
  | [] => acc.enter q.act

/-- All states are sound. -/
structure Sound (acc : Account) (g : Graph) (m : Machine) : Prop where
  entry : acc.entry.Sound g m
  view : ∀ n v, acc.view n = some v → v.Sound g m

variable {acc : Account} {g : Graph} {m : Machine} {v : View}

theorem sound_ofMachine (g : Graph) (m : Machine) : (ofMachine m).Sound g m :=
  ⟨View.sound_ofMachine g m, fun _ _ h => nomatch h⟩

theorem Sound.ofEdge (h : acc.Sound g m) {e : Edge} (hv : acc.ofEdge e = some v) : v.Sound g m := by
  obtain ⟨n, rfl, hn⟩ := Option.bind_eq_some_iff.mp hv
  exact h.view n v hn

theorem Sound.enter (h : acc.Sound g m) (a : Activation) : (acc.enter a).Sound g m := by
  unfold Account.enter
  split
  · refine ⟨h.entry, fun n v hv => ?_⟩
    dsimp only at hv
    split_ifs at hv
    · exact h.ofEdge hv
    · exact h.view n v hv
  · exact h

end Account

namespace Machine

theorem lt_of_slot {m : Machine} {n : NodeId} {v : Value} {offset : Int64} {o i : Nat}
    (h : m.slot n v offset = .ok (o, i)) : i < (m.heap.getD o #[]).size := by
  unfold slot at h
  split at h
  · dsimp only at h
    split_ifs at h with hout
    obtain ⟨rfl, rfl⟩ := Prod.mk.inj (Except.ok.inj h)
    rw [not_or, not_or] at hout
    exact Nat.lt_of_not_le hout.2.2
  · exact nomatch h
  · exact nomatch h

theorem lt_of_storeTarget {m : Machine} {a : Activation} {n : NodeId} {o i : Nat} {x : Value}
    (h : m.storeTarget a n = .ok (o, i, x)) : i < (m.heap.getD o #[]).size := by
  obtain ⟨obj, -, h⟩ := Except.bind_eq_ok h
  obtain ⟨offset, -, h⟩ := Except.bind_eq_ok h
  obtain ⟨y, -, h⟩ := Except.bind_eq_ok h
  obtain ⟨⟨o', i'⟩, hslot, h⟩ := Except.bind_eq_ok h
  obtain ⟨rfl, hrest⟩ := Prod.mk.inj (Except.ok.inj h)
  obtain ⟨rfl, -⟩ := Prod.mk.inj hrest
  exact lt_of_slot hslot

theorem content_of_store {m : Machine} {o i : Nat} (hi : i < (m.heap.getD o #[]).size) (x : Value)
    (τ : Slot) :
    ({ m with heap := m.heap.modify o (·.setIfInBounds i x) } : Machine).content τ =
      if τ = (o, i) then some x else m.content τ := by
  obtain ⟨o', i'⟩ := τ
  have ho : o < m.heap.size := by
    by_contra hge
    rw [Array.getD_eq_getD_getElem?, Array.getElem?_eq_none (Nat.le_of_not_lt hge)] at hi
    exact absurd hi (Nat.not_lt_zero i)
  unfold content
  dsimp only
  rw [getD_modify]
  by_cases heq : o = o'
  · subst heq
    rw [if_pos ⟨rfl, ho⟩, Array.getElem?_setIfInBounds]
    by_cases hii : i = i'
    · rw [if_pos hii, if_pos hi, if_pos (by rw [hii])]
    · simp [hii, Ne.symm hii]
  · simp [heq, Ne.symm heq]

theorem content_of_alloc (m : Machine) (k : Nat) (τ : Slot) :
    ({ m with heap := m.heap.push (Array.replicate k (.int 0)) } : Machine).content τ =
      if τ.1 = m.heap.size then if τ.2 < k then some (.int 0) else none else m.content τ := by
  unfold content
  dsimp only
  rw [Array.getD_eq_getD_getElem?, Array.getElem?_push]
  split_ifs with hobj hslot
  · rw [Option.getD_some, Array.getElem?_replicate, if_pos hslot]
  · rw [Option.getD_some, Array.getElem?_replicate, if_neg hslot]
  · rw [Array.getD_eq_getD_getElem?]

end Machine

namespace Account

variable {acc : Account} {m' : Machine} {p : Point} {n : NodeId} {call : Machine.Caller}
  {r : Option Value}

/-- Outside the slots it writes, a node leaves the heap as it is. -/
theorem content_of_not_mem_writes
    (hstep : Machine.stepNode call { p.machine with steps := p.machine.steps + 1 } p.act n =
      (.ok r, m')) {σ : Slot} (hσ : σ ∉ p.writes n) : m'.content σ = p.machine.content σ := by
  unfold Point.writes at hσ
  unfold Machine.stepNode at hstep
  split at hstep
  case h_1 hop =>
    obtain ⟨-, rfl⟩ := Prod.mk.inj hstep
    rfl
  case h_2 hop =>
    rw [hop] at hσ
    split at hstep
    case h_1 o i x htarget =>
      obtain ⟨-, rfl⟩ := Prod.mk.inj hstep
      refine (Machine.content_of_store (Machine.lt_of_storeTarget htarget) x σ).trans (if_neg ?_)
      rintro rfl
      exact hσ ⟨x, htarget⟩
    case h_2 => exact nomatch hstep
  case h_3 hop =>
    rw [hop] at hσ
    split at hstep
    case h_1 k hk =>
      obtain ⟨-, rfl⟩ := Prod.mk.inj hstep
      exact (Machine.content_of_alloc _ k σ).trans (if_neg hσ)
    case h_2 => exact nomatch hstep
  case h_4 hop =>
    rw [hop] at hσ
    exact absurd (Set.mem_univ σ) hσ
  case h_5 =>
    obtain ⟨-, rfl⟩ := Prod.mk.inj hstep
    rfl

theorem Sound.viewOf (h : acc.Sound p.act.graph p.machine)
    (hstep : Machine.stepNode call { p.machine with steps := p.machine.steps + 1 } p.act n =
      (.ok r, m')) {v : View} (hv : acc.viewOf p m' n = some v) :
    v.Sound p.act.graph m' := by
  have hpure (hop : (p.act.graph.op n).hasEffect = false) : m'.heap = p.machine.heap := by
    rw [Machine.stepNode_of_pure hop] at hstep
    rw [← (Prod.mk.inj hstep).2]
  unfold Account.viewOf at hv
  dsimp only at hv
  split at hv
  case h_1 hop =>
    rw [← Option.some.inj hv]
    exact h.entry.of_heap (hpure (by rw [hop]; rfl))
  case h_2 hop =>
    simp only [Machine.stepNode, hop] at hstep
    split at hv
    case h_1 o i x htarget =>
      obtain ⟨v₀, hv₀, rfl⟩ := Option.map_eq_some_iff.mp hv
      rw [show Machine.storeTarget { p.machine with steps := p.machine.steps + 1 } p.act n =
        .ok (o, i, x) from htarget] at hstep
      obtain ⟨-, rfl⟩ := Prod.mk.inj hstep
      exact (h.ofEdge hv₀).write
        (Machine.content_of_store (Machine.lt_of_storeTarget htarget) x)
    case h_2 => cases hv
  case h_3 hop =>
    simp only [Machine.stepNode, hop] at hstep
    split at hv
    case h_1 k hk =>
      obtain ⟨v₀, hv₀, rfl⟩ := Option.map_eq_some_iff.mp hv
      rw [hk] at hstep
      obtain ⟨-, rfl⟩ := Prod.mk.inj hstep
      exact (h.ofEdge hv₀).alloc (Machine.content_of_alloc _ k)
    case h_2 => cases hv
  case h_4 => exact Option.some.inj hv ▸ View.sound_ofMachine _ m'
  case h_5 hop =>
    have hheap := hpure (by rw [hop]; rfl)
    split at hv
    · exact (h.ofEdge hv).of_heap hheap
    · exact (h.ofEdge hv).of_heap hheap
  case h_6 => cases hv

theorem Sound.node (h : acc.Sound p.act.graph p.machine)
    (hstep : Machine.stepNode call { p.machine with steps := p.machine.steps + 1 } p.act n =
      (.ok r, m')) : (acc.node p m' n).Sound p.act.graph m' := by
  have hkeep (σ : Slot) : σ ∉ p.writes n → m'.content σ = p.machine.content σ :=
    content_of_not_mem_writes hstep
  have hwriter : ∀ σ ∈ p.writes n, (p.act.graph.op n).writesMemory := fun σ hσ => p.writesMemory hσ
  refine ⟨h.entry.miss hwriter hkeep, fun x v hv => ?_⟩
  unfold Account.node at hv
  dsimp only at hv
  split_ifs at hv
  · exact h.viewOf hstep hv
  · obtain ⟨v₀, hv₀, rfl⟩ := Option.map_eq_some_iff.mp hv
    exact (h.view x v₀ hv₀).miss hwriter hkeep

end Account

theorem act_of_load {rs : Routines} {k : Nat} {p q : Point} (hnext : p.next rs k = some q)
    {n : NodeId} {rest : List NodeId} (hrest : p.rest = n :: rest)
    (hop : p.act.graph.op n = .load) : ∃ σ, p.machine.loadSlot p.act n = .ok σ ∧
      q.act = p.act.set n (((p.machine.content σ).getD .mem).readAs (p.act.graph.decl n)) := by
  rcases Point.next_cases hnext with ⟨n', rest', r, m', hrest', hstep, rfl⟩ | ⟨-, -, hnil, -⟩
  · obtain ⟨rfl, -⟩ := List.cons.inj (hrest.symm.trans hrest')
    simp only [Machine.stepNode, hop] at hstep
    obtain ⟨hload, -⟩ := Prod.mk.inj hstep
    cases hx : Machine.load { p.machine with steps := p.machine.steps + 1 } p.act n with
    | error e =>
      rw [hx] at hload
      exact nomatch hload
    | ok x =>
      rw [hx] at hload
      obtain rfl := Except.ok.inj hload
      obtain ⟨obj, hobj, h⟩ := Except.bind_eq_ok hx
      obtain ⟨offset, hoffset, h⟩ := Except.bind_eq_ok h
      obtain ⟨⟨o, i⟩, hslot, h⟩ := Except.bind_eq_ok h
      refine ⟨(o, i), ?_, ?_⟩
      · rw [Machine.loadSlot, hobj, hoffset]
        exact hslot
      · rw [← Except.ok.inj h, Machine.content, ← Array.getD_eq_getD_getElem?]
        rfl
  · rw [hrest] at hnil
    exact nomatch hnil

/-- A run from a point, with its account of memory. -/
inductive Traced (rs : Routines) (p₀ : Point) : Point → Account → Prop where
  | start : Traced rs p₀ p₀ (.ofMachine p₀.machine)
  | next {p q : Point} {acc : Account} {k : Nat} (h : Traced rs p₀ p acc)
      (hnext : p.next rs k = some q) : Traced rs p₀ q (acc.next p q)

def Account.after (rs : Routines) : Nat → Point → Account → Option (Point × Account)
  | 0, p, acc => some (p, acc)
  | j + 1, p, acc => (p.next rs 0).bind fun q => after rs j q (acc.next p q)

variable {rs : Routines} {k : Nat} {p₀ p q : Point} {acc : Account}

theorem Traced.after (h : Traced rs p₀ p acc) (j : Nat) {x : Point × Account}
    (hx : Account.after rs j p acc = some x) : Traced rs p₀ x.1 x.2 := by
  induction j generalizing p acc with
  | zero => exact Option.some.inj hx ▸ h
  | succ j ih =>
    obtain ⟨q, hnext, hx⟩ := Option.bind_eq_some_iff.mp hx
    exact ih (h.next hnext) hx

theorem Traced.sound (h : Traced rs p₀ p acc) : acc.Sound p.act.graph p.machine := by
  induction h with
  | start => exact Account.sound_ofMachine _ _
  | @next p q acc k _ hnext ih =>
    have hgraph : q.act.graph = p.act.graph := congrArg Routine.graph (Point.routine_next hnext)
    rw [hgraph]
    rcases Point.next_cases hnext with ⟨n, rest, v, m', hrest, hstep, rfl⟩ | ⟨b, a', hrest, -, -, rfl⟩
    · rw [Account.next, hrest]
      exact ih.node hstep
    · rw [Account.next, hrest]
      exact ih.enter a'

/-- A load that is evaluated finds in its slot what its memory edge stands for, unless a store, an
allocation or a call that this state does not know of wrote to the slot before. -/
theorem load_agrees_or_missed {r : Routine} {args : Array Value} {depth : Nat} {m : Machine}
    (h : Traced rs (.ofCall r args depth m) p acc) (hnext : p.next rs k = some q) {n : NodeId}
    {rest : List NodeId} (hrest : p.rest = n :: rest) (hop : p.act.graph.op n = .load) {v : View}
    (hv : acc.ofEdge (p.act.graph.input n 1) = some v) :
    ∃ σ, p.machine.loadSlot p.act n = .ok σ ∧
      (q.act = p.act.set n (((v.state σ).getD .mem).readAs (p.act.graph.decl n)) ∨
        ∃ w, (w, σ) ∈ v.missed ∧ (p.act.graph.op w).writesMemory) := by
  have hsound := h.sound.ofEdge hv
  obtain ⟨σ, hslot, hq⟩ := act_of_load hnext hrest hop
  refine ⟨σ, hslot, ?_⟩
  by_cases hmissed : ∃ w, (w, σ) ∈ v.missed
  · obtain ⟨w, hw⟩ := hmissed
    exact .inr ⟨w, hw, hsound.writers w σ hw⟩
  · rw [not_exists] at hmissed
    rw [hsound.agrees σ hmissed]
    exact .inl hq

end SeaNodes
