import Mathlib.Data.Fintype.EquivFin
import Mathlib.Order.WellFounded
import SeaNodes.Proofs.Graph.Mirrored
import SeaNodes.Proofs.Schedule.MemoryOrder

namespace SeaNodes

/-- No node leads back to itself. -/
def Acyclic (R : NodeId → NodeId → Prop) : Prop := ∀ n, ¬ Relation.TransGen R n n

theorem Acyclic.mono {R R' : NodeId → NodeId → Prop} (h : Acyclic R) (hle : ∀ a b, R' a b → R a b) :
    Acyclic R' := fun n hn => h n (Relation.TransGen.mono hle _ _ hn)

theorem Acyclic.of_rank {R : NodeId → NodeId → Prop} (rank : NodeId → Nat)
    (h : ∀ a b, R a b → rank a < rank b) : Acyclic R := by
  have hpath (a b : NodeId) (hab : Relation.TransGen R a b) : rank a < rank b := by
    induction hab with
    | single hab => exact h _ _ hab
    | tail _ hbc ih => exact ih.trans (h _ _ hbc)
  exact fun n hn => absurd (hpath n n hn) (Nat.lt_irrefl _)

theorem Acyclic.exists_source {R : NodeId → NodeId → Prop} (h : Acyclic R) {l : List NodeId}
    (hne : l ≠ []) : ∃ n ∈ l, ∀ d ∈ l, ¬ R d n := by
  let path (a b : {n // n ∈ l}) : Prop := Relation.TransGen R a.1 b.1
  have : IsTrans {n // n ∈ l} path := ⟨fun _ _ _ => Relation.TransGen.trans⟩
  have : Std.Irrefl path := ⟨fun a => h a.1⟩
  have hwf : WellFounded path := Finite.wellFounded_of_trans_of_irrefl path
  obtain ⟨m, hm⟩ := List.exists_mem_of_ne_nil l hne
  obtain ⟨n, -, hn⟩ := hwf.has_min Set.univ ⟨⟨m, hm⟩, trivial⟩
  exact ⟨n.1, n.2, fun d hd hdn => hn ⟨d, hd⟩ trivial (.single hdn)⟩

namespace Schedule

section

variable {R : NodeId → NodeId → Prop} {l : List NodeId} {m n : NodeId}

def Respects (R : NodeId → NodeId → Prop) (l : List NodeId) : Prop :=
  ∀ pre n post, l = pre ++ n :: post → ∀ d ∈ l, R d n → d ∈ pre

namespace Respects

theorem head (h : Respects R (m :: l)) : ∀ d ∈ m :: l, ¬ R d m := fun d hd hdm =>
  absurd (h [] m l rfl d hd hdm) List.not_mem_nil

theorem tail (h : Respects R (m :: l)) (hm : m ∉ l) : Respects R l := by
  intro pre n post hl d hd hdn
  have hpre := h (m :: pre) n post (congrArg (m :: ·) hl) d (List.mem_cons_of_mem m hd) hdn
  refine (List.mem_cons.mp hpre).resolve_left ?_
  rintro rfl
  exact hm hd

theorem mono (h : Respects R l) {R' : NodeId → NodeId → Prop} (hle : ∀ a b, R' a b → R a b) :
    Respects R' l := fun pre n post hl d hd hdn => h pre n post hl d hd (hle d n hdn)

theorem idxOf_lt (h : Respects R l) {d : NodeId} (hd : d ∈ l) (hn : n ∈ l) (hdn : R d n) :
    l.idxOf d < l.idxOf n := by
  obtain ⟨pre, post, rfl, hpre⟩ := List.eq_append_cons_of_mem hn
  have hmem := h pre n post rfl d hd hdn
  rw [List.idxOf_append_of_mem hmem, List.idxOf_append_of_notMem hpre, List.idxOf_cons_self,
    Nat.add_zero]
  exact List.idxOf_lt_length_iff.mpr hmem

theorem acyclic (h : Respects R l) (hin : ∀ a b, R a b → a ∈ l ∧ b ∈ l) : Acyclic R :=
  .of_rank l.idxOf fun a b hab => h.idxOf_lt (hin a b hab).1 (hin a b hab).2 hab

end Respects

end

section

variable {deps : NodeId → List NodeId} {k : Nat} {rest l : List NodeId} {n : NodeId}

theorem find?_free (hfind : (rest.find? (unmet deps rest · == 0)) = some n) :
    n ∈ rest ∧ (rest.Pairwise (· < ·) → ∀ m ∈ rest, (∀ d ∈ rest, d ∉ deps m) → n ≤ m) := by
  obtain ⟨-, pre, post, hrest, hpre⟩ := List.find?_eq_some_iff_append.mp hfind
  refine ⟨List.mem_of_find?_eq_some hfind, fun hsorted m hm hfree => ?_⟩
  have hm' : m ∈ n :: post := by
    rw [hrest] at hm
    refine (List.mem_append.mp hm).resolve_left fun hmpre => ?_
    have hnot := hpre m hmpre
    rw [unmet_eq_zero.mpr hfree] at hnot
    cases hnot
  rw [hrest] at hsorted
  have hpost := (List.pairwise_cons.mp (List.pairwise_append.mp hsorted).2.1).1
  rcases List.mem_cons.mp hm' with rfl | hm'
  · exact le_rfl
  · exact (hpost m hm').le

theorem exists_find?_free {m : NodeId} (hm : m ∈ rest) (hfree : ∀ d ∈ rest, d ∉ deps m) :
    ∃ n, (rest.find? (unmet deps rest · == 0)) = some n := by
  apply Option.isSome_iff_exists.mp
  exact List.find?_isSome.mpr ⟨m, hm, beq_iff_eq.mpr (unmet_eq_zero.mpr hfree)⟩

def WaitsFor (deps : NodeId → List NodeId) (l : List NodeId) (d n : NodeId) : Prop :=
  d ∈ l ∧ n ∈ l ∧ d ∈ deps n

theorem WaitsFor.of_erase {d m : NodeId} (h : WaitsFor deps (rest.erase m) d n) :
    WaitsFor deps rest d n :=
  ⟨List.mem_of_mem_erase h.1, List.mem_of_mem_erase h.2.1, h.2.2⟩

theorem length_takeFree (hk : rest.length ≤ k) (hacyclic : Acyclic (WaitsFor deps rest)) :
    (takeFree deps k rest).length = rest.length := by
  induction k generalizing rest with
  | zero => rw [List.eq_nil_of_length_eq_zero (Nat.le_zero.mp hk)]; rfl
  | succ k ih =>
    by_cases hne : rest = []
    · rw [hne]
      rfl
    obtain ⟨m, hm, hsource⟩ := hacyclic.exists_source hne
    obtain ⟨n, hfind⟩ := exists_find?_free hm fun d hd hmem => hsource d hd ⟨hd, hm, hmem⟩
    have hlength := List.length_erase_add_one (List.mem_of_find?_eq_some hfind)
    have hrest : Acyclic (WaitsFor deps (rest.erase n)) := hacyclic.mono fun _ _ => WaitsFor.of_erase
    rw [takeFree, hfind]
    dsimp only
    rw [List.length_cons, ih (by omega) hrest, hlength]

theorem takeFree_least (hsorted : rest.Pairwise (· < ·)) (hk : rest.length ≤ k)
    (hperm : l.Perm rest) (hl : Respects (WaitsFor deps rest) l) :
    takeFree deps k rest = l ∨ takeFree deps k rest < l := by
  induction k generalizing rest l with
  | zero =>
    have hrest := List.eq_nil_of_length_eq_zero (Nat.le_zero.mp hk)
    rw [hrest] at hperm
    exact .inl hperm.symm.nil_eq
  | succ k ih =>
    have hnodup : rest.Nodup := hsorted.imp Nat.ne_of_lt
    cases l with
    | nil =>
      rw [← hperm.nil_eq]
      exact .inl rfl
    | cons m l =>
      have hm : m ∈ rest := hperm.mem_iff.mp List.mem_cons_self
      -- the first node of the other order waits for no node, so it could have been taken
      have hfree : ∀ d ∈ rest, d ∉ deps m := fun d hd hmem =>
        hl.head d (hperm.mem_iff.mpr hd) ⟨hd, hm, hmem⟩
      obtain ⟨n, hfind⟩ := exists_find?_free hm hfree
      obtain ⟨hn, hleast⟩ := find?_free hfind
      have hlength := List.length_erase_add_one hn
      rw [takeFree, hfind]
      dsimp only
      rcases (hleast hsorted m hm hfree).lt_or_eq with hlt | rfl
      · exact .inr (.rel hlt)
      · have hnotMem : n ∉ l := (List.nodup_cons.mp (hperm.nodup_iff.mpr hnodup)).1
        have hrest : l.Perm (rest.erase n) := (hperm.trans (List.perm_cons_erase hn)).cons_inv
        have htail : Respects (WaitsFor deps (rest.erase n)) l :=
          (hl.tail hnotMem).mono fun _ _ => WaitsFor.of_erase
        rcases ih (hsorted.sublist (List.erase_sublist ..)) (by omega) hrest htail with heq | hless
        · exact .inl (congrArg _ heq)
        · exact .inr (.cons hless)

theorem respects_takeFree : Respects (WaitsFor deps rest) (takeFree deps k rest) :=
  fun _ _ _ hsplit _ _ hdn => mem_of_takeFree hsplit hdn.2.2 hdn.1

/-- Nodes are left over only if there are circles. -/
theorem length_takeFree_iff (hnodup : rest.Nodup) (hk : rest.length ≤ k) :
    (takeFree deps k rest).length = rest.length ↔ Acyclic (WaitsFor deps rest) := by
  refine ⟨fun h => ?_, length_takeFree hk⟩
  have hmem (a : NodeId) := (takeFree_perm hnodup h).mem_iff (a := a)
  exact respects_takeFree.acyclic fun a b hab => ⟨(hmem a).mpr hab.1, (hmem b).mpr hab.2.1⟩

end

section

variable {g : Graph} {head : NodeId} {terminator : Option NodeId} {nodes : List NodeId}
  {a b : NodeId}

/-- The nodes of a block but its head and its terminator. -/
def inner (head : NodeId) (terminator : Option NodeId) (nodes : List NodeId) : List NodeId :=
  nodes.filter fun n => n != head && some n != terminator

def isPhi (g : Graph) (n : NodeId) : Bool := g.op n == .phi

/-- What is there when the function is entered. -/
def isEntry (g : Graph) (n : NodeId) : Bool :=
  match g.op n with
  | .param _ | .startMem => true
  | _ => false

/-- The nodes of a block that are ordered by their dependencies. -/
def body (g : Graph) (head : NodeId) (terminator : Option NodeId) (nodes : List NodeId) :
    List NodeId :=
  (inner head terminator nodes).filter fun n => !isPhi g n && !isEntry g n

/-- A node of a block depends on its inputs there and, if it writes to memory, on the loads there
that read the memory it takes. -/
def Precedes (g : Graph) (reads : NodeId → NodeId → Prop) (body : List NodeId) (a b : NodeId) :
    Prop :=
  a ∈ body ∧ b ∈ body ∧ (some a ∈ g.inputs b ∨
    g.op a = .load ∧ (g.op b).writesMemory ∧ ∃ mem ∈ g.input b 1, reads a mem)

def Uses (g : Graph) (a mem : NodeId) : Prop := some mem ∈ g.inputs a

/-- Node `a` takes memory from node `mem`. -/
def Reads (g : Graph) (a mem : NodeId) : Prop := g.input a 1 = some mem

instance (g : Graph) : DecidableRel (Uses g) := fun a mem =>
  inferInstanceAs (Decidable (some mem ∈ g.inputs a))

instance (g : Graph) : DecidableRel (Reads g) := fun a mem =>
  inferInstanceAs (Decidable (g.input a 1 = some mem))

instance (g : Graph) (reads : NodeId → NodeId → Prop) [DecidableRel reads] (body : List NodeId) :
    DecidableRel (Precedes g reads body) := fun a b =>
  inferInstanceAs (Decidable (a ∈ body ∧ b ∈ body ∧ (some a ∈ g.inputs b ∨
    g.op a = .load ∧ (g.op b).writesMemory ∧ ∃ mem ∈ g.input b 1, reads a mem)))

theorem mem_dependencies (h : g.Mirror) :
    a ∈ dependencies g b ↔ some a ∈ g.inputs b ∨
      g.op a = .load ∧ (g.op b).writesMemory ∧ ∃ mem ∈ g.input b 1, Uses g a mem := by
  rw [dependencies, List.mem_append, Graph.mem_reduceOption_inputs]
  refine or_congr_right ?_
  by_cases hwrites : (g.op b).writesMemory
  · rw [if_pos hwrites]
    cases g.input b 1 with
    | none => simp
    | some mem =>
      have hne : g.op a = .load → a ≠ b := by
        rintro hload rfl
        rw [hload] at hwrites
        cases hwrites
      have huser : a ∈ (g.usesOf mem).toList ↔ Uses g a mem := by
        rw [Array.mem_toList_iff, h.mem_usesOf_iff, Uses]
      rw [List.mem_filter, huser, Bool.and_eq_true, bne_iff_ne, beq_iff_eq]
      constructor
      · rintro ⟨huses, -, hload⟩
        exact ⟨hload, hwrites, mem, rfl, huses⟩
      · rintro ⟨hload, -, mem', hmem', huses⟩
        obtain rfl := Option.some.inj hmem'
        exact ⟨huses, hne hload, hload⟩
  · simp [hwrites]

theorem waitsFor_iff (h : g.Mirror) {l : List NodeId} :
    WaitsFor (dependencies g) l a b ↔ Precedes g (Uses g) l a b := by
  rw [WaitsFor, Precedes, mem_dependencies h]

theorem orderBlock_eq (g : Graph) (head : NodeId) (terminator : Option NodeId)
    (nodes : List NodeId) : orderBlock g head terminator nodes =
      let body := body g head terminator nodes
      let ordered := orderBody (dependencies g) body
      if ordered.length = body.length then
        .ok (head :: (inner head terminator nodes).filter (isPhi g) ++
          (inner head terminator nodes).filter (isEntry g) ++ ordered ++ terminator.toList)
      else fail head .cyclicBlock := rfl

theorem perm_inner (hnodup : nodes.Nodup) (hhead : head ∈ nodes)
    (hterm : ∀ t ∈ terminator, t ∈ nodes ∧ t ≠ head) :
    (head :: inner head terminator nodes ++ terminator.toList).Perm nodes := by
  have hmem (n : NodeId) :
      n ∈ inner head terminator nodes ↔ n ∈ nodes ∧ n ≠ head ∧ some n ≠ terminator := by
    simp [inner]
  have hlist : (head :: inner head terminator nodes ++ terminator.toList).Nodup := by
    have hhead' : head ∉ inner head terminator nodes ++ terminator.toList := by
      rw [List.mem_append, hmem, Option.mem_toList]
      rintro (⟨-, hne, -⟩ | hhead)
      · exact hne rfl
      · exact (hterm head hhead).2 rfl
    refine List.nodup_cons.mpr ⟨hhead', List.nodup_append.mpr
      ⟨hnodup.filter _, by cases terminator <;> simp, fun a ha t ht => ?_⟩⟩
    rintro rfl
    exact ((hmem a).mp ha).2.2 (Option.mem_toList.mp ht).symm
  refine (List.perm_ext_iff_of_nodup hlist hnodup).mpr fun n => ?_
  rw [List.cons_append, List.mem_cons, List.mem_append, hmem, Option.mem_toList]
  constructor
  · rintro (rfl | ⟨hn, -⟩ | hn)
    · exact hhead
    · exact hn
    · exact (hterm n hn).1
  · intro hn
    by_cases hnhead : n = head
    · exact .inl hnhead
    · by_cases hnterm : some n = terminator
      · exact .inr (.inr hnterm.symm)
      · exact .inr (.inl ⟨hn, hnhead, hnterm⟩)

/-- The order of a block: its head, its phis and then what is there at entry by their numbers, its
body in the least order that respects `R`, and its terminator. -/
structure LeastOrder (g : Graph) (R : NodeId → NodeId → Prop) (head : NodeId)
    (terminator : Option NodeId) (nodes order : List NodeId) : Prop where
  perm : order.Perm nodes
  parts : ∃ phis entries ordered, order = head :: phis ++ entries ++ ordered ++ terminator.toList ∧
    phis = (inner head terminator nodes).filter (isPhi g) ∧ phis.Pairwise (· < ·) ∧
    entries = (inner head terminator nodes).filter (isEntry g) ∧ entries.Pairwise (· < ·) ∧
    ordered.Perm (body g head terminator nodes) ∧ Respects R ordered ∧
    ∀ l, l.Perm (body g head terminator nodes) → Respects R l → ordered = l ∨ ordered < l

/-- The body of a block is put in the least order that respects the dependencies, unless these go in
circles. -/
theorem orderBlock_least (h : g.Mirror) (hsorted : nodes.Pairwise (· < ·)) (hhead : head ∈ nodes)
    (hterm : ∀ t ∈ terminator, t ∈ nodes ∧ t ≠ head) :
    let R := Precedes g (Uses g) (body g head terminator nodes)
    (Acyclic R → ∃ order, orderBlock g head terminator nodes = .ok order ∧
      LeastOrder g R head terminator nodes order) ∧
    (¬ Acyclic R → orderBlock g head terminator nodes = fail head .cyclicBlock) := by
  intro R
  have hR : WaitsFor (dependencies g) (body g head terminator nodes) = R := by
    funext a b
    exact propext (waitsFor_iff h)
  have hbody : (body g head terminator nodes).Pairwise (· < ·) := (hsorted.filter _).filter _
  have hnodup := hbody.imp Nat.ne_of_lt
  have htake := orderBody_eq_takeFree (dependencies g) hbody
  have hiff : (orderBody (dependencies g) (body g head terminator nodes)).length =
      (body g head terminator nodes).length ↔ Acyclic R := by
    rw [htake, length_takeFree_iff hnodup le_rfl, hR]
  refine ⟨fun hacyclic => ?_, fun hcyclic => ?_⟩
  · have hlength := hiff.mpr hacyclic
    have horder := (orderBlock_eq g head terminator nodes).trans (if_pos hlength)
    have hperm := (perm_orderBlock hsorted horder).trans
      (perm_inner (hsorted.imp Nat.ne_of_lt) hhead hterm)
    refine ⟨_, horder, hperm, _, _, _, rfl, rfl, (hsorted.filter _).filter _, rfl,
      (hsorted.filter _).filter _, ?_, ?_, fun l hl hrespects => ?_⟩
    · rw [htake] at hlength ⊢
      exact takeFree_perm hnodup hlength
    · rw [htake, ← hR]
      exact respects_takeFree
    · rw [htake]
      exact takeFree_least hbody le_rfl hl (hR ▸ hrespects)
  · have hlength := mt hiff.mp hcyclic
    exact (orderBlock_eq g head terminator nodes).trans (if_neg hlength)

end

/-- A load of the memory that a store takes, with a higher number than the store. -/
def storeFirst : List Edit := [
  .add .startMem #[some 0] .top,
  .const (.ofInt 0),
  .add (.param 0) #[some 0] (.ptr (.layout 0) .notNull),
  .add .store #[some 0, some 3, some 5, some 4, some 4] .top,
  .add .load #[some 0, some 3, some 5, some 4] .anyInt,
  .add .ret #[some 0, some 6, some 7] .top,
  .pushInput Graph.stop (some 8)]

/-- The load has to come first, and the constant that both use before it. -/
theorem orderBlock_least_storeFirst :
    let g := Edit.run .empty storeFirst
    let R := Precedes g (Uses g) [4, 6, 7]
    g.Mirror ∧ Acyclic R ∧
      orderBlock g 0 (some 8) [0, 3, 4, 5, 6, 7, 8] = .ok [0, 3, 5, 4, 7, 6, 8] ∧
      ∀ l, l.Perm [4, 6, 7] → Respects R l → [4, 7, 6] = l ∨ [4, 7, 6] < l := by
  intro g R
  have hm : g.Mirror := (Edit.mirrored_run Graph.mirrored_empty (by decide +kernel)).mirror
  have hacyclic : Acyclic R := by
    refine .of_rank [4, 7, 6].idxOf fun a b hab => ?_
    have hall : ∀ a ∈ [4, 6, 7], ∀ b ∈ [4, 6, 7], R a b →
        [4, 7, 6].idxOf a < [4, 7, 6].idxOf b := by
      decide +kernel
    exact hall a hab.1 b hab.2.1 hab
  have horder : orderBlock g 0 (some 8) [0, 3, 4, 5, 6, 7, 8] = .ok [0, 3, 5, 4, 7, 6, 8] := by
    decide +kernel
  have hbody : body g 0 (some 8) [0, 3, 4, 5, 6, 7, 8] = [4, 6, 7] := by decide +kernel
  have hphis : (inner 0 (some 8) [0, 3, 4, 5, 6, 7, 8]).filter (isPhi g) = [] := by decide +kernel
  have hentries : (inner 0 (some 8) [0, 3, 4, 5, 6, 7, 8]).filter (isEntry g) = [3, 5] := by
    decide +kernel
  have hsorted : [0, 3, 4, 5, 6, 7, 8].Pairwise (α := NodeId) (· < ·) := by decide
  have hterm : ∀ t ∈ some (8 : NodeId), t ∈ [0, 3, 4, 5, 6, 7, 8] ∧ t ≠ 0 := by
    rintro t ⟨⟩
    decide
  obtain ⟨hleast, -⟩ := orderBlock_least hm hsorted (by decide) hterm
  rw [hbody] at hleast
  obtain ⟨order, hok, -, phis, entries, ordered, hparts, hphis', -, hentries', -, -, -, hleast⟩ :=
    hleast hacyclic
  rw [← Except.ok.inj (horder.symm.trans hok), hphis', hphis, hentries', hentries] at hparts
  have hparts' : [0, 3, 5] ++ ([4, 7, 6] ++ [8]) = [0, 3, 5] ++ (ordered ++ [8]) := hparts
  have hordered : [4, 7, 6] ++ [8] = ordered ++ [8] := List.append_cancel_left hparts'
  rw [hbody, ← List.append_cancel_right hordered] at hleast
  exact ⟨hm, hacyclic, horder, hleast⟩

def pointsAtMemory : List Edit := [
  .add .startMem #[some 0] .top,
  .const (.ofInt 0),
  .add (.param 0) #[some 0] (.ptr (.layout 0) .notNull),
  .add .store #[some 0, some 3, some 5, some 4, some 4] .top,
  .add .load #[some 0, some 6, some 3, some 4] .anyInt,
  .add .ret #[some 0, some 6, some 7] .top,
  .pushInput Graph.stop (some 8)]

/-- A load counts as a read of all memory that it uses, also of memory that it does not take: then
it may have to come both before and after a write. -/
theorem not_orderBlock_iff_acyclic_reads :
    ¬ ∀ (g : Graph) (head : NodeId) (terminator : Option NodeId) (nodes : List NodeId), g.Mirrored →
      nodes.Pairwise (· < ·) → head ∈ nodes → (∀ t ∈ terminator, t ∈ nodes ∧ t ≠ head) →
      ((∃ order, orderBlock g head terminator nodes = .ok order) ↔
        Acyclic (Precedes g (Reads g) (body g head terminator nodes))) := by
  intro h
  obtain ⟨g, hg⟩ : ∃ g, g = Edit.run .empty pointsAtMemory := ⟨_, rfl⟩
  have hm : g.Mirrored := hg ▸ Edit.mirrored_run Graph.mirrored_empty (by decide +kernel)
  have hbody : body g 0 (some 8) [0, 3, 4, 5, 6, 7, 8] = [4, 6, 7] := by
    rw [hg]
    decide +kernel
  have hacyclic : Acyclic (Precedes g (Reads g) [4, 6, 7]) := by
    refine .of_rank id fun a b hab => ?_
    have hall : ∀ a ∈ [4, 6, 7], ∀ b ∈ [4, 6, 7], Precedes g (Reads g) [4, 6, 7] a b → a < b := by
      rw [hg]
      decide +kernel
    exact hall a hab.1 b hab.2.1 hab
  have hfail : orderBlock g 0 (some 8) [0, 3, 4, 5, 6, 7, 8] = fail 0 .cyclicBlock := by
    rw [hg]
    decide +kernel
  have hiff := h g 0 (some 8) [0, 3, 4, 5, 6, 7, 8] hm (by decide) (by decide)
    (by rintro t ⟨⟩; decide)
  rw [hbody] at hiff
  obtain ⟨order, horder⟩ := hiff.mpr hacyclic
  exact nomatch horder.symm.trans hfail

end Schedule

end SeaNodes
