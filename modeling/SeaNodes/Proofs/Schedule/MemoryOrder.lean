import SeaNodes.Proofs.Eval.MemoryEdges
import SeaNodes.Proofs.Schedule.Lists
import SeaNodes.Scheduled

namespace SeaNodes

theorem Op.isCode_of_writesMemory {op : Op} (h : op.writesMemory) : op.isCode := by
  cases op <;> first | rfl | exact nomatch h

namespace Schedule

variable {g : Graph} {s : Schedule} {r w mem d : NodeId} {b : BlockId} {pre post : List NodeId}

/-- The body of a block follows its dependencies. -/
theorem mem_of_orderBlock {head : NodeId} {terminator : Option NodeId} {nodes order : List NodeId}
    (hsorted : nodes.Pairwise (· < ·)) (h : orderBlock g head terminator nodes = .ok order)
    (hnodup : order.Nodup) (hsplit : order = pre ++ w :: post) (hd : d ∈ dependencies g w)
    (hbody : ∀ n ∈ [d, w], n ∈ nodes ∧ n ≠ head ∧ some n ≠ terminator ∧ g.op n ≠ .phi ∧
      g.op n ≠ .startMem ∧ ∀ i, g.op n ≠ .param i) : d ∈ pre := by
  unfold orderBlock at h
  dsimp only at h
  split at h
  case isFalse => cases h
  case isTrue hlength =>
    obtain rfl := Except.ok.inj h
    generalize hbodyEq : List.filter _ (List.filter _ nodes) = body at hlength hnodup hsplit
    have hbodySorted : body.Pairwise (· < ·) := hbodyEq ▸ (hsorted.filter _).filter _
    have hmem (n : NodeId) (hn : n ∈ [d, w]) : n ∈ body := by
      obtain ⟨hnode, hhead, hterm, hphi, hstart, hparam⟩ := hbody n hn
      rw [← hbodyEq, List.mem_filter, List.mem_filter]
      refine ⟨⟨hnode, by simp [hhead, hterm]⟩, ?_⟩
      rw [Bool.and_eq_true, Bool.not_eq_true', Bool.not_eq_true', beq_eq_false_iff_ne]
      refine ⟨hphi, ?_⟩
      split
      case h_1 i hop => exact absurd hop (hparam i)
      case h_2 hop => exact absurd hop hstart
      case h_3 => rfl
    rw [orderBody_eq_takeFree _ hbodySorted] at hlength hnodup hsplit
    have hperm := takeFree_perm (hbodySorted.imp Nat.ne_of_lt) hlength
    obtain ⟨before, after, hcut⟩ := List.append_of_mem (hperm.mem_iff.mpr (hmem w (by simp)))
    have hfound : d ∈ before := mem_of_takeFree hcut hd (hmem d (by simp))
    rw [hcut] at hsplit hnodup
    -- `w` stands once in the block, so both ways of cutting it there are the same
    generalize head :: _ ++ _ = front at hsplit hnodup
    have hcut' : front ++ (before ++ w :: after) ++ terminator.toList =
        (front ++ before) ++ w :: (after ++ terminator.toList) := by
      simp only [List.append_assoc, List.cons_append]
    rw [hcut'] at hsplit hnodup
    obtain ⟨-, hafter, hdisjoint⟩ := List.nodup_append.mp hnodup
    have hfront : w ∉ front ++ before := fun hw => hdisjoint w hw w List.mem_cons_self rfl
    rw [List.append_cons_inj_of_notMem hfront (List.nodup_cons.mp hafter).1] at hsplit
    rw [← hsplit.1]
    exact List.mem_append_right front hfound

theorem load_before_write (hg : g.WellFormed) (hs : g.schedule = .ok s) (hb : b < s.cfg.size)
    (hload : g.op r = .load) (hlive : r ∈ g.live) (hplaced : s.blockOf.get r = some b)
    (hread : g.input r 1 = some mem) (hwrites : (g.op w).writesMemory)
    (hmem : g.input w 1 = some mem) (hsplit : s.nodes b = pre ++ w :: post) : r ∈ pre := by
  obtain ⟨c, hc, hof⟩ := ofGraph_of_schedule hs
  have hbuilt := hof.built hg hc
  have hlists := hof.lists hg hbuilt
  have hcode := Op.isCode_of_writesMemory hwrites
  obtain ⟨hwlive, hwplaced⟩ := (hlists.mem b hb w hcode).mp (hsplit ▸ by simp)
  have huser : r ∈ g.usesOf mem := hg.mem_usesOf hlive hread
  have hdep : r ∈ dependencies g w := by
    have hne : r ≠ w := by
      rintro rfl
      rw [hload] at hwrites
      exact nomatch hwrites
    simp [dependencies, hwrites, hmem, hne, hload, huser]
  refine mem_of_orderBlock (g.live_sorted.filter _) (hof.order b hb) (hlists.nodup b hb) hsplit hdep fun n hn => ?_
  have hn' : (n ∈ g.live ∧ s.blockOf.get n = some b) ∧ (g.op n).isCode ∧
      (g.op n = .load ∨ (g.op n).writesMemory) := by
    rcases List.mem_cons.mp hn with rfl | hn
    · exact ⟨⟨hlive, hplaced⟩, by rw [hload]; rfl, .inl hload⟩
    · rw [List.mem_singleton.mp hn]
      exact ⟨⟨hwlive, hwplaced⟩, hcode, .inr hwrites⟩
  obtain ⟨⟨hnlive, hnplaced⟩, hncode, hnop⟩ := hn'
  refine ⟨List.mem_filter.mpr ⟨hnlive, by simp [hnplaced]⟩, ?_, fun ht => ?_, ?_⟩
  · rintro rfl
    rw [(isCode_eq_false_of_startsAt hg (hbuilt.chained.starts b hb)).1] at hncode
    exact nomatch hncode
  · rcases (hbuilt.chained.terminator b n ht.symm).2 with h | h <;>
      simp [h, Op.isCode, Op.isCfg] at hncode
  · refine ⟨?_, ?_, fun i => ?_⟩ <;> intro hop <;> simp [hop, Op.writesMemory] at hnop

end Schedule

/-- The loop is never entered, but as long as it is there `x` is not known to be `j`. Then `x ^ 1` is
found to be the `j ^ 1` that is computed at the end, and the load waits for that. -/
def lateLoad : Program where
  structs := [{ name := "T", fields := [("g", .int)] }]
  functions := [
    { name := "f"
      params := [("p", .array .int false), ("t", .ref "T" false), ("j", .int)]
      ret := .int
      body := [
        .declare "x" .int (.var "j"),
        .declare "z" .int (.int 0),
        .loop (.var "z") [.assign "x" (.var "z")],
        .setField (.var "t") "g" (.var "j"),
        .branch (.var "j") [
          .declare "y" .int (.index (.var "p") (.binary .xor (.var "x") (.int 1))),
          .setIndex (.var "p") (.int 2) (.var "j"),
          .ret (.binary .add (.var "y") (.binary .xor (.var "j") (.int 1)))] [],
        .ret (.var "z")] },
    { name := "array"
      params := [("n", .int)]
      ret := .array .int false
      body := [.ret (.newArray .int (.var "n"))] },
    { name := "cell", params := [], ret := .ref "T" false, body := [.ret (.new "T")] }]

/-- The machine after an array of eight zeros and a cell were made. -/
def Routines.prepared (rs : Routines) : Machine :=
  ((({} : Machine).call rs 1 #[.int 8]).2.call rs 2 #[]).2

def lateArgs : Array Value := #[.ref (some 0), .ref (some 1), .int 3]

/-- Node `n` is about to load slot `σ`. -/
structure Point.LoadsFrom (p : Point) (rs : Routines) (n : NodeId) (σ : Slot) : Prop where
  rest : p.rest.head? = some n
  op : p.act.graph.op n = .load
  slot : p.machine.loadSlot p.act n = .ok σ
  moves : (p.next rs 0).isSome

instance (p : Point) (rs : Routines) (n : NodeId) (σ : Slot) : Decidable (p.LoadsFrom rs n σ) :=
  decidable_of_iff (p.rest.head? = some n ∧ p.act.graph.op n = .load ∧
      p.machine.loadSlot p.act n = .ok σ ∧ (p.next rs 0).isSome)
    ⟨fun ⟨h₁, h₂, h₃, h₄⟩ => ⟨h₁, h₂, h₃, h₄⟩, fun h => ⟨h.rest, h.op, h.slot, h.moves⟩⟩

/-- After 18 moves of a call with `j = 3`, node 31 is about to load slot 3 of the array. It holds 3,
where the memory edge says 0. -/
theorem exists_lateLoad : ∃ fs ctx r arity p acc v, lateLoad.schedule {} = .ok (fs, ctx) ∧
    (Scheduled.routines fs).table[0]? = some (r, arity) ∧
    Traced (Scheduled.routines fs) (.ofCall r lateArgs 0 (Scheduled.routines fs).prepared) p acc ∧
    p.LoadsFrom (Scheduled.routines fs) 31 (0, 3) ∧
    acc.ofEdge (p.act.graph.input 31 1) = some v ∧ v.state (0, 3) = some (.int 0) ∧
    p.machine.content (0, 3) = some (.int 3) := by
  have hall : (lateLoad.schedule {}).toOption.any (fun x =>
      let rs := Scheduled.routines x.1
      rs.table[0]?.any fun y =>
        (Account.after rs 18 (.ofCall y.1 lateArgs 0 rs.prepared) (.ofMachine rs.prepared)).any fun z =>
          z.1.LoadsFrom rs 31 (0, 3) ∧ z.1.machine.content (0, 3) = some (.int 3) ∧
          (z.2.ofEdge (z.1.act.graph.input 31 1)).map (·.state (0, 3)) = some (some (.int 0))) =
      true := by
    decide +kernel
  obtain ⟨⟨fs, ctx⟩, hfs, hall⟩ := (Option.any_eq_true _ _).mp hall
  obtain ⟨⟨r, arity⟩, hr, hall⟩ := (Option.any_eq_true _ _).mp hall
  obtain ⟨⟨p, acc⟩, hafter, hall⟩ := (Option.any_eq_true _ _).mp hall
  obtain ⟨hloads, hcontent, hstate⟩ := of_decide_eq_true hall
  obtain ⟨v, hv, hstate⟩ := Option.map_eq_some_iff.mp hstate
  have hok : lateLoad.schedule {} = .ok (fs, ctx) := by
    cases h : lateLoad.schedule {} with
    | error e =>
      rw [h] at hfs
      exact nomatch hfs
    | ok x =>
      rw [h] at hfs
      exact congrArg Except.ok (Option.some.inj hfs)
  exact ⟨fs, ctx, r, arity, p, acc, v, hok, hr, Traced.start.after 18 hafter, hloads, hv, hstate,
    hcontent⟩

/-- The machines that calls of a program leave behind. -/
inductive Machine.Left (rs : Routines) : Machine → Prop where
  | fresh : Left rs {}
  | call {m : Machine} (h : Left rs m) (i : Nat) (args : Array Value) : Left rs (m.call rs i args).2

/-- Not every load of an accepted program finds in its slot what its memory edge stands for. -/
theorem exists_load_disagrees : ¬ ∀ (prog : Program) (fs : List Scheduled) (ctx : Context),
    prog.schedule {} = .ok (fs, ctx) → ∀ m, Machine.Left (Scheduled.routines fs) m →
    ∀ (i : Nat) (r : Routine) (arity : Nat), (Scheduled.routines fs).table[i]? = some (r, arity) →
    ∀ (args : Array Value) (p : Point) (acc : Account),
      Traced (Scheduled.routines fs) (.ofCall r args 0 m) p acc →
    ∀ (n : NodeId) (σ : Slot) (v : View), p.LoadsFrom (Scheduled.routines fs) n σ →
      acc.ofEdge (p.act.graph.input n 1) = some v → p.machine.content σ = v.state σ := by
  intro h
  obtain ⟨fs, ctx, r, arity, p, acc, v, hok, hr, htraced, hloads, hv, hstate, hcontent⟩ :=
    exists_lateLoad
  have hleft : Machine.Left (Scheduled.routines fs) (Scheduled.routines fs).prepared :=
    .call (.call .fresh 1 #[.int 8]) 2 #[]
  have heq := h lateLoad fs ctx hok _ hleft 0 r arity hr _ p acc htraced 31 (0, 3) v hloads hv
  rw [hstate, hcontent] at heq
  exact absurd heq (by decide)

/-- The late load missed a write to its slot. -/
theorem lateLoad_missed : ∃ (rs : Routines) (p q : Point) (acc : Account) (v : View) (σ : Slot),
    acc.ofEdge (p.act.graph.input 31 1) = some v ∧ p.machine.loadSlot p.act 31 = .ok σ ∧
    p.next rs 0 = some q ∧
      (q.act = p.act.set 31 (((v.state σ).getD .mem).readAs (p.act.graph.decl 31)) ∨
        ∃ w, (w, σ) ∈ v.missed ∧ (p.act.graph.op w).writesMemory) := by
  obtain ⟨fs, ctx, r, arity, p, acc, v, hok, hr, htraced, hloads, hv, hstate, hcontent⟩ :=
    exists_lateLoad
  obtain ⟨q, hq⟩ := Option.isSome_iff_exists.mp hloads.moves
  obtain ⟨rest, hrest⟩ := List.head?_eq_some_iff.mp hloads.rest
  obtain ⟨σ, hslot, hcases⟩ := load_agrees_or_missed htraced hq hrest hloads.op hv
  exact ⟨_, p, q, acc, v, σ, hv, hslot, hq, hcases⟩

end SeaNodes
