import SeaNodes.Proofs.Graph.Edits
import SeaNodes.Proofs.Opt.Evolves

namespace SeaNodes

namespace Graph

variable {g g' : Graph} {n m : NodeId} {e : Edge} {c : Change} {numbering edited : Bool} {k : Nat}

/-- What an improvement comes to: no rule applies, one answers, or one makes a node, whose
simplification is the answer. -/
inductive Reply where
  | rest
  | answer (c : Change)
  | make (g : Graph) (m : NodeId)

/-- The improvement if new nodes are simplified by `simp`. -/
def Reply.run (simp : Simplifier) : Reply → Option Change
  | .rest => none
  | .answer c => some c
  | .make g m => some (simp g m)

/-- Improving `n` comes to `q`, whatever simplifies new nodes. -/
def Replies (g : Graph) (n : NodeId) (q : Reply) : Prop := ∀ simp, g.improve? simp n = q.run simp

theorem Replies.unique {q q' : Reply} (h : g.Replies n q) (h' : g.Replies n q') : q = q' := by
  have hrun (simp : Simplifier) : q.run simp = q'.run simp := (h simp).symm.trans (h' simp)
  cases q <;> cases q'
  case rest.rest => rfl
  case answer.answer c c' => exact congrArg _ (Option.some.inj (hrun (peepholeAt 0)))
  case make.make g₁ m₁ g₂ m₂ =>
    obtain ⟨hm, hg⟩ := Prod.mk.inj (Option.some.inj (hrun (peepholeAt 0)))
    rw [Option.some.inj hm, hg]
  case answer.make c g₁ m₁ =>
    have hnone : c = (none, g₁) := Option.some.inj (hrun fun g _ => (none, g))
    have hsome : c = (some 0, g₁) := Option.some.inj (hrun fun g _ => (some 0, g))
    cases hnone.symm.trans hsome
  case make.answer g₁ m₁ c =>
    have hnone : (none, g₁) = c := Option.some.inj (hrun fun g _ => (none, g))
    have hsome : (some 0, g₁) = c := Option.some.inj (hrun fun g _ => (some 0, g))
    cases hnone.trans hsome.symm
  all_goals cases hrun (peepholeAt 0)

def newSum (g : Graph) (x : Edge) (k : Int64) : NodeId × Graph :=
  let (k, g) := g.const (.ofInt k)
  g.add (.arith .add) #[none, x, some k]

theorem addConst_eq (simp : Simplifier) (g : Graph) (x : Edge) (k : Int64) :
    addConst simp g x k = simp (g.newSum x k).2 (g.newSum x k).1 := rfl

/-- What an improvement of `n` may come to. Only sums, differences and negations make nodes. -/
inductive Move (g : Graph) (n : NodeId) : Reply → Prop where
  | rests : Move g n .rest
  | folds (t : Ty) : Move g n (.answer (g.constEdge t))
  | swaps (h : g.misordered n) : Move g n (.answer (some n, g.swapInputs n 1 2))
  | keepsLeft : Move g n (.answer (g.input n 1, g))
  | turns {c : Change} (h : ∀ op, g.op n ≠ .arith op) : Move g n (.answer c)
  /-- `(x + c₁) + c₂` becomes a sum of `x`. -/
  | sums {a : NodeId} (hop : g.op n = .arith .add) (ha : g.input n 1 = some a)
      (hsum : g.op a = .arith .add) (k : Int64) :
      Move g n (.make (g.newSum (g.input a 1) k).2 (g.newSum (g.input a 1) k).1)
  /-- `x - c` becomes a sum of `x`. -/
  | negates (hop : g.op n = .arith .sub) (k : Int64) :
      Move g n (.make (g.newSum (g.input n 1) k).2 (g.newSum (g.input n 1) k).1)
  | compares (hop : g.op n = .not) (op : CmpOp) (xs : Array Edge) :
      Move g n (.make (g.add (.cmp op) xs).2 (g.add (.cmp op) xs).1)

theorem exists_move_of_eq (o : Option Change) (h : ∀ simp, g.improve? simp n = o)
    (hop : ∀ op, g.op n ≠ .arith op) : ∃ q, g.Replies n q ∧ g.Move n q := by
  cases o with
  | none => exact ⟨.rest, h, .rests⟩
  | some c => exact ⟨.answer c, h, .turns hop⟩

theorem exists_move_ruleArith {op : ArithOp} (hop : g.op n = .arith op)
    (h : ∀ simp, g.improve? simp n = g.ruleArith simp op n) :
    ∃ q, g.Replies n q ∧ g.Move n q := by
  have hrest (hnone : ∀ simp, g.improve? simp n = none) : ∃ q, g.Replies n q ∧ g.Move n q :=
    ⟨.rest, hnone, .rests⟩
  have hleft (hsome : ∀ simp, g.improve? simp n = some (g.input n 1, g)) :
      ∃ q, g.Replies n q ∧ g.Move n q :=
    ⟨.answer (g.input n 1, g), hsome, .keepsLeft⟩
  unfold ruleArith at h
  dsimp only at h
  cases op with
  | add =>
    dsimp only at h
    by_cases hzero : g.constInt? (g.input n 2) = some 0
    · simp only [if_pos hzero] at h
      exact hleft h
    simp only [if_neg hzero, Option.bind_eq_bind] at h
    rcases hc₂ : g.constInt? (g.input n 2) with _ | c₂
    · exact hrest fun simp => by rw [h, hc₂, Option.bind_none]
    by_cases hsum : g.isOp (g.input n 1) (.arith .add)
    · rcases hc₁ : g.constInt? (g.inputOf (g.input n 1) 2) with _ | c₁
      · exact hrest fun simp => by simp [h, hc₂, hsum, hc₁]
      · have hanswer (simp : Simplifier) : g.improve? simp n =
            some (addConst simp g (g.inputOf (g.input n 1) 1) (c₁ + c₂)) := by
          simp [h, hc₂, hsum, hc₁]
        obtain ⟨a, ha, hopa⟩ : ∃ a, g.input n 1 = some a ∧ g.op a = .arith .add := by
          cases ha : g.input n 1 with
          | none => rw [ha] at hsum; cases hsum
          | some a => exact ⟨a, rfl, by simpa [ha, isOp, op?] using hsum⟩
        rw [ha] at hanswer
        exact ⟨.make _ _, hanswer, .sums hop ha hopa (c₁ + c₂)⟩
    · exact hrest fun simp => by simp [h, hc₂, hsum]
  | sub =>
    dsimp only at h
    by_cases hsame : g.input n 1 = g.input n 2
    · simp only [if_pos hsame] at h
      exact ⟨.answer (g.constEdge (.ofInt 0)), h, .folds (.ofInt 0)⟩
    simp only [if_neg hsame, Option.bind_eq_bind] at h
    rcases hk : g.constInt? (g.input n 2) with _ | k
    · exact hrest fun simp => by rw [h, hk, Option.bind_none]
    simp only [hk, Option.bind_some] at h
    by_cases hzero : k = 0
    · simp only [if_pos hzero] at h
      exact hleft h
    simp only [if_neg hzero] at h
    by_cases hmin : k = Int64.minValue
    · simp only [if_pos hmin] at h
      exact hrest h
    simp only [if_neg hmin] at h
    exact ⟨.make _ _, h, .negates hop (-k)⟩
  | mul | div =>
    dsimp only at h
    split_ifs at h
    · exact hleft h
    · exact hrest h

theorem exists_move_ruleNot (hop : g.op n = .not)
    (h : ∀ simp, g.improve? simp n = g.ruleNot simp n) : ∃ q, g.Replies n q ∧ g.Move n q := by
  have hturn : ∀ op, g.op n ≠ .arith op := fun op heq => by
    rw [hop] at heq
    cases heq
  unfold ruleNot at h
  dsimp only at h
  split at h
  case h_1 op hcmp => exact ⟨.make _ _, h, .compares hop _ _⟩
  case h_2 => exact exists_move_of_eq _ h hturn
  case h_3 => exact ⟨.rest, h, .rests⟩

theorem exists_move (g : Graph) (n : NodeId) : ∃ q, g.Replies n q ∧ g.Move n q := by
  by_cases hfold : g.isFoldable n = true
  · exact ⟨.answer (g.constEdge (g.ty (some n))), fun simp => by rw [improve?, if_pos hfold]; rfl,
      .folds _⟩
  by_cases hdead : g.isDeadControl n = true
  · refine exists_move_of_eq (some (some deadCtrl, g))
      (fun simp => by rw [improve?, if_neg hfold, if_pos hdead]) fun op hop => ?_
    simp [isDeadControl, hop, Op.isCfg] at hdead
  have hrule (simp : Simplifier) : g.improve? simp n = g.applyRule simp n := by
    rw [improve?, if_neg hfold, if_neg hdead]
  by_cases hswap : ((g.op n).isCommutative && g.misordered n) = true
  · exact ⟨.answer (some n, g.swapInputs n 1 2),
      fun simp => by rw [hrule, applyRule, if_pos hswap]; rfl,
      .swaps (Bool.and_eq_true_iff.mp hswap).2⟩
  cases hop : g.op n with
  | arith op =>
    refine exists_move_ruleArith hop fun simp => ?_
    rw [hrule, applyRule, if_neg hswap, hop]
  | not =>
    refine exists_move_ruleNot hop fun simp => ?_
    rw [hrule, applyRule, if_neg hswap, hop]
  | _ =>
    refine exists_move_of_eq (g.improve? (peepholeAt 0) n) (fun simp => ?_)
      fun op heq => by rw [hop] at heq; cases heq
    rw [hrule, hrule, applyRule, applyRule, if_neg hswap, if_neg hswap, hop]

/-- Improving `n` up to `k` times in place ends with a result, new nodes being typed and simplified
in turn without a bound. -/
inductive Ends : Bool → NodeId → Nat → Bool → Graph → Rewritten → Prop where
  | spent {numbering : Bool} {n : NodeId} {edited : Bool} {g : Graph} :
      Ends numbering n 0 edited g (g.mergeEqual numbering n edited)
  | rest {numbering : Bool} {n : NodeId} {k : Nat} {edited : Bool} {g : Graph}
      (h : g.Replies n .rest) : Ends numbering n (k + 1) edited g (g.mergeEqual numbering n edited)
  | again {numbering : Bool} {n : NodeId} {k : Nat} {edited : Bool} {g g' : Graph} {r : Rewritten}
      (h : g.Replies n (.answer (some n, g'))) (hrest : Ends numbering n k true g' r) :
      Ends numbering n (k + 1) edited g r
  | replace {numbering : Bool} {n : NodeId} {k : Nat} {edited : Bool} {g g' : Graph} {e : Edge}
      (h : g.Replies n (.answer (e, g'))) (hne : e ≠ some n) :
      Ends numbering n (k + 1) edited g ⟨e, true, g'.subsume n e⟩
  | makeAgain {numbering : Bool} {n m : NodeId} {k : Nat} {edited : Bool} {g g' : Graph}
      {s r : Rewritten} (h : g.Replies n (.make g' m))
      (hm : Ends true m maxLocalSteps false (g'.setTy m (g'.settledType m)) s)
      (heq : s.edge = some n) (hrest : Ends numbering n k true s.graph r) :
      Ends numbering n (k + 1) edited g r
  | makeReplace {numbering : Bool} {n m : NodeId} {k : Nat} {edited : Bool} {g g' : Graph}
      {s : Rewritten} (h : g.Replies n (.make g' m))
      (hm : Ends true m maxLocalSteps false (g'.setTy m (g'.settledType m)) s)
      (hne : s.edge ≠ some n) :
      Ends numbering n (k + 1) edited g ⟨s.edge, true, s.graph.subsume n s.edge⟩

/-- The simplification of `n` under its present type ends with `r`. -/
def RewriteEnds (g : Graph) (n : NodeId) (numbering : Bool) (r : Rewritten) : Prop :=
  Ends numbering n maxLocalSteps false g r

/-- Typing and simplifying a new node ends with `c`. -/
def PeepholeEnds (g : Graph) (n : NodeId) (c : Change) : Prop :=
  ∃ r, (g.setTy n (g.settledType n)).RewriteEnds n true r ∧ c = (r.edge, r.graph)

theorem peepholeAt_succ (k : Nat) (g : Graph) (n : NodeId) :
    peepholeAt (k + 1) g n =
      let r := improveAll (peepholeAt k) true n maxLocalSteps false (g.setTy n (g.settledType n))
      (r.edge, r.graph) := rfl

/-- Where the recursion ends, it is not cut short by a bound that is large enough. -/
theorem Ends.eventually {r : Rewritten} (h : Ends numbering n k edited g r) :
    ∃ d, ∀ d' ≥ d, improveAll (peepholeAt d') numbering n k edited g = r := by
  induction h with
  | spent => exact ⟨0, fun _ _ => rfl⟩
  | rest h => exact ⟨0, fun d' _ => by rw [improveAll, h]; rfl⟩
  | again h _ ih =>
    obtain ⟨d, hd⟩ := ih
    refine ⟨d, fun d' hle => ?_⟩
    rw [improveAll, h, ← hd d' hle]
    exact if_pos rfl
  | replace h hne =>
    refine ⟨0, fun d' _ => ?_⟩
    rw [improveAll, h]
    exact if_neg hne
  | makeAgain h _ heq _ ihm ih =>
    obtain ⟨d₁, hd₁⟩ := ihm
    obtain ⟨d₂, hd₂⟩ := ih
    -- the new node takes one more level than its own recursion needs
    refine ⟨max (d₁ + 1) d₂, fun d' hle => ?_⟩
    obtain ⟨d, rfl⟩ := Nat.exists_eq_add_of_lt (le_of_max_le_left hle)
    rw [improveAll, h, ← hd₂ _ (le_of_max_le_right hle), Reply.run, peepholeAt_succ,
      hd₁ _ (by omega)]
    exact if_pos heq
  | makeReplace h _ hne ihm =>
    obtain ⟨d₁, hd₁⟩ := ihm
    refine ⟨d₁ + 1, fun d' hle => ?_⟩
    obtain ⟨d, rfl⟩ := Nat.exists_eq_add_of_lt hle
    rw [improveAll, h, Reply.run, peepholeAt_succ, hd₁ _ (by omega)]
    exact if_neg hne

theorem Ends.unique {r r' : Rewritten} (h : Ends numbering n k edited g r)
    (h' : Ends numbering n k edited g r') : r = r' := by
  obtain ⟨d, hd⟩ := h.eventually
  obtain ⟨d', hd'⟩ := h'.eventually
  exact (hd _ (le_max_left d d')).symm.trans (hd' _ (le_max_right d d'))

theorem PeepholeEnds.unique {c c' : Change} (h : g.PeepholeEnds n c) (h' : g.PeepholeEnds n c') :
    c = c' := by
  obtain ⟨r, hr, rfl⟩ := h
  obtain ⟨r', hr', rfl⟩ := h'
  rw [Ends.unique hr hr']

section

variable {simp : Simplifier}

/-- One step with a bounded simplifier of new nodes, if their simplification ends as it says. -/
theorem ends_succ
    (hmake : ∀ g' m, g.Move n (.make g' m) → g'.PeepholeEnds m (simp g' m))
    (hagain : ∀ q g', g.Replies n q → g.Move n q → q.run simp = some (some n, g') →
      Ends numbering n k true g' (improveAll simp numbering n k true g')) :
    Ends numbering n (k + 1) edited g (improveAll simp numbering n (k + 1) edited g) := by
  obtain ⟨q, hq, hmove⟩ := g.exists_move n
  rw [improveAll, hq]
  cases q with
  | rest => exact .rest hq
  | answer c =>
    obtain ⟨e, g'⟩ := c
    dsimp only [Reply.run]
    split_ifs with he
    · subst he
      exact .again hq (hagain _ g' hq hmove rfl)
    · exact .replace hq he
  | make g' m =>
    obtain ⟨s, hs, hc⟩ := hmake g' m hmove
    have hrun : (Reply.make g' m).run simp = some (s.edge, s.graph) := congrArg some hc
    rw [hrun]
    dsimp only
    split_ifs with he
    · exact .makeAgain hq hs he (hagain _ s.graph hq hmove (he ▸ hrun))
    · exact .makeReplace hq hs he

theorem ends_improveAll (I : Graph → Prop)
    (hmake : ∀ g, I g → ∀ g' m, g.Move n (.make g' m) → g'.PeepholeEnds m (simp g' m))
    (hagain : ∀ g, I g → ∀ q g', g.Replies n q → g.Move n q →
      q.run simp = some (some n, g') → I g') (hg : I g) :
    Ends numbering n k edited g (improveAll simp numbering n k edited g) := by
  induction k generalizing g edited with
  | zero => exact .spent
  | succ k ih =>
    exact ends_succ (hmake g hg) fun q g' hq hmove hrun => ih (hagain g hg q g' hq hmove hrun)

end

end Graph

namespace Graph

variable {g g' g₀ : Graph} {n m : NodeId} {e x : Edge} {numbering edited : Bool} {b d k : Nat}
  {simp : Simplifier} {rank : NodeId → Nat} {op : ArithOp} {q : Reply}

theorem lt_size_of_arith (h : g.op n = .arith op) : n < g.size :=
  lt_size_of_op_ne (by simp [h])

theorem improve?_of_not_leads (h : ¬ g.Leads (some n)) : g.improve? simp n = none := by
  have hop : g.op n = .start ∨ g.op n = .scope := by
    rw [leads_some] at h
    by_cases hn : n < g.size
    · exact .inr (not_not.mp fun hscope => h ⟨hn, hscope⟩)
    · exact .inl (op_of_size_le (Nat.le_of_not_lt hn))
  rcases hop with hop | hop <;>
    simp [improve?, isFoldable, isDeadControl, applyRule, hop, Op.isFloating, Op.isCfg,
      Op.isCommutative]

/-- An edit in place leaves the operator alone, unless a loop becomes a plain join. -/
theorem op_of_again (h : g.improve? (peepholeAt d) n = some (some n, g')) :
    g'.op n = g.op n ∨ g.op n = .loop ∧ g'.op n = .region := by
  by_cases hn : g.Leads (some n)
  · have hevolves := (yields_improve? (bounded_peepholeAt 0 d) (Nat.zero_le _) hn h).evolves
    rcases hevolves.op n with hsame | hregion | ⟨hbig, -⟩
    · exact .inl hsame
    · exact .inr hregion
    · exact absurd (leads_some.mp hn).1 (Nat.not_lt.mpr hbig)
  · rw [improve?_of_not_leads hn] at h
    cases h

theorem ends_of_quiet (d : Nat) (hop : (∀ op, g.op n ≠ .arith op) ∧ g.op n ≠ .not) :
    Ends numbering n k edited g (improveAll (peepholeAt d) numbering n k edited g) := by
  refine ends_improveAll (fun g => (∀ op, g.op n ≠ .arith op) ∧ g.op n ≠ .not)
    (fun g hop g' m hmove => ?_) (fun g hop q g' hq _ hrun => ?_) hop
  · cases hmove with
    | sums hadd => exact absurd hadd (hop.1 _)
    | negates hsub => exact absurd hsub (hop.1 _)
    | compares hnot => exact absurd hnot hop.2
  · rcases op_of_again ((hq _).trans hrun) with hsame | ⟨-, hregion⟩
    · rwa [hsame]
    · rw [hregion]
      exact ⟨fun _ => nofun, nofun⟩

theorem op_setTy_add (g : Graph) (op : Op) (xs : Array Edge) (t : Ty) :
    ((g.add op xs).2.setTy (g.add op xs).1 t).op (g.add op xs).1 = op :=
  (op_setTy ..).trans
    (congrArg Node.op (((g.add_spec op xs .top).2.1 g.size).trans (if_pos rfl)))

theorem ends_of_not (d : Nat) (hop : g.op n = .not) :
    Ends numbering n k edited g (improveAll (peepholeAt (d + 1)) numbering n k edited g) := by
  refine ends_improveAll (fun g => g.op n = .not) (fun g hop g' m hmove => ?_)
    (fun g hop q g' hq _ hrun => ?_) hop
  · cases hmove with
    | sums hadd => rw [hop] at hadd; cases hadd
    | negates hsub => rw [hop] at hsub; cases hsub
    | compares _ op xs =>
      have hcmp := op_setTy_add g (.cmp op) xs
        ((g.add (.cmp op) xs).2.settledType (g.add (.cmp op) xs).1)
      exact ⟨_, ends_of_quiet d ⟨fun _ => by rw [hcmp]; nofun, by rw [hcmp]; nofun⟩, rfl⟩
  · rcases op_of_again ((hq _).trans hrun) with hsame | ⟨hloop, -⟩
    · rwa [hsame]
    · rw [hop] at hloop
      cases hloop

/-- Operands rank below the arithmetic on them; edges lead to nodes, and the table is in order. -/
structure Ranked (g : Graph) (rank : NodeId → Nat) : Prop where
  numbered : g.Numbered
  lt_size : ∀ n d, some d ∈ g.inputs n → d < g.size
  operand : ∀ n op i d, g.op n = .arith op → g.input n (i + 1) = some d → rank d < rank n

theorem exists_getElem?_swapIfInBounds (xs : Array Edge) (i : Nat) :
    ∃ j, (xs.swapIfInBounds 1 2)[i + 1]? = xs[j + 1]? := by
  rw [Array.swapIfInBounds_def]
  split_ifs with h₁ h₂
  · rw [Array.getElem?_swap]
    split_ifs
    · exact ⟨0, (Array.getElem?_eq_getElem h₁).symm⟩
    · exact ⟨1, (Array.getElem?_eq_getElem h₂).symm⟩
    · exact ⟨i, rfl⟩
  · exact ⟨i, rfl⟩
  · exact ⟨i, rfl⟩

theorem sameBodies_swapInputs (g : Graph) (n : NodeId) : g.SameBodies (g.swapInputs n 1 2) :=
  .of_updated (g.updated_modifyNode n _) fun _ => rfl

namespace Ranked

variable (h : g.Ranked rank)

include h

theorem setTy (n : NodeId) (t : Ty) : (g.setTy n t).Ranked rank := by
  have hlinks := sameLinks_setTy g n t
  refine ⟨h.numbered.modifyNode (f := ({ · with ty := t })) (fun _ => rfl) (fun _ => rfl) n,
    fun m d hd => ?_, fun m op i d hop hi => ?_⟩
  · rw [hlinks.inputs] at hd
    rw [hlinks.size]
    exact h.lt_size m d hd
  · rw [op_setTy] at hop
    rw [input_setTy] at hi
    exact h.operand m op i d hop hi

theorem swapInputs (n : NodeId) : (g.swapInputs n 1 2).Ranked rank := by
  have hupdated : Updated n _ g (g.swapInputs n 1 2) := g.updated_modifyNode n _
  have hbodies := g.sameBodies_swapInputs n
  have hinputs (m : NodeId) : (g.swapInputs n 1 2).inputs m = g.inputs m ∨
      (g.swapInputs n 1 2).inputs m = (g.inputs m).swapIfInBounds 1 2 := by
    obtain ⟨b, hb, -⟩ := g.node_unnumber n m
    rw [Graph.inputs, hupdated.node, node_modifyNode, hb]
    split_ifs
    · exact .inr rfl
    · exact .inl rfl
  refine ⟨hupdated.numbered h.numbered, fun m d hd => ?_, fun m op i d hop hi => ?_⟩
  · rw [hbodies.size]
    rcases hinputs m with hsame | hswapped
    · exact h.lt_size m d (hsame ▸ hd)
    · exact h.lt_size m d ((perm_swapIfInBounds _ 1 2).mem_iff.mp (hswapped ▸ hd))
  · rw [hbodies.op] at hop
    rw [input_eq_getElem?] at hi
    rcases hinputs m with hsame | hswapped
    · rw [hsame] at hi
      exact h.operand m op i d hop hi
    · obtain ⟨j, hj⟩ := exists_getElem?_swapIfInBounds (g.inputs m) i
      rw [hswapped, hj] at hi
      exact h.operand m op j d hop hi

end Ranked

/-- `m` is a new sum of `x` and the constant `c`, in a graph that has grown out of another. -/
structure NewSum (g₀ g : Graph) (m : NodeId) (x : Edge) (c : Int64) : Prop where
  grown : g₀.Grown g
  numbered : g.Numbered
  new : g₀.size ≤ m
  op : g.op m = .arith .add
  inputs : ∃ j, g.inputs m = #[none, x, some j] ∧ g.op j = .const (.ofInt c)

theorem newSum_spec (h : g₀.Grown g) (hnum : g.Numbered) (x : Edge) (c : Int64) :
    NewSum g₀ (g.newSum x c).2 (g.newSum x c).1 x c := by
  obtain ⟨hconst, hlive, hop, -⟩ := hnum.const_spec (.ofInt c)
  set g' := (g.const (.ofInt c)).2
  have hnode := (g'.add_spec (.arith .add) #[none, x, some (g.const (.ofInt c)).1] .top).2.1
  have hself := (hnode g'.size).trans (if_pos rfl)
  have hgrown : g'.Grown (g.newSum x c).2 := .add g' _ _ .top
  refine ⟨(h.trans hconst).trans hgrown, (hnum.const _).add _ _ _,
    h.size.trans hconst.size, congrArg Node.op hself, (g.const (.ofInt c)).1,
    congrArg Node.inputs hself, ?_⟩
  rw [hgrown.op _ (mem_live.mp hlive).1]
  exact hop

namespace NewSum

variable {c : Int64}

theorem setTy (h : NewSum g₀ g m x c) (t : Ty) : NewSum g₀ (g.setTy m t) m x c := by
  have hop (n : NodeId) : (g.setTy m t).op n = g.op n := op_setTy g m t n
  obtain ⟨j, hinputs, hj⟩ := h.inputs
  exact ⟨h.grown.setTy h.new t,
    h.numbered.modifyNode (f := ({ · with ty := t })) (fun _ => rfl) (fun _ => rfl) m, h.new,
    (hop m).trans h.op, j, ((sameLinks_setTy g m t).inputs m).trans hinputs, (hop j).trans hj⟩

theorem input_one (h : NewSum g₀ g m x c) : g.input m 1 = x := by
  obtain ⟨j, hinputs, -⟩ := h.inputs
  rw [input_eq_getElem?, hinputs]
  rfl

theorem input_two (h : NewSum g₀ g m x c) :
    g.isConst (g.input m 2) = true ∧ g.constInt? (g.input m 2) = some c := by
  obtain ⟨j, hinputs, hj⟩ := h.inputs
  have hright : g.input m 2 = some j := by
    rw [input_eq_getElem?, hinputs]
    rfl
  rw [hright, isConst, constInt?, op?, hj]
  exact ⟨rfl, if_pos rfl⟩

theorem not_misordered (h : NewSum g₀ g m x c) : g.misordered m = false := by
  unfold misordered
  dsimp only
  rw [h.input_two.1]
  cases g.isConst (g.input m 1) <;> rfl

theorem cases_move (h : NewSum g₀ g m x c) (hmove : g.Move m q) :
    q = .rest ∨ (∃ t, q = .answer (g.constEdge t)) ∨ q = .answer (x, g) ∨
      ∃ a k, x = some a ∧ g.op a = .arith .add ∧
        q = .make (g.newSum (g.input a 1) k).2 (g.newSum (g.input a 1) k).1 := by
  have hop := h.op
  cases hmove with
  | rests => exact .inl rfl
  | folds t => exact .inr (.inl ⟨t, rfl⟩)
  | swaps hswap => rw [h.not_misordered] at hswap; cases hswap
  | keepsLeft => exact .inr (.inr (.inl (by rw [h.input_one])))
  | turns hturn => exact absurd hop (hturn _)
  | sums _ ha hsum k => exact .inr (.inr (.inr ⟨_, k, h.input_one ▸ ha, hsum, rfl⟩))
  | negates hsub => rw [hop] at hsub; cases hsub
  | compares hnot => rw [hop] at hnot; cases hnot

end NewSum

/-- A node of `g` that `e` leads to is a constant, was there before with a lower rank than `b`, or is a
sum of such a node. -/
def Lands (g₀ g : Graph) (rank : NodeId → Nat) (b : Nat) (e : Edge) : Prop :=
  ∀ j ∈ e, j < g.size → (∃ t, g.op j = .const t) ∨ (j < g₀.size ∧ rank j < b) ∨
    g.op j = .arith .add ∧ ∀ y ∈ g.input j 1, rank y < b

namespace Lands

theorem mono {b' : Nat} (h : Lands g₀ g rank b e) (hb : b ≤ b') : Lands g₀ g rank b' e := by
  intro j hj hlt
  rcases h j hj hlt with hconst | ⟨hold, hrank⟩ | ⟨hop, hleft⟩
  · exact .inl hconst
  · exact .inr (.inl ⟨hold, hrank.trans_le hb⟩)
  · exact .inr (.inr ⟨hop, fun y hy => (hleft y hy).trans_le hb⟩)

theorem of_grown (h : Lands g₀ g' rank b e) (hgrown : g.Grown g') : Lands g₀ g rank b e := by
  intro j hj hlt
  rw [← hgrown.op j hlt, ← hgrown.input j hlt]
  exact h j hj (hlt.trans_le hgrown.size)

theorem const (hnum : g.Numbered) (t : Ty) : Lands g₀ g rank b (g.constEdge t).1 := by
  intro j hj hlt
  obtain rfl := Option.some.inj hj
  obtain ⟨hgrown, -, hop, -⟩ := hnum.const_spec t
  exact .inl ⟨t, (hgrown.op _ hlt).symm.trans hop⟩

theorem ne (h : Lands g₀ g rank b e) (hop : g.op n = .arith op)
    (hold : n < g₀.size → b ≤ rank n) (hleft : op = .add → ∃ y ∈ g.input n 1, b ≤ rank y) :
    e ≠ some n := by
  intro he
  rcases h n he (lt_size_of_arith hop) with ⟨t, hconst⟩ | ⟨hn, hrank⟩ | ⟨hadd, hless⟩
  · rw [hop] at hconst
    cases hconst
  · exact hrank.not_ge (hold hn)
  · rw [hop] at hadd
    obtain ⟨y, hy, hrank⟩ := hleft (Op.arith.inj hadd)
    exact (hless y hy).not_ge hrank

end Lands

/-- Simplifying a new sum of `x` and `c` with `simp` gives what it does without a bound, and leads to
nodes below `b`. -/
structure SumEnds (g₀ g : Graph) (rank : NodeId → Nat) (b : Nat) (simp : Simplifier) (x : Edge)
    (c : Int64) : Prop where
  ends : (g.newSum x c).2.PeepholeEnds (g.newSum x c).1 (addConst simp g x c)
  lands : Lands g₀ g rank b (addConst simp g x c).1

namespace NewSum

variable {c : Int64} (h : NewSum g₀ g m x c) (hx : ∀ y ∈ x, y < g₀.size ∧ rank y < b)

include h hx

theorem lands_self : Lands g₀ g rank b (some m) := by
  intro j hj _
  obtain rfl := Option.some.inj hj
  exact .inr (.inr ⟨h.op, fun y hy => (hx y (h.input_one ▸ hy)).2⟩)

theorem lands_mergeEqual (edited : Bool) :
    Lands g₀ g rank b (g.mergeEqual true m edited).edge := by
  unfold mergeEqual
  split_ifs
  · exact h.lands_self hx
  · split
    case h_1 j hequal =>
      obtain ⟨-, -, hkey⟩ := h.numbered.equal?_spec hequal
      have hop : g.op j = g.op m := congrArg NodeKey.op hkey
      have hinputs : g.inputs j = g.inputs m := congrArg NodeKey.inputs hkey
      intro i hi _
      obtain rfl := Option.some.inj hi
      refine .inr (.inr ⟨hop.trans h.op, fun y hy => (hx y ?_).2⟩)
      rwa [input_eq_getElem?, hinputs, ← input_eq_getElem?, h.input_one] at hy
    case h_2 => exact h.lands_self hx

/-- Simplifying a new sum ends if that of the next shorter one does. The answer is never the sum
itself that is looked at, so one step is enough. -/
theorem ends (hk : k ≠ 0) (hdeep : ∀ a c', x = some a → g.op a = .arith .add →
      SumEnds g₀ g rank (rank a) simp (g.input a 1) c') :
    Ends true m k edited g (improveAll simp true m k edited g) ∧
      Lands g₀ g rank b (improveAll simp true m k edited g).edge := by
  obtain ⟨k, rfl⟩ := Nat.exists_eq_succ_of_ne_zero hk
  have hanswer (q : Reply) (r : Change) (hmove : g.Move m q) (hrun : q.run simp = some r) :
      r.1 ≠ some m ∧ Lands g₀ g rank b r.1 := by
    rcases h.cases_move hmove with rfl | ⟨t, rfl⟩ | rfl | ⟨a, c', hxa, hsum, rfl⟩
    · cases hrun
    · obtain rfl := Option.some.inj hrun
      exact ⟨constEdge_ne h.numbered (lt_size_of_arith h.op) (by rw [h.op]; rfl) t,
        .const h.numbered t⟩
    · obtain rfl := Option.some.inj hrun
      exact ⟨fun heq => (hx m heq).1.not_ge h.new, fun j hj _ => .inr (.inl (hx j hj))⟩
    · obtain rfl := Option.some.inj hrun
      have hlands := (hdeep a c' hxa hsum).lands
      exact ⟨hlands.ne h.op (fun hlt => absurd hlt h.new.not_gt)
        fun _ => ⟨a, h.input_one.trans hxa, le_rfl⟩, hlands.mono (hx a hxa).2.le⟩
  constructor
  · refine ends_succ (fun g' m' hmove => ?_) fun q g' _ hmove hrun =>
      absurd rfl (hanswer q _ hmove hrun).1
    rcases h.cases_move hmove with hq | ⟨t, hq⟩ | hq | ⟨a, c', hxa, hsum, hq⟩
    · cases hq
    · cases hq
    · cases hq
    · obtain ⟨rfl, rfl⟩ := Reply.make.inj hq
      exact (hdeep a c' hxa hsum).ends
  · obtain ⟨q, hq, hmove⟩ := g.exists_move m
    rw [improveAll, hq]
    cases hrun : q.run simp with
    | none => exact h.lands_mergeEqual hx edited
    | some r =>
      obtain ⟨hne, hlands⟩ := hanswer q r hmove hrun
      dsimp only
      rw [if_neg hne]
      exact hlands

end NewSum

theorem sumEnds_succ (hgrown : g₀.Grown g) (hnum : g.Numbered)
    (hx : ∀ y ∈ x, y < g₀.size ∧ rank y < b) (c : Int64)
    (hdeep : ∀ g' a c', x = some a → g₀.Grown g' → g'.Numbered → g'.op a = .arith .add →
      SumEnds g₀ g' rank (rank a) (peepholeAt d) (g'.input a 1) c') :
    SumEnds g₀ g rank b (peepholeAt (d + 1)) x c := by
  have htyped := (newSum_spec hgrown hnum x c).setTy ((g.newSum x c).2.settledType (g.newSum x c).1)
  obtain ⟨hends, hlands⟩ : Ends true _ maxLocalSteps false _ _ ∧ _ := htyped.ends hx (by decide)
    fun a c' hxa hop => hdeep _ a c' hxa htyped.grown htyped.numbered hop
  constructor
  · rw [addConst_eq, peepholeAt_succ]
    exact ⟨_, hends, rfl⟩
  · rw [addConst_eq, peepholeAt_succ]
    dsimp only
    exact hlands.of_grown ((newSum_spec (.refl g) hnum x c).setTy _).grown

theorem Ranked.sumEnds (hr : g₀.Ranked rank) (hgrown : g₀.Grown g) (hnum : g.Numbered)
    (hx : ∀ y ∈ x, y < g₀.size ∧ rank y < b) (hb : b ≤ d) (c : Int64) :
    SumEnds g₀ g rank b (peepholeAt (d + 1)) x c := by
  induction d generalizing b x g c with
  | zero =>
    refine sumEnds_succ hgrown hnum hx c fun _ a _ hxa => ?_
    exact absurd (hx a hxa).2 (Nat.not_lt.mpr (hb.trans (Nat.zero_le _)))
  | succ d ih =>
    refine sumEnds_succ hgrown hnum hx c fun g' a c' hxa hgrown' hnum' hop => ?_
    obtain ⟨hlt, hrank⟩ := hx a hxa
    rw [hgrown'.op a hlt] at hop
    refine ih hgrown' hnum' (fun y hy => ?_) (Nat.le_of_lt_succ (hrank.trans_le hb)) c'
    rw [hgrown'.input a hlt] at hy
    exact ⟨hr.lt_size a y (mem_inputs_of_input hy), hr.operand a .add 0 y hop hy⟩

theorem Ranked.ends_made (hr : g.Ranked rank) (hop : g.op n = .arith op) (hd : rank n ≤ d)
    (hmove : g.Move n (.make g' m)) :
    g'.PeepholeEnds m (peepholeAt (d + 1) g' m) ∧ (peepholeAt (d + 1) g' m).1 ≠ some n := by
  have hbelow {a : NodeId} {op : ArithOp} (hop : g.op a = .arith op) :
      ∀ y ∈ g.input a 1, y < g.size ∧ rank y < rank a := fun y hy =>
    ⟨hr.lt_size a y (mem_inputs_of_input hy), hr.operand a op 0 y hop hy⟩
  cases hmove with
  | @sums a _ ha hsum c =>
    have hrank := (hbelow hop a ha).2
    have h := hr.sumEnds (.refl g) hr.numbered (hbelow hsum) (hrank.le.trans hd) c
    exact ⟨h.ends, h.lands.ne hop (fun _ => hrank.le) fun _ => ⟨a, ha, le_rfl⟩⟩
  | negates hsub c =>
    have h := hr.sumEnds (.refl g) hr.numbered (hbelow hop) hd c
    exact ⟨h.ends, h.lands.ne hsub (fun _ => le_rfl) nofun⟩
  | compares hnot =>
    rw [hop] at hnot
    cases hnot

/-- Simplifying arithmetic ends within a bound on its rank. The operands of a sum may be exchanged
before. -/
theorem Ranked.ends_arith (hr : g.Ranked rank) (hop : g.op n = .arith op) (hd : rank n ≤ d) :
    Ends numbering n k edited g (improveAll (peepholeAt (d + 1)) numbering n k edited g) := by
  refine ends_improveAll (fun g => g.Ranked rank ∧ g.op n = .arith op)
    (fun g hg g' m hmove => (hg.1.ends_made hg.2 hd hmove).1) (fun g hg q g' _ hmove hrun => ?_)
    ⟨hr, hop⟩
  obtain ⟨hr, hop⟩ := hg
  have hfst {c : Change} (h : some c = some (some n, g')) : c.1 = some n :=
    congrArg Prod.fst (Option.some.inj h)
  cases q with
  | rest => cases hrun
  | make g₁ m => exact absurd (hfst hrun) (hr.ends_made hop hd hmove).2
  | answer c =>
    cases hmove with
    | folds t =>
      exact absurd (hfst hrun)
        (constEdge_ne hr.numbered (lt_size_of_arith hop) (by rw [hop]; rfl) t)
    | swaps =>
      obtain rfl : g.swapInputs n 1 2 = g' := congrArg Prod.snd (Option.some.inj hrun)
      exact ⟨hr.swapInputs n, ((g.sameBodies_swapInputs n).op n).trans hop⟩
    | keepsLeft => exact absurd (hr.operand n op 0 n hop (hfst hrun)) (Nat.lt_irrefl _)
    | turns hturn => exact absurd hop (hturn op)

theorem Ranked.ends (hr : g.Ranked rank) (hd : n < g.size → rank n < d) :
    Ends numbering n k edited g (improveAll (peepholeAt d) numbering n k edited g) := by
  cases hop : g.op n with
  | arith op =>
    obtain ⟨d, rfl⟩ := Nat.exists_eq_add_of_lt (hd (lt_size_of_arith hop))
    exact hr.ends_arith hop (Nat.le_add_right _ _)
  | not =>
    have hn : n < g.size := lt_size_of_op_ne (by simp [hop])
    obtain ⟨d, rfl⟩ := Nat.exists_eq_add_of_lt (Nat.zero_lt_of_lt (hd hn))
    rw [Nat.zero_add]
    exact ends_of_not d hop
  | _ => exact ends_of_quiet d ⟨fun _ => by rw [hop]; nofun, by rw [hop]; nofun⟩

end Graph

namespace Graph

variable {g g₀ : Graph} {a m : NodeId} {c : Int64} {numbering edited : Bool} {k : Nat}

/-- `a` adds an even constant to itself, and nothing is known of its value. -/
structure Circles (g : Graph) (a : NodeId) : Prop where
  op : g.op a = .arith .add
  ty : g.ty (some a) = .top
  left : g.input a 1 = some a
  right : ∃ j < g.size, g.input a 2 = some j ∧ ∃ c, g.constInt? (some j) = some c ∧ c.toInt % 2 = 0

/-- A sum of an odd constant and one that circles makes another such sum. Its constant is never zero,
which could be left out. -/
theorem NewSum.replies_of_circles (h : NewSum g₀ g m (some a) c) (ha : g₀.Circles a)
    (hty : g.ty (some m) = .top) (hodd : c.toInt % 2 = 1) : ∃ c', c'.toInt % 2 = 1 ∧
      g.Replies m (.make (g.newSum (some a) c').2 (g.newSum (some a) c').1) := by
  have hlt := lt_size_of_arith ha.op
  have hop := (h.grown.op a hlt).trans ha.op
  have hleft := (h.grown.input a hlt 1).trans ha.left
  obtain ⟨j, hj, hright, c₁, hc₁, heven⟩ := ha.right
  replace hright := (h.grown.input a hlt 2).trans hright
  replace hc₁ : g.constInt? (some j) = some c₁ := by
    rwa [constInt?, op?, h.grown.op j hj]
  have hne : c ≠ 0 := by
    rintro rfl
    cases hodd
  refine ⟨c₁ + c, ?_, fun simp => ?_⟩
  · rw [Int64.toInt_add, Int.bmod]
    omega
  · have hrule : g.improve? simp m = g.ruleArith simp .add m := by
      simp [improve?, isFoldable, isDeadControl, applyRule, h.op, hty, h.not_misordered, Op.isCfg,
        Ty.isConstant]
    simp [hrule, ruleArith, h.input_one, h.input_two.2, hne, isOp, op?, hop, inputOf, hright, hc₁,
      hleft, addConst_eq, Reply.run]

theorem NewSum.ty_of_circles (h : NewSum g₀ g m (some a) c) (ha : g₀.Circles a) :
    (g.setTy m (g.settledType m)).ty (some m) = .top := by
  have hty := (h.grown.ty a (lt_size_of_arith ha.op)).trans ha.ty
  have hsettled : g.settledType m = .top := by
    simp [settledType, typeOf, h.op, h.input_one, hty, Ty.arith]
  rw [hsettled, Graph.ty, Graph.setTy, node_modifyNode, if_pos ⟨rfl, lt_size_of_arith h.op⟩]

/-- Simplifying such a sum never ends. -/
theorem NewSum.not_ends {r : Rewritten} (ha : g₀.Circles a) (h : NewSum g₀ g m (some a) c)
    (hty : g.ty (some m) = .top) (hodd : c.toInt % 2 = 1) :
    ¬ Ends numbering m (k + 1) edited g r := by
  intro hends
  generalize hk : k + 1 = k' at hends
  induction hends generalizing k c with
  | spent => cases hk
  | rest hq | again hq | replace hq =>
    obtain ⟨c', -, hmake⟩ := h.replies_of_circles ha hty hodd
    cases hq.unique hmake
  | makeAgain hq _ _ _ ih | makeReplace hq _ _ ih =>
    obtain ⟨c', hodd', hmake⟩ := h.replies_of_circles ha hty hodd
    cases hq.unique hmake
    have hs := newSum_spec h.grown h.numbered (some a) c'
    exact ih (hs.setTy _) (hs.ty_of_circles ha) hodd' rfl

end Graph

/-- A sum of itself and two. -/
def selfSum : List Edit := [
  .const (.ofInt 2),
  .const (.ofInt 1),
  .add (.arith .add) #[none, none, some 3] .top,
  .setInput 5 1 (some 5)]

/-- A sum in a circle and one become an endless row of sums, so the condition on cycles is needed. -/
theorem not_peepholeEnds_selfSum :
    let g := ((Edit.run .empty selfSum).newSum (some 5) 1).2
    g.verify = .ok () ∧ g.Numbered ∧ ∀ c, ¬ g.PeepholeEnds 6 c := by
  intro g
  have hnum : (Edit.run .empty selfSum).Numbered :=
    (Edit.exact_run Graph.exact_empty Graph.mirrored_empty (by decide +kernel)).filed.entry
  have hs := Graph.newSum_spec (.refl _) hnum (some 5) 1
  have ha : (Edit.run .empty selfSum).Circles 5 :=
    ⟨by decide +kernel, by decide +kernel, by decide +kernel, 3, by decide +kernel,
      by decide +kernel, 2, by decide +kernel, by decide⟩
  refine ⟨by decide +kernel, hs.numbered, ?_⟩
  rintro - ⟨r, hr, rfl⟩
  have hm : 6 = ((Edit.run .empty selfSum).newSum (some 5) 1).1 := by decide +kernel
  rw [hm] at hr
  exact (hs.setTy _).not_ends ha (hs.ty_of_circles ha) (by decide) hr

end SeaNodes
