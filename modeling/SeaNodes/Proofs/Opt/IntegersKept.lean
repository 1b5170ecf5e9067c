import SeaNodes.Proofs.Opt.IntegerRules

namespace SeaNodes

namespace Graph

variable {g : Graph} {strict : Bool} {env : NodeId → Option Int64} {k k' : Nat} {n m x y : NodeId}
  {e : Edge} {i : Int64} {v : Value} {t : Ty}

/-- Nodes that are given integers, are constants, or compute from such nodes. -/
inductive IntegerRegion (g : Graph) (env : NodeId → Option Int64) : NodeId → Prop
  | given {n : NodeId} {i : Int64} (h : env n = some i) : IntegerRegion g env n
  | const {n : NodeId} {i : Int64} (h : g.op n = .const (.ofInt i)) : IntegerRegion g env n
  | unary {n x : NodeId} (h : g.op n = .neg ∨ g.op n = .not) (hx : g.input n 1 = some x) :
    IntegerRegion g env x → IntegerRegion g env n
  | binary {n x y : NodeId}
    (h : (∃ op, g.op n = .arith op) ∨ (∃ op, g.op n = .bit op) ∨ ∃ op, g.op n = .cmp op)
    (hx : g.input n 1 = some x) (hy : g.input n 2 = some y) :
    IntegerRegion g env x → IntegerRegion g env y → IntegerRegion g env n

/-- The edge of `c` leads to a node that evaluates to what `n` did, and the others that were there and
still are evaluate to what they did. -/
def KeepsIntegers (g : Graph) (env : NodeId → Option Int64) (n : NodeId) (c : Change) : Prop :=
  (∀ i, g.Evaluates env n i → ∃ m ∈ c.2.live, c.1 = some m ∧ c.2.Evaluates env m i) ∧
    ∀ m ∈ g.live, m ∈ c.2.live → m ≠ n → ∀ i, g.Evaluates env m i → c.2.Evaluates env m i

theorem rounds_le (henv : g.Outside env) (hk : k ≤ k') (hi : g.rounds strict env k n = some i) :
    g.rounds strict env k' n = some i := by
  induction hk with
  | refl => exact hi
  | step _ ih => exact rounds_mono henv ih

theorem readAs_rounds_le (henv : g.Outside env) (hk : k ≤ k')
    (hv : g.readAs (g.rounds strict env k) e = some v) :
    g.readAs (g.rounds strict env k') e = some v := by
  induction hk with
  | refl => exact hv
  | step _ ih => exact readAs_rounds_mono henv ih

theorem exists_limit (henv : g.Outside env) :
    ∃ total : NodeId → Option Int64, ∀ n i, total n = some i ↔ ∃ k, g.rounds strict env k n = some i := by
  have hlimit (n : NodeId) : ∃ o : Option Int64, ∀ i, o = some i ↔
      ∃ k, g.rounds strict env k n = some i := by
    by_cases h : ∃ k i, g.rounds strict env k n = some i
    · obtain ⟨k, i, hi⟩ := h
      refine ⟨some i, fun j => ⟨fun hj => ⟨k, hj ▸ hi⟩, ?_⟩⟩
      rintro ⟨k', hj⟩
      rw [← rounds_le henv (Nat.le_max_left k k') hi, rounds_le henv (Nat.le_max_right k k') hj]
    · refine ⟨none, fun j => ⟨(nomatch ·), ?_⟩⟩
      rintro ⟨k, hj⟩
      exact absurd ⟨k, j, hj⟩ h
  choose total htotal using hlimit
  exact ⟨total, htotal⟩

theorem exists_round {total : NodeId → Option Int64}
    (htotal : ∀ n i, total n = some i → ∃ k, g.rounds strict env k n = some i) (e : Edge) :
    ∃ k, ∀ v, g.readAs total e = some v → g.readAs (g.rounds strict env k) e = some v := by
  cases e with
  | none => exact ⟨0, fun v hv => nomatch hv⟩
  | some n =>
    cases hn : total n with
    | some i =>
      obtain ⟨k, hi⟩ := htotal n i hn
      refine ⟨k, fun v hv => ?_⟩
      rw [readAs_of_vals hn] at hv
      rw [readAs_of_vals hi, hv]
    | none =>
      refine ⟨0, fun v hv => ?_⟩
      rw [readAs_some, hn] at hv
      exact hv

section

variable (hm : g.Mirrored) (hnum : g.Numbered) (hgiven : ∀ n i, env n = some i →
    n ∈ g.live ∧ (g.op n).isInteger = false ∧ (g.ty (some n)).has (.int i) = true)
  (htypes : ∀ n ∈ g.live, (g.op n).isInteger = true →
    g.ty (some n) = .top ∨ g.ty (some n) = g.typeOf n)

include hgiven in
theorem outside_of_given : g.Outside env := fun n i hi =>
  ⟨(mem_live.mp (hgiven n i hi).1).1, (hgiven n i hi).2.1⟩

include htypes in
theorem admits_constant (hn : n ∈ g.live) (hv : (g.op n).constant? = some v) :
    (g.ty (some n)).admits v := by
  cases hop : g.op n with
  | const t =>
    rw [hop] at hv
    have htype : g.typeOf n = t := by
      unfold typeOf
      dsimp only
      rw [hop]
    rcases htypes n hn (by rw [hop]; rfl) with htop | hty
    · exact .inl htop
    · rw [hty, htype]
      exact .inr (Ty.has_of_ofConst? hv)
  | _ =>
    rw [hop] at hv
    exact nomatch hv

include hm hgiven htypes

/-- In a graph that is typed from the operands up, whatever a node would have is in its type. -/
theorem admits_rounds (hn : n ∈ g.live) (hi : g.rounds strict env k n = some i) :
    (g.ty (some n)).admits (.int i) := by
  -- by rounds, in each of which the operands have what they had one before
  induction k generalizing n i with
  | zero => cases hi
  | succ k ih =>
    cases henv : env n with
    | some j =>
      rw [rounds, henv] at hi
      exact .inr (Option.some.inj hi ▸ (hgiven n j henv).2.2)
    | none =>
      rw [rounds_succ_of_none henv] at hi
      rcases htypes n hn (Op.isInteger_of_apply hi) with htop | hty
      · exact .inl htop
      have hoperand (j : Nat) (v : Value)
          (hv : g.readAs (g.rounds strict env k) (g.input n j) = some v) :
          (g.ty (g.input n j)).admits v := by
        cases he : g.input n j with
        | none =>
          rw [he] at hv
          cases hv
        | some d =>
          have hd := hm.live_of_input he
          rw [he, readAs_some, Option.or_eq_some_iff, Option.map_eq_some_iff] at hv
          rcases hv with ⟨i, hi, rfl⟩ | ⟨-, hv⟩
          · exact ih hd hi
          · exact admits_constant htypes hd hv
      rw [hty]
      exact admits_typeOf (hoperand 1) (hoperand 2) hi

include hnum

theorem exists_ideal : ∃ total, Ideal env total g ∧
    ∀ n i, total n = some i ↔ ∃ k, g.rounds false env k n = some i := by
  have henv := outside_of_given hgiven
  obtain ⟨total, htotal⟩ : ∃ total : NodeId → Option Int64,
      ∀ n i, total n = some i ↔ ∃ k, g.rounds false env k n = some i := exists_limit henv
  have hle (k : Nat) (n : NodeId) (i : Int64) (hi : g.rounds false env k n = some i) :
      total n = some i := (htotal n i).mpr ⟨k, hi⟩
  have hconst {n : NodeId} {t : Ty} {i : Int64} (hop : g.op n = .const t)
      (hi : total n = some i) : Value.ofConst? t = some (.int i) := by
    obtain ⟨k, hk⟩ := (htotal n i).mp hi
    exact ofConst?_of_rounds henv hop hk
  refine ⟨total, ⟨hm, hnum, henv, fun n hn => ?_, fun n _ => ?_, fun n hn v hv => ?_⟩, htotal⟩
  · refine Option.eq_none_iff_forall_ne_some.mpr fun i hi => ?_
    obtain ⟨k, hk⟩ := (htotal n i).mp hi
    rw [rounds_of_size_le henv hn] at hk
    cases hk
  · cases hn : env n with
    | some j => exact hle 1 n j (by rw [rounds, hn]; rfl)
    | none =>
      rw [Option.none_or]
      refine Option.ext fun i => ⟨fun hi => ?_, fun hi => ?_⟩
      · obtain ⟨k, hk⟩ := (htotal n i).mp hi
        cases k with
        | zero => cases hk
        | succ k =>
          rw [rounds_succ_of_none hn] at hk
          refine computes_le rfl (fun j v hv => ?_) hk
          cases he : g.input n j with
          | none =>
            rw [he] at hv
            cases hv
          | some d =>
            rw [he] at hv
            exact readAs_le rfl (hle k d) (fun _ _ => hconst) hv
      · -- both operands have theirs after the later of two rounds
        obtain ⟨k₁, h₁⟩ := exists_round (fun n i => (htotal n i).mp) (g.input n 1)
        obtain ⟨k₂, h₂⟩ := exists_round (fun n i => (htotal n i).mp) (g.input n 2)
        refine hle (max k₁ k₂ + 1) n i ?_
        rw [rounds_succ_of_none hn]
        exact Op.apply_mono (fun v hv => readAs_rounds_le henv (Nat.le_max_left k₁ k₂) (h₁ v hv))
          (fun v hv => readAs_rounds_le henv (Nat.le_max_right k₁ k₂) (h₂ v hv)) hi
  · rw [readAs_some, Option.or_eq_some_iff, Option.map_eq_some_iff] at hv
    rcases hv with ⟨i, hi, rfl⟩ | ⟨-, hv⟩
    · obtain ⟨k, hk⟩ := (htotal n i).mp hi
      exact admits_rounds hm hgiven htypes hn hk
    · exact admits_constant htypes hn hv

end

/-- In a region of integers everything computes, if no division fails. -/
theorem IntegerRegion.exists_round (h : g.IntegerRegion env n) (henv : g.Outside env) :
    ∃ k i, g.rounds false env k n = some i := by
  induction h with
  | given h => exact ⟨1, _, by rw [rounds, h]; rfl⟩
  | @const n i h =>
    refine ⟨1, i, ?_⟩
    rw [rounds_succ_of_none (henv.eq_none_of_isInteger (by rw [h]; rfl)), computes, h]
    show (Value.ofConst? (.ofInt i)).bind Value.int? = some i
    rw [Ty.ofConst?_of_has (Ty.has_ofInt i) (beq_self_eq_true i)]
    rfl
  | @unary n x h hx _ ih =>
    obtain ⟨k, a, ha⟩ := ih
    have hread : g.readAs (g.rounds false env k) (g.input n 1) = some (.int a) :=
      hx ▸ readAs_of_vals ha
    obtain ⟨i, hi⟩ : ∃ i, (g.op n).apply false (g.readAs (g.rounds false env k) (g.input n 1))
        (g.readAs (g.rounds false env k) (g.input n 2)) = some i := by
      rw [hread]
      rcases h with h | h <;> exact ⟨_, by rw [h]; rfl⟩
    exact ⟨k + 1, i, (rounds_succ_of_none
      (henv.eq_none_of_isInteger (Op.isInteger_of_apply hi))).trans hi⟩
  | @binary n x y h hx hy _ _ ihx ihy =>
    obtain ⟨k₁, a, ha⟩ := ihx
    obtain ⟨k₂, b, hb⟩ := ihy
    have hleft : g.readAs (g.rounds false env (max k₁ k₂)) (g.input n 1) = some (.int a) :=
      hx ▸ readAs_of_vals (rounds_le henv (Nat.le_max_left k₁ k₂) ha)
    have hright : g.readAs (g.rounds false env (max k₁ k₂)) (g.input n 2) = some (.int b) :=
      hy ▸ readAs_of_vals (rounds_le henv (Nat.le_max_right k₁ k₂) hb)
    obtain ⟨i, hi⟩ : ∃ i, (g.op n).apply false
        (g.readAs (g.rounds false env (max k₁ k₂)) (g.input n 1))
        (g.readAs (g.rounds false env (max k₁ k₂)) (g.input n 2)) = some i := by
      rw [hleft, hright]
      rcases h with ⟨op, h⟩ | ⟨op, h⟩ | ⟨op, h⟩
      · cases op <;> exact ⟨_, by rw [h]; rfl⟩
      all_goals exact ⟨_, by rw [h]; rfl⟩
    exact ⟨max k₁ k₂ + 1, i, (rounds_succ_of_none
      (henv.eq_none_of_isInteger (Op.isInteger_of_apply hi))).trans hi⟩

theorem evaluates_iff (henv : g.Outside env) :
    g.Evaluates env n i ↔ ∃ k, g.rounds true env k n = some i := by
  unfold Evaluates
  simp only [evalAt_eq_rounds henv]

theorem evaluates_of_readAs (henv : g.Outside env)
    (hv : g.readAs (g.rounds true env k) (some n) = some (.int i)) : g.Evaluates env n i := by
  rw [evaluates_iff henv]
  rw [readAs_some, Option.or_eq_some_iff, Option.map_eq_some_iff] at hv
  rcases hv with ⟨j, hj, hij⟩ | ⟨-, hv⟩
  · exact ⟨k, Value.int.inj hij ▸ hj⟩
  · refine ⟨1, ?_⟩
    cases hop : g.op n with
    | const t =>
      rw [hop] at hv
      rw [rounds_succ_of_none (henv.eq_none_of_isInteger (by rw [hop]; rfl)), computes, hop]
      exact Option.bind_eq_some_iff.mpr ⟨_, hv, rfl⟩
    | _ =>
      rw [hop] at hv
      cases hv

theorem Keeps.keepsIntegers {total total' : NodeId → Option Int64} {c : Change}
    (hg : Ideal env total g) (hk : Keeps env total total' g n c) : g.KeepsIntegers env n c := by
  have henv := hg.outside
  have henv' := hk.ideal.outside
  refine ⟨fun i hi => ?_, fun m hm hm' hne i hi => ?_⟩
  · obtain ⟨k, hi⟩ := (evaluates_iff henv).mp hi
    have hv := hk.value k _ (readAs_of_vals hi)
    have htarget := hk.target
    generalize c.1 = e at hv htarget
    cases e with
    | none => exact nomatch hv
    | some m => exact ⟨m, htarget m rfl, rfl, evaluates_of_readAs henv' hv⟩
  · obtain ⟨k, hi⟩ := (evaluates_iff henv).mp hi
    exact (evaluates_iff henv').mpr ⟨k, hk.kept m hm' (mem_live.mp hm).1 hne k i hi⟩

theorem keepsIntegers_of_rounds {g' : Graph} (henv : g.Outside env) (henv' : g'.Outside env)
    (hn : n ∈ g'.live) (h : ∀ k, g'.rounds true env k = g.rounds true env k) :
    g.KeepsIntegers env n (some n, g') := by
  have heval (m : NodeId) (i : Int64) (hi : g.Evaluates env m i) : g'.Evaluates env m i := by
    obtain ⟨k, hi⟩ := (evaluates_iff henv).mp hi
    exact (evaluates_iff henv').mpr ⟨k, (h k).symm ▸ hi⟩
  exact ⟨fun i hi => ⟨n, hn, rfl, heval n i hi⟩, fun m _ _ _ i => heval m i⟩

theorem improveAll_param {simp : Simplifier} {j : Nat} (hop : g.op n = .param j) (numbering : Bool)
    (steps : Nat) (edited : Bool) :
    improveAll simp numbering n steps edited g = ⟨some n, edited, g⟩ := by
  have himprove : g.improve? simp n = none := by
    unfold improve? isFoldable isDeadControl applyRule
    rw [hop]
    rfl
  have hmerge : g.mergeEqual numbering n edited = ⟨some n, edited, g⟩ := by
    have hequal : g.equal? n = none := by
      unfold equal?
      rw [hop]
      rfl
    have hnumber : g.number n = g := by
      unfold number
      rw [hop]
      rfl
    unfold mergeEqual
    rw [hequal, hnumber]
    split_ifs <;> rfl
  cases steps with
  | zero => exact hmerge
  | succ steps =>
    rw [improveAll, himprove]
    exact hmerge

end Graph

/-- Simplifying a node of a region of integers that is typed from the operands up, whether it is typed
first or not, answers with a node that evaluates to the same integer, and every other node that was
there and still is keeps its integer. -/
theorem simplification_keeps_integers {g : Graph} {env : NodeId → Option Int64} {n : NodeId}
    (hm : g.Mirrored) (hnum : g.Numbered)
    (hgiven : ∀ m i, env m = some i →
      m ∈ g.live ∧ (g.op m).isInteger = false ∧ (g.ty (some m)).has (.int i) = true)
    (htypes : ∀ m ∈ g.live, (g.op m).isInteger = true →
      g.ty (some m) = .top ∨ g.ty (some m) = g.typeOf m)
    (hn : n ∈ g.live) (hregion : g.IntegerRegion env n)
    (hop : (g.op n).isInteger = true ∨ ∃ j, g.op n = .param j) :
    g.KeepsIntegers env n (g.peephole n) ∧ g.KeepsIntegers env n (g.simplify n) := by
  have henv := Graph.outside_of_given hgiven
  obtain ⟨total, hideal, htotal⟩ := Graph.exists_ideal hm hnum hgiven htypes
  rcases hop with hint | ⟨j, hparam⟩
  · obtain ⟨k, i, hi⟩ := hregion.exists_round henv
    have hin : (g.readAs total (some n)).isSome :=
      Option.isSome_of_eq_some (Graph.readAs_of_vals ((htotal n i).mpr ⟨k, hi⟩))
    obtain ⟨total₁, hpeephole⟩ :=
      Graph.sound_peepholeAt env (g.size + 1) g total n hideal hn hint hin
    obtain ⟨total₂, hsimplify⟩ := Graph.keeps_improveAll (Graph.sound_peepholeAt env g.size) hideal
      hn hin hint true Graph.maxLocalSteps false
    exact ⟨hpeephole.keepsIntegers hideal, hsimplify.keepsIntegers hideal⟩
  · -- a parameter is typed at most, and no rule is for it
    have hsimplify : g.simplify n = (some n, g) := by
      unfold Graph.simplify Graph.rewrite
      rw [Graph.improveAll_param hparam]
    have hpeephole : g.peephole n = (some n, g.setTy n (g.settledType n)) := by
      unfold Graph.peephole Graph.peepholeAt
      dsimp only
      rw [Graph.improveAll_param ((Graph.op_setTy ..).trans hparam)]
    have hlinks := Graph.sameLinks_setTy g n (g.settledType n)
    have henv' : (g.setTy n (g.settledType n)).Outside env := fun m i hi => by
      rw [hlinks.size, Graph.op_setTy]
      exact henv m i hi
    rw [hsimplify, hpeephole]
    exact ⟨Graph.keepsIntegers_of_rounds henv henv' (hlinks.mem_live.mpr hn)
        (Graph.rounds_eq_of_computes fun vals m => Graph.computes_setTy g n _ m),
      Graph.keepsIntegers_of_rounds henv henv hn fun _ => rfl⟩

/-- A parameter to which first three and then four is added, neither of the sums typed. -/
def twoSums : List Edit := [
  .add (.param 0) #[some 0] .anyInt,
  .const (.ofInt 3),
  .add (.arith .add) #[none, some 3, some 4] .top,
  .const (.ofInt 4),
  .add (.arith .add) #[none, some 5, some 6] .top]

theorem simplification_keeps_integers_twoSums :
    let g := (Edit.run .empty twoSums).setTy 3 .anyInt
    let env (n : NodeId) : Option Int64 := if n = 3 then some 5 else none
    g.Evaluates env 7 12 ∧ (g.peephole 7).2.op? (g.peephole 7).1 = some (.arith .add) ∧
      (g.peephole 7).1 ≠ some 7 ∧ g.KeepsIntegers env 7 (g.peephole 7) := by
  intro g env
  have hrun : Edit.SparingRun .empty twoSums := by decide +kernel
  have hlegal : Edit.LegalRun .empty twoSums := by decide +kernel
  have hm : (Edit.run .empty twoSums).Mirrored := Edit.mirrored_run Graph.mirrored_empty hlegal
  have hnum : (Edit.run .empty twoSums).Numbered :=
    (Edit.exact_run Graph.exact_empty Graph.mirrored_empty hrun).filed.entry
  have hgiven : ∀ m i, env m = some i →
      m ∈ g.live ∧ (g.op m).isInteger = false ∧ (g.ty (some m)).has (.int i) = true := by
    intro m i hi
    obtain ⟨rfl, hi⟩ := Option.ite_none_right_eq_some.mp hi
    rw [← Option.some.inj hi]
    decide +kernel
  have htypes : ∀ m ∈ g.live, (g.op m).isInteger = true →
      g.ty (some m) = .top ∨ g.ty (some m) = g.typeOf m := by
    decide +kernel
  have hregion : g.IntegerRegion env 7 :=
    .binary (.inl ⟨.add, rfl⟩) (x := 5) (y := 6) rfl rfl
      (.binary (.inl ⟨.add, rfl⟩) (x := 3) (y := 4) rfl rfl (.given (i := 5) rfl)
        (.const (i := 3) rfl)) (.const (i := 4) rfl)
  have hkept := simplification_keeps_integers (n := 7)
    (hm.congr (Graph.sameLinks_setTy _ 3 .anyInt))
    (hnum.modifyNode (f := ({ · with ty := .anyInt })) (fun _ => rfl) (fun _ => rfl) 3)
    hgiven htypes (by decide +kernel) hregion (.inl rfl)
  exact ⟨⟨3, by decide +kernel⟩, by decide +kernel, by decide +kernel, hkept.1⟩

def phiOfParameter : List Edit := [
  .add (.param 0) #[some 0] .anyInt,
  .add .region #[none, some 0] .top,
  .add .phi #[some 4, some 3] .anyInt]

/-- The phi of one value is replaced by the value, which is given another integer. -/
theorem givenPhi_replaced :
    let g := (((Edit.run .empty phiOfParameter).setTy 3 .anyInt).setTy 4 .ctrl).setTy 5 .anyInt
    let env (n : NodeId) : Option Int64 := if n = 3 then some 1 else if n = 5 then some 2 else none
    g.Mirrored ∧ g.Numbered ∧ (g.op 3 = .param 0 ∧ g.op 5 = .phi) ∧
      ((g.ty (some 3)).has (.int 1) = true ∧ (g.ty (some 5)).has (.int 2) = true) ∧
      (∀ m ∈ g.live, (g.ty (some m)) = g.typeOf m) ∧ g.IntegerRegion env 5 ∧
      (g.simplify 5).1 = some 3 ∧ ¬ g.KeepsIntegers env 5 (g.simplify 5) := by
  intro g env
  have hlegal : Edit.LegalRun .empty phiOfParameter := by decide +kernel
  have hrun : Edit.SparingRun .empty phiOfParameter := by decide +kernel
  have hnum : g.Numbered := (((Edit.exact_run Graph.exact_empty Graph.mirrored_empty hrun).filed.entry
    |>.modifyNode (f := ({ · with ty := .anyInt })) (fun _ => rfl) (fun _ => rfl) 3)
    |>.modifyNode (f := ({ · with ty := .ctrl })) (fun _ => rfl) (fun _ => rfl) 4)
    |>.modifyNode (f := ({ · with ty := .anyInt })) (fun _ => rfl) (fun _ => rfl) 5
  have hm : g.Mirrored := (((Edit.mirrored_run Graph.mirrored_empty hlegal).congr
    (Graph.sameLinks_setTy _ 3 .anyInt)).congr (Graph.sameLinks_setTy _ 4 .ctrl)).congr
    (Graph.sameLinks_setTy _ 5 .anyInt)
  have hedge : (g.simplify 5).1 = some 3 := by decide +kernel
  have hphi : g.Evaluates env 5 2 := ⟨1, by decide +kernel⟩
  refine ⟨hm, hnum, by decide +kernel, by decide +kernel, by decide +kernel, .given (i := 2) rfl, hedge,
    fun hkept => ?_⟩
  obtain ⟨m, -, hedge', k, hk⟩ := hkept.1 2 hphi
  rw [hedge] at hedge'
  obtain rfl := Option.some.inj hedge'
  cases k with
  | zero => cases hk
  | succ k =>
    have hparam : env 3 = some 1 := rfl
    rw [Graph.evalAt, hparam] at hk
    cases hk

end SeaNodes
