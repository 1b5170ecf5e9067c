import SeaNodes.Proofs.Graph.Filed
import SeaNodes.Proofs.Lattice.Members

namespace SeaNodes

/-- The integer that a value is. -/
def Value.int? : Value → Option Int64
  | .int i => some i
  | _ => none

/-- The result on two words. Division by zero has none if `strict`, and else gives zero. -/
def ArithOp.eval? (strict : Bool) : ArithOp → Int64 → Int64 → Option Int64
  | .add, a, b => some (a + b)
  | .sub, a, b => some (a - b)
  | .mul, a, b => some (a * b)
  | .div, a, b => if strict ∧ b = 0 then none else some (a / b)

theorem Activation.arith_toOption (n : NodeId) (op : ArithOp) (a b : Int64) :
    (arith n op a b).toOption = (op.eval? true a b).map .int := by
  cases op with
  | div =>
    rw [arith, ArithOp.eval?]
    simp only [true_and]
    split_ifs <;> rfl
  | _ => rfl

/-- The type of a result holds it even if it is that of a division by zero. -/
theorem Ty.has_eval? {strict : Bool} {op : ArithOp} {a b : Ty} {x y i : Int64}
    (ha : a.has (.int x)) (hb : b.has (.int y)) (h : op.eval? strict x y = some i) :
    (a.arith op b).has (.int i) := by
  by_cases hzero : op = .div ∧ y = 0
  · obtain ⟨rfl, rfl⟩ := hzero
    unfold arith
    split
    case h_1 => exact nomatch ha
    case h_2 => exact nomatch hb
    case h_3 al ah bl bh =>
      dsimp only
      split_ifs with hconst
      · simp only [Bool.and_eq_true, beq_iff_eq, bne_iff_ne] at hconst
        obtain ⟨⟨-, rfl⟩, hne⟩ := hconst
        exact absurd (Value.int.inj (eq_of_has_ofInt hb)).symm hne
      · exact has_anyInt i
    case h_4 => exact has_anyInt i
  · refine @has_arith _ _ _ _ _ 0 op ha hb ?_
    cases op with
    | div =>
      have hy : y ≠ 0 := fun hy => hzero ⟨rfl, hy⟩
      rw [ArithOp.eval?, if_neg fun h => hy h.2] at h
      rw [Activation.arith, if_neg hy, ← Option.some.inj h]
    | _ => exact congrArg (Except.ok ∘ Value.int) (Option.some.inj h)

namespace Op

/-- Computes an integer from integers, from references or from nothing. -/
def isInteger : Op → Bool
  | .const _ | .arith _ | .bit _ | .neg | .not | .cmp _ => true
  | _ => false

/-- What an operator makes of its operands, as far as there are any. -/
def apply (strict : Bool) : Op → Option Value → Option Value → Option Int64
  | .const t, _, _ => (Value.ofConst? t).bind Value.int?
  | .arith op, some (.int a), some (.int b) => op.eval? strict a b
  | .bit op, some (.int a), some (.int b) => some (op.eval a b)
  | .neg, some (.int a), _ => some (-a)
  | .not, some v, _ => some (if v.isTruthy then 0 else 1)
  | .cmp op, some v, some w => some (if op.evalInt v.word w.word then 1 else 0)
  | _, _, _ => none

def constant? : Op → Option Value
  | .const t => Value.ofConst? t
  | _ => none

variable {strict : Bool} {op : Op} {x y x' y' : Option Value} {i : Int64}

theorem constant?_eq_none (h : op.isConst = false) : op.constant? = none := by
  cases op <;> first | rfl | exact nomatch h

theorem isInteger_of_apply (h : op.apply strict x y = some i) : op.isInteger = true := by
  cases op <;> first | rfl | exact nomatch h

theorem apply_const {t : Ty} (h : (Op.const t).apply strict x y = some i) :
    Value.ofConst? t = some (.int i) := by
  obtain ⟨v, hv, hi⟩ := Option.bind_eq_some_iff.mp h
  cases v with
  | int j => rw [hv, Option.some.inj hi]
  | _ => exact nomatch hi

theorem apply_arith {op : ArithOp} (h : (Op.arith op).apply strict x y = some i) :
    ∃ a b, x = some (.int a) ∧ y = some (.int b) ∧ op.eval? strict a b = some i := by
  unfold apply at h
  split at h <;> simp_all

theorem apply_bit {op : BitOp} (h : (Op.bit op).apply strict x y = some i) :
    ∃ a b, x = some (.int a) ∧ y = some (.int b) ∧ i = op.eval a b := by
  unfold apply at h
  split at h <;> simp_all

theorem apply_neg (h : Op.neg.apply strict x y = some i) : ∃ a, x = some (.int a) ∧ i = -a := by
  unfold apply at h
  split at h <;> simp_all

theorem apply_not (h : Op.not.apply strict x y = some i) :
    ∃ v, x = some v ∧ i = if v.isTruthy then 0 else 1 := by
  unfold apply at h
  split at h <;> simp_all

theorem apply_cmp {op : CmpOp} (h : (Op.cmp op).apply strict x y = some i) :
    ∃ v w, x = some v ∧ y = some w ∧ i = if op.evalInt v.word w.word then 1 else 0 := by
  unfold apply at h
  split at h <;> simp_all

theorem apply_mono (hx : ∀ v, x = some v → x' = some v) (hy : ∀ v, y = some v → y' = some v)
    (h : op.apply strict x y = some i) : op.apply strict x' y' = some i := by
  cases op with
  | const => exact h
  | arith op =>
    obtain ⟨a, b, ha, hb, hi⟩ := apply_arith h
    rw [hx _ ha, hy _ hb]
    exact hi
  | bit op =>
    obtain ⟨a, b, ha, hb, rfl⟩ := apply_bit h
    rw [hx _ ha, hy _ hb]
    rfl
  | neg =>
    obtain ⟨a, ha, rfl⟩ := apply_neg h
    rw [hx _ ha]
    rfl
  | not =>
    obtain ⟨v, hv, rfl⟩ := apply_not h
    rw [hx _ hv]
    rfl
  | cmp op =>
    obtain ⟨v, w, hv, hw, rfl⟩ := apply_cmp h
    rw [hx _ hv, hy _ hw]
    rfl
  | _ => exact nomatch h

theorem apply_lax (h : op.apply true x y = some i) : op.apply false x y = some i := by
  cases op with
  | arith op =>
    obtain ⟨a, b, rfl, rfl, hi⟩ := apply_arith h
    cases op with
    | div =>
      change (if true = true ∧ b = 0 then none else some (a / b)) = some i at hi
      split_ifs at hi
      exact hi
    | _ => exact h
  | bit op =>
    obtain ⟨a, b, rfl, rfl, rfl⟩ := apply_bit h
    rfl
  | neg =>
    obtain ⟨a, rfl, rfl⟩ := apply_neg h
    rfl
  | not =>
    obtain ⟨v, rfl, rfl⟩ := apply_not h
    rfl
  | cmp op =>
    obtain ⟨v, w, rfl, rfl, rfl⟩ := apply_cmp h
    rfl
  | const => exact h
  | _ => exact nomatch h

theorem apply_swap (hop : op.isCommutative = true) (h : op.apply strict x y = some i) :
    op.apply strict y x = some i := by
  cases op with
  | arith op =>
    obtain ⟨a, b, rfl, rfl, hi⟩ := apply_arith h
    cases op with
    | add => exact (congrArg some (Int64.add_comm b a)).trans hi
    | mul => exact (congrArg some (Int64.mul_comm b a)).trans hi
    | _ => exact nomatch hop
  | bit op =>
    obtain ⟨a, b, rfl, rfl, rfl⟩ := apply_bit h
    cases op with
    | and => exact congrArg some (Int64.and_comm b a)
    | or => exact congrArg some (Int64.or_comm b a)
    | xor => exact congrArg some (Int64.xor_comm b a)
    | _ => exact nomatch hop
  | cmp op =>
    obtain ⟨v, w, rfl, rfl, rfl⟩ := apply_cmp h
    have hswap : op.evalInt w.word v.word = op.evalInt v.word w.word := by
      cases op with
      | eq => exact Bool.beq_comm
      | ne => exact congrArg Bool.not Bool.beq_comm
      | _ => exact nomatch hop
    exact congrArg (fun c : Bool => some (if c then (1 : Int64) else 0)) hswap
  | const | neg | not => exact nomatch hop
  | _ => exact nomatch h

theorem apply_comm (hop : op.isCommutative = true) : op.apply strict x y = op.apply strict y x :=
  Option.ext fun _ => ⟨apply_swap hop, apply_swap hop⟩

end Op

namespace Ty

/-- The value is a member of the type, if that is known. -/
def admits (t : Ty) (v : Value) : Prop := t = .top ∨ t.has v = true

theorem ofConst?_of_int? {t : Ty} {i : Int64} (h : t.int? = some i) :
    Value.ofConst? t = some (.int i) := by
  cases t with
  | int lo hi =>
    change (if lo = hi then some lo else none) = some i at h
    change (if lo = hi then some (Value.int lo) else none) = some (.int i)
    split_ifs at h ⊢
    rw [Option.some.inj h]
  | _ => exact nomatch h

theorem ofConst?_of_has {t : Ty} {v : Value} (h : t.has v = true) (hconst : t.isConstant = true) :
    Value.ofConst? t = some v := by
  cases t with
  | int lo hi =>
    obtain rfl := beq_iff_eq.mp hconst
    rw [eq_of_has_ofInt h]
    exact if_pos rfl
  | float x =>
    cases x with
    | none => exact nomatch hconst
    | some x =>
      cases v with
      | float y => exact congrArg (fun x => some (Value.float x)) (beq_iff_eq.mp h)
      | _ => exact nomatch h
  | ptr o nil =>
    obtain rfl := beq_iff_eq.mp hconst
    cases v with
    | ref p => cases p <;> first | rfl | exact nomatch h
    | _ => exact nomatch h
  | fn f =>
    cases f with
    | none => exact nomatch hconst
    | some f =>
      cases v with
      | fn i => exact congrArg (fun i => some (Value.fn i)) (beq_iff_eq.mp h)
      | _ => exact nomatch h
  | _ => exact nomatch hconst

theorem admits_binary {f : Ty → Ty → Ty} {a b : Ty} {v w r : Value} (ha : a.admits v)
    (hb : b.admits w) (hleft : f .top b = .top) (hright : f a .top = .top)
    (h : a.has v = true → b.has w = true → (f a b).has r = true) : (f a b).admits r := by
  rcases ha with rfl | ha
  · exact .inl hleft
  rcases hb with rfl | hb
  · exact .inl hright
  · exact .inr (h ha hb)

theorem admits_unary {f : Ty → Ty} {a : Ty} {v r : Value} (ha : a.admits v)
    (htop : f .top = .top) (h : a.has v = true → (f a).has r = true) : (f a).admits r := by
  rcases ha with rfl | ha
  · exact .inl htop
  · exact .inr (h ha)

end Ty

namespace Graph

/-- What an edge is read as when nodes have got these integers. Constants can always be read. -/
def readAs (g : Graph) (vals : NodeId → Option Int64) (e : Edge) : Option Value :=
  e.bind fun n => ((vals n).map .int).or (g.op n).constant?

/-- What a node makes of its operands. -/
def computes (g : Graph) (strict : Bool) (vals : NodeId → Option Int64) (n : NodeId) :
    Option Int64 :=
  (g.op n).apply strict (g.readAs vals (g.input n 1)) (g.readAs vals (g.input n 2))

/-- The state of a run in which nodes have got these integers. -/
def activation (g : Graph) (vals : NodeId → Option Int64) : Activation where
  routine := { graph := g, schedule := default }
  args := #[]
  depth := 0
  values := Array.ofFn fun n : Fin g.size => (vals n).map .int

/-- The integer that a node has after so many rounds, where `env` gives those from outside. -/
def evalAt (g : Graph) (env : NodeId → Option Int64) : Nat → NodeId → Option Int64
  | 0, _ => none
  | k + 1, n =>
    match env n with
    | some i => some i
    | none =>
      if (g.op n).isInteger then
        (((g.activation (g.evalAt env k)).pureValue n).toOption.join).bind Value.int?
      else none

def Evaluates (g : Graph) (env : NodeId → Option Int64) (n : NodeId) (i : Int64) : Prop :=
  ∃ k, g.evalAt env k n = some i

variable {g : Graph} {strict : Bool} {env vals vals' : NodeId → Option Int64} {k : Nat} {n : NodeId} {e : Edge}
  {i : Int64}

theorem readAs_some : g.readAs vals (some n) = ((vals n).map .int).or (g.op n).constant? := rfl

@[simp] theorem readAs_none : g.readAs vals none = none := rfl

theorem readAs_of_vals (h : vals n = some i) : g.readAs vals (some n) = some (.int i) := by
  rw [readAs_some, h]
  rfl

/-- A node with the same operator that has no fewer integers, and its own if it is a constant, is read
as the same. -/
theorem readAs_le {h : Graph} (hop : h.op n = g.op n) (hvals : ∀ i, vals n = some i → vals' n = some i)
    (hconst : ∀ t i, h.op n = .const t → vals' n = some i → Value.ofConst? t = some (.int i))
    {v : Value} (hv : g.readAs vals (some n) = some v) : h.readAs vals' (some n) = some v := by
  rw [readAs_some] at hv ⊢
  rw [hop]
  cases hn : vals n with
  | some i =>
    rw [hn] at hv
    rw [hvals i hn]
    exact hv
  | none =>
    rw [hn, Option.map_none, Option.none_or] at hv
    cases hn' : vals' n with
    | none => exact hv
    | some i =>
      cases ht : g.op n with
      | const t =>
        rw [ht] at hv
        rw [← hv]
        exact (hconst t i (hop.trans ht) hn').symm
      | _ =>
        rw [ht] at hv
        exact nomatch hv

theorem computes_le {h : Graph} (hop : h.op n = g.op n)
    (hreads : ∀ j v, g.readAs vals (g.input n j) = some v → h.readAs vals' (h.input n j) = some v)
    (hi : g.computes strict vals n = some i) : h.computes strict vals' n = some i := by
  rw [computes, hop]
  exact Op.apply_mono (hreads 1) (hreads 2) hi

theorem toOption_get (hsize : ∀ m, g.size ≤ m → vals m = none) :
    ((g.activation vals).get e).toOption = g.readAs vals e := by
  cases e with
  | none => rfl
  | some m =>
    have hvalue : (g.activation vals).values.getD m none = (vals m).map .int := by
      rcases Nat.lt_or_ge m g.size with hlt | hge
      · simp [activation, Array.getD_eq_getD_getElem?, hlt]
      · rw [hsize m hge]
        simp [activation, Array.getD_eq_getD_getElem?, Nat.not_lt.mpr hge]
    rw [readAs_some, Activation.get, Option.bind_some, hvalue]
    cases vals m with
    | some i => rfl
    | none =>
      have hgraph : (g.activation vals).graph = g := rfl
      rw [Option.map_none, Option.none_or, hgraph, op?]
      cases hop : g.op m with
      | const t =>
        dsimp only
        rw [Op.constant?]
        cases Value.ofConst? t <;> rfl
      | _ => rfl

/-- The step of the evaluator for an operator on integers. -/
theorem pureValue_activation (hsize : ∀ m, g.size ≤ m → vals m = none)
    (hop : (g.op n).isInteger = true) :
    (((g.activation vals).pureValue n).toOption.join).bind Value.int? = g.computes true vals n := by
  have hget (e : Edge) := toOption_get (e := e) hsize
  rw [computes, ← hget, ← hget]
  have hgraph : (g.activation vals).graph = g := rfl
  generalize g.activation vals = a at hgraph
  subst hgraph
  unfold Activation.pureValue
  dsimp only
  generalize a.graph.op n = op at hop
  generalize a.graph.input n 1 = x, a.graph.input n 2 = y
  cases op with
  | const t =>
    dsimp only
    rw [Op.apply]
    cases Value.ofConst? t <;> rfl
  | arith op =>
    unfold Activation.getInt
    cases a.get x with
    | error => rfl
    | ok v =>
      cases v with
      | int i =>
        cases a.get y with
        | error => rfl
        | ok w =>
          cases w with
          | int j =>
            have hresult := Activation.arith_toOption n op i j
            show ((bind (Activation.arith n op i j) _ : Except _ _).toOption.join).bind _ =
              op.eval? true i j
            cases hv : Activation.arith n op i j with
            | error =>
              rw [hv] at hresult
              exact (Option.map_eq_none_iff.mp hresult.symm).symm
            | ok v =>
              rw [hv] at hresult
              obtain ⟨r, hr, rfl⟩ := Option.map_eq_some_iff.mp hresult.symm
              exact hr.symm
          | _ => rfl
      | _ => rfl
  | bit op =>
    unfold Activation.getInt
    cases a.get x with
    | error => rfl
    | ok v =>
      cases v with
      | int i =>
        cases a.get y with
        | error => rfl
        | ok w => cases w <;> rfl
      | _ => rfl
  | neg =>
    cases a.get x with
    | error => rfl
    | ok v => cases v <;> rfl
  | not =>
    cases a.get x with
    | error => rfl
    | ok v =>
      show some (if (!v.isTruthy) = true then (1 : Int64) else 0) = some _
      cases v.isTruthy <;> rfl
  | cmp op =>
    cases a.get x with
    | error => rfl
    | ok v =>
      cases a.get y with
      | error => rfl
      | ok w => rfl
  | _ => exact nomatch hop

/-- What a node makes of members of the types of its operands is in the type computed for it. -/
theorem admits_typeOf
    (hx : ∀ v, g.readAs vals (g.input n 1) = some v → (g.ty (g.input n 1)).admits v)
    (hy : ∀ v, g.readAs vals (g.input n 2) = some v → (g.ty (g.input n 2)).admits v)
    (h : g.computes strict vals n = some i) : (g.typeOf n).admits (.int i) := by
  unfold computes at h
  unfold typeOf
  dsimp only
  cases hop : g.op n with
  | const t =>
    rw [hop] at h
    exact .inr (Ty.has_of_ofConst? (Op.apply_const h))
  | arith op =>
    rw [hop] at h
    obtain ⟨a, b, ha, hb, hi⟩ := Op.apply_arith h
    exact Ty.admits_binary (hx _ ha) (hy _ hb) rfl (by cases g.ty (g.input n 1) <;> rfl)
      fun h₁ h₂ => Ty.has_eval? h₁ h₂ hi
  | bit op =>
    rw [hop] at h
    obtain ⟨a, b, ha, hb, rfl⟩ := Op.apply_bit h
    exact Ty.admits_binary (f := Ty.bit op) (hx _ ha) (hy _ hb) (if_pos (.inl rfl))
      (if_pos (.inr rfl)) Ty.has_bit
  | neg =>
    rw [hop] at h
    obtain ⟨a, ha, rfl⟩ := Op.apply_neg h
    exact Ty.admits_unary (f := Ty.neg) (hx _ ha) rfl Ty.has_neg
  | not =>
    rw [hop] at h
    obtain ⟨v, hv, rfl⟩ := Op.apply_not h
    refine Ty.admits_unary (f := Ty.not) (hx _ hv) rfl fun h₁ => ?_
    have hresult := Ty.has_not h₁
    cases htruth : v.isTruthy with
    | _ => rwa [htruth] at hresult
  | cmp op =>
    rw [hop] at h
    obtain ⟨v, w, hv, hw, rfl⟩ := Op.apply_cmp h
    exact Ty.admits_binary (hx _ hv) (hy _ hw) rfl (by cases g.ty (g.input n 1) <;> rfl) Ty.has_cmp
  | _ =>
    rw [hop] at h
    exact nomatch h

/-- The integers after so many rounds, where `env` gives those from outside. -/
def rounds (g : Graph) (strict : Bool) (env : NodeId → Option Int64) :
    Nat → NodeId → Option Int64
  | 0, _ => none
  | k + 1, n => (env n).or (g.computes strict (g.rounds strict env k) n)

/-- What is given from outside is given to nodes that compute nothing. -/
def Outside (g : Graph) (env : NodeId → Option Int64) : Prop :=
  ∀ n i, env n = some i → n < g.size ∧ (g.op n).isInteger = false

section

variable (henv : g.Outside env)

include henv

theorem Outside.eq_none_of_isInteger (hop : (g.op n).isInteger = true) : env n = none := by
  by_contra hsome
  obtain ⟨i, hi⟩ := Option.ne_none_iff_exists'.mp hsome
  rw [(henv n i hi).2] at hop
  exact nomatch hop

theorem Outside.eq_none_of_size_le (h : g.size ≤ n) : env n = none := by
  by_contra hsome
  obtain ⟨i, hi⟩ := Option.ne_none_iff_exists'.mp hsome
  exact absurd (henv n i hi).1 (Nat.not_lt_of_le h)

theorem rounds_of_size_le (h : g.size ≤ n) (k : Nat) : g.rounds strict env k n = none := by
  cases k with
  | zero => rfl
  | succ k =>
    rw [rounds, henv.eq_none_of_size_le h, computes, op_of_size_le h]
    rfl

theorem evalAt_eq_rounds (k : Nat) : g.evalAt env k = g.rounds true env k := by
  induction k with
  | zero => rfl
  | succ k ih =>
    funext n
    rw [evalAt, rounds, ih]
    cases hn : env n with
    | some i => rfl
    | none =>
      dsimp only
      rw [Option.none_or]
      split_ifs with hop
      · exact pureValue_activation (fun m hm => rounds_of_size_le henv hm k) hop
      · cases h : g.computes true (g.rounds true env k) n with
        | none => rfl
        | some i => exact absurd (Op.isInteger_of_apply h) hop

theorem ofConst?_of_rounds {t : Ty} (hop : g.op n = .const t) (h : g.rounds strict env k n = some i) :
    Value.ofConst? t = some (.int i) := by
  cases k with
  | zero => exact nomatch h
  | succ k =>
    rw [rounds, henv.eq_none_of_isInteger (by rw [hop]; rfl), Option.none_or, computes, hop] at h
    exact Op.apply_const h

end

end Graph

end SeaNodes
