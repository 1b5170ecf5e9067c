import SeaNodes.Proofs.Opt.Kept

namespace SeaNodes

theorem CmpOp.evalInt_negate (op : CmpOp) (x y : Int64) :
    op.negate.1.evalInt (if op.negate.2 then y else x) (if op.negate.2 then x else y) =
      !op.evalInt x y := by
  cases op with
  | eq => rfl
  | ne => exact (Bool.not_not _).symm
  | lt => exact (decide_eq_decide.mpr Int64.not_lt.symm).trans decide_not
  | le => exact (decide_eq_decide.mpr Int64.not_le.symm).trans decide_not

namespace Graph

variable {g g' : Graph} {strict : Bool} {env total total' vals : NodeId → Option Int64} {k : Nat}
  {n m : NodeId} {e a b : Edge} {i : Int64} {v : Value} {op : Op} {t : Ty} {simp : Simplifier}

/-- Whatever the integers are, `f` makes of them what `n` does. -/
def Matches (env : NodeId → Option Int64) (g : Graph) (n : NodeId)
    (f : Bool → (NodeId → Option Int64) → Option Value) : Prop :=
  ∀ strict vals, g.Consistent strict env vals → ∀ i, g.computes strict vals n = some i →
    f strict vals = some (.int i)

/-- The simplifier never changes an integer. -/
def Sound (env : NodeId → Option Int64) (simp : Simplifier) : Prop :=
  ∀ g total n, Ideal env total g → n ∈ g.live → (g.op n).isInteger = true →
    (g.readAs total (some n)).isSome → ∃ total', Keeps env total total' g n (simp g n)

theorem Consistent.operand (hc : g.Consistent strict env vals) (hout : g.Outside env)
    (he : ∀ m ∈ e, m ∈ g.live) (hop : g.op? e = some op) (hint : op.isInteger = true)
    (hconst : op.isConst = false) (hv : g.readAs vals e = some v) :
    ∃ i, v = .int i ∧
      op.apply strict (g.readAs vals (g.inputOf e 1)) (g.readAs vals (g.inputOf e 2)) = some i := by
  cases e with
  | none => exact nomatch hop
  | some m =>
    obtain rfl := Option.some.inj hop
    rw [readAs_some, Op.constant?_eq_none hconst, Option.or_none, Option.map_eq_some_iff] at hv
    obtain ⟨i, hi, rfl⟩ := hv
    refine ⟨i, rfl, (hc.cause m (he m rfl) i hi).resolve_left fun h => ?_⟩
    rw [hout.eq_none_of_isInteger hint] at h
    exact nomatch h

theorem Consistent.readAs_of_constInt? {c : Int64} (hc : g.Consistent strict env vals)
    (hout : g.Outside env) (he : ∀ m ∈ e, m ∈ g.live) (h : g.constInt? e = some c) :
    g.readAs vals e = some (.int c) := by
  unfold constInt? at h
  split at h
  case h_2 => exact nomatch h
  case h_1 t hop =>
    have ht := Ty.ofConst?_of_int? h
    cases e with
    | none => exact nomatch hop
    | some m =>
      have hop := Option.some.inj hop
      rw [readAs_some, hop]
      cases hi : vals m with
      | none => exact ht
      | some i =>
        rcases hc.cause m (he m rfl) i hi with henv | hi
        · rw [hout.eq_none_of_isInteger (by rw [hop]; rfl)] at henv
          exact nomatch henv
        · rw [computes, hop] at hi
          exact (Op.apply_const hi).symm.trans ht

theorem Consistent.eq_of_constInt? {k y : Int64} (hc : g.Consistent strict env vals)
    (hout : g.Outside env) (he : ∀ m ∈ e, m ∈ g.live) (h : g.constInt? e = some k)
    (hy : g.readAs vals e = some (.int y)) : y = k := by
  rw [hc.readAs_of_constInt? hout he h] at hy
  exact (Value.int.inj (Option.some.inj hy)).symm

theorem exists_of_readAs (hconst : (g.op n).isConst = false)
    (hv : g.readAs vals (some n) = some v) : ∃ i, vals n = some i ∧ v = .int i := by
  rw [readAs_some, Op.constant?_eq_none hconst, Option.or_none, Option.map_eq_some_iff] at hv
  obtain ⟨i, hi, rfl⟩ := hv
  exact ⟨i, hi, rfl⟩

section

variable (hg : Ideal env total g) (hn : n ∈ g.live) (hop : (g.op n).isInteger = true)
  (hconst : (g.op n).isConst = false)

include hg hn hop hconst

theorem Matches.ideally {f : Bool → (NodeId → Option Int64) → Option Value} (hf : Matches env g n f)
    (hv : g.readAs total (some n) = some v) : f false total = some v := by
  obtain ⟨i, hi, rfl⟩ := exists_of_readAs hconst hv
  rw [hg.exact n hn, hg.outside.eq_none_of_isInteger hop, Option.none_or] at hi
  exact hf false total hg.consistent i hi

omit hn in
theorem Matches.value {f : Bool → (NodeId → Option Int64) → Option Value} (hf : Matches env g n f)
    (hv : g.readAs (g.rounds true env k) (some n) = some v) :
    ∃ j, k = j + 1 ∧ f true (g.rounds true env j) = some v := by
  obtain ⟨i, hi, rfl⟩ := exists_of_readAs hconst hv
  cases k with
  | zero => exact nomatch hi
  | succ j =>
    rw [rounds_succ_of_none (hg.outside.eq_none_of_isInteger hop)] at hi
    exact ⟨j, rfl, hf true _ (hg.consistent_rounds j) i hi⟩

theorem Matches.offers_edge (hf : Matches env g n fun _ vals => g.readAs vals e)
    (he : ∀ m ∈ e, m ∈ g.live) : Offers env total total g n (e, g) where
  ideal := hg
  size := le_rfl
  op _ _ := rfl
  same _ _ := rfl
  live _ hx _ := hx
  target := he
  ideally v hv := hf.ideally hg hn hop hconst hv
  value k v hv := by
    obtain ⟨j, rfl, hj⟩ := hf.value hg hop hconst hv
    exact readAs_rounds_mono hg.outside hj
  input _ _ _ _ := rfl

theorem Matches.offers_const (hf : Matches env g n fun _ _ => Value.ofConst? t) :
    ∃ total', Offers env total total' g n (g.constEdge t) := by
  obtain ⟨hgrown, hlive, hopc, total', hideal, hsame⟩ := hg.const t
  have hread {vals : NodeId → Option Int64} {v : Value}
      (hvals : ∀ i, vals (g.const t).1 = some i → Value.ofConst? t = some (.int i))
      (hv : Value.ofConst? t = some v) :
      (g.const t).2.readAs vals (some (g.const t).1) = some v := by
    rw [readAs_some, hopc]
    cases hi : vals (g.const t).1 with
    | none => exact hv
    | some i => exact (hvals i hi).symm.trans hv
  exact ⟨total', ⟨⟨hideal, hgrown.size, hgrown.op, hsame,
    fun x hx hlt => (hgrown.live x hlt).mp hx, fun m hm => Option.some.inj hm ▸ hlive,
    fun v hv => hread (fun i => hideal.ofConst?_of_total hlive hopc)
      (hf.ideally hg hn hop hconst hv),
    fun k v hv => by
      obtain ⟨j, -, hj⟩ := hf.value hg hop hconst hv
      exact hread (fun i => ofConst?_of_rounds hideal.outside hopc) hj⟩,
    fun x _ hlt => hgrown.input x hlt⟩⟩

theorem Matches.offers_made (hsimp : Sound env simp) {op : Op} (hopm : op.isInteger = true)
    (ha : ∀ m ∈ a, m ∈ g.live) (hb : ∀ m ∈ b, m ∈ g.live)
    (hin : (g.readAs total (some n)).isSome)
    (hf : Matches env g n fun strict vals =>
      (op.apply strict (g.readAs vals a) (g.readAs vals b)).map .int) :
    ∃ total', Offers env total total' g n
      (simp (g.add op #[none, a, b]).2 (g.add op #[none, a, b]).1) := by
  obtain ⟨hgrown, hlive, hopn, hcomputes, total₁, hideal, hsame, hlast⟩ := @Ideal.add _ _ _ hg op _ _ ha hb
  generalize (g.add op #[none, a, b]).2 = g' at *
  have hideally (v : Value) (hv : g.readAs total (some n) = some v) :
      g'.readAs total₁ (some g.size) = some v := by
    obtain ⟨i, hi, rfl⟩ := Option.map_eq_some_iff.mp (hf.ideally hg hn hop hconst hv)
    exact readAs_of_vals (hlast.trans hi)
  have hvalue (k : Nat) (v : Value) (hv : g.readAs (g.rounds true env k) (some n) = some v) :
      g'.readAs (g'.rounds true env k) (some g.size) = some v := by
    obtain ⟨j, rfl, hj⟩ := hf.value hg hop hconst hv
    obtain ⟨i, hi, rfl⟩ := Option.map_eq_some_iff.mp hj
    have hrounds {e : Edge} (he : ∀ m ∈ e, m ∈ g.live) :
        g.readAs (g'.rounds true env j) e = g.readAs (g.rounds true env j) e := by
      cases e with
      | none => rfl
      | some m =>
        rw [readAs_some, readAs_some, hgrown.rounds hg.mirrored hideal.mirrored j (he m rfl)]
    refine readAs_of_vals ?_
    rw [rounds_succ_of_none (hg.outside.eq_none_of_size_le le_rfl), hcomputes, hrounds ha,
      hrounds hb]
    exact hi
  obtain ⟨v, hv⟩ := Option.isSome_iff_exists.mp hin
  obtain ⟨total', hk⟩ := hsimp g' total₁ g.size hideal hlive (hopn ▸ hopm)
    (Option.isSome_of_eq_some (hideally v hv))
  exact ⟨total', hk.offers hg.mirrored hgrown hsame hideally hvalue⟩

theorem Matches.offers_addConst (hsimp : Sound env simp) {k : Int64} (ha : ∀ m ∈ a, m ∈ g.live)
    (hin : (g.readAs total (some n)).isSome)
    (hf : Matches env g n fun strict vals =>
      ((Op.arith .add).apply strict (g.readAs vals a) (some (.int k))).map .int) :
    ∃ total', Offers env total total' g n (addConst simp g a k) := by
  obtain ⟨hgrown, hclive, hopc, total₁, hideal, hsame⟩ := hg.const (.ofInt k)
  have hadd : addConst simp g a k =
      let g' := (g.const (.ofInt k)).2.add (.arith .add) #[none, a, some (g.const (.ofInt k)).1]
      simp g'.2 g'.1 := rfl
  rw [hadd]
  have hlt := (mem_live.mp hn).1
  have hopn := hgrown.op n hlt
  have hmeans : Matches env (g.const (.ofInt k)).2 n fun strict vals =>
      ((Op.arith .add).apply strict ((g.const (.ofInt k)).2.readAs vals a)
        ((g.const (.ofInt k)).2.readAs vals (some (g.const (.ofInt k)).1))).map .int := by
    intro strict vals hc i hi
    have hconstInt : (g.const (.ofInt k)).2.constInt? (some (g.const (.ofInt k)).1) = some k := by
      rw [constInt?, op?, hopc]
      exact if_pos rfl
    dsimp only
    rw [hc.readAs_of_constInt? hideal.outside (fun m hm => Option.some.inj hm ▸ hclive) hconstInt,
      hgrown.readAs fun m hm => (mem_live.mp (ha m hm)).1]
    rw [hgrown.computes hg.mirrored hlt] at hi
    exact hf strict vals (hgrown.consistent hg.mirrored hc) i hi
  have hin' : ((g.const (.ofInt k)).2.readAs total₁ (some n)).isSome := by
    rw [readAs_some, hopn, hsame n hlt]
    exact hin
  obtain ⟨total', ho⟩ := hmeans.offers_made hideal ((hgrown.live n hlt).mpr hn) (hopn ▸ hop)
    (hopn ▸ hconst) hsimp rfl
    (fun m hm => (hgrown.live m (mem_live.mp (ha m hm)).1).mpr (ha m hm))
    (fun m hm => Option.some.inj hm ▸ hclive) hin'
  exact ⟨total', ho.of_grown hg.mirrored hgrown hideal.mirrored hn hsame⟩

end

theorem exists_of_isA_bool {t : Ty} (ht : t ≠ .top ∧ t.isA .bool = true) (hv : t.admits v) :
    ∃ z, v = .int z ∧ (z = 0 ∨ z = 1) := by
  have hbool : Ty.bool.has v := by
    rw [← beq_iff_eq.mp ht.2]
    exact Ty.has_meet (.inl (hv.resolve_left ht.1))
  obtain ⟨z, rfl, hl, hh⟩ := Ty.exists_of_has_int hbool
  have hzero : (0 : Int64).toInt = 0 := rfl
  have hone : (1 : Int64).toInt = 1 := rfl
  refine ⟨z, rfl, ?_⟩
  rw [← Int64.toInt_inj, ← Int64.toInt_inj]
  omega

theorem eval_of_masked_zero {op : BitOp} {x y : Int64} (hop : op.isShift = true)
    (h : y &&& 63 = 0) : op.eval x y = x := by
  cases op with
  | shl =>
    rw [BitOp.eval, h]
    exact Int64.shiftLeft_zero
  | shr =>
    have hzero : (0 : Int64).toUInt64 = 0 := rfl
    rw [BitOp.eval, h, hzero, UInt64.shiftRight_zero]
    rfl
  | sar =>
    rw [BitOp.eval, h]
    exact Int64.shiftRight_zero
  | _ => cases hop

theorem Mirrored.live_input (hg : g.Mirrored) (n : NodeId) (j : Nat) :
    ∀ m ∈ g.input n j, m ∈ g.live :=
  fun _ hm => hg.live_of_input hm

theorem Mirrored.live_inputOf (hg : g.Mirrored) (e : Edge) (j : Nat) :
    ∀ m ∈ g.inputOf e j, m ∈ g.live := by
  cases e with
  | none => exact fun _ hm => nomatch hm
  | some n => exact hg.live_input n j

section

variable {c : Change} (hsimp : Sound env simp) (hg : Ideal env total g) (hn : n ∈ g.live)
  (hin : (g.readAs total (some n)).isSome)

include hsimp hg hn hin in
theorem offers_ruleArith {op : ArithOp} (hopn : g.op n = .arith op)
    (h : g.ruleArith simp op n = some c) : ∃ total', Offers env total total' g n c := by
  have hint : (g.op n).isInteger = true := by rw [hopn]; rfl
  have hconst : (g.op n).isConst = false := by rw [hopn]; rfl
  have hlive := hg.mirrored.live_input n
  have hmeans {f : Bool → (NodeId → Option Int64) → Option Value}
      (hf : ∀ strict vals, g.Consistent strict env vals → ∀ x y i,
        g.readAs vals (g.input n 1) = some (.int x) → g.readAs vals (g.input n 2) = some (.int y) →
        op.eval? strict x y = some i → f strict vals = some (.int i)) : Matches env g n f := by
    intro strict vals hc i hi
    rw [computes, hopn] at hi
    obtain ⟨x, y, hx, hy, hi⟩ := Op.apply_arith hi
    exact hf strict vals hc x y i hx hy hi
  have hright {strict : Bool} {vals : NodeId → Option Int64} {k y : Int64}
      (hc : g.Consistent strict env vals) (hk : g.constInt? (g.input n 2) = some k)
      (hy : g.readAs vals (g.input n 2) = some (.int y)) : y = k :=
    hc.eq_of_constInt? hg.outside (hlive 2) hk hy
  unfold ruleArith at h
  dsimp only at h
  cases op with
  | add =>
    dsimp only at h
    split_ifs at h with hzero
    · obtain rfl := Option.some.inj h
      refine ⟨total, Matches.offers_edge hg hn hint hconst (hmeans ?_) (hlive 1)⟩
      intro strict vals hc x y i hx hy hi
      rw [hright hc hzero hy, ArithOp.eval?, Int64.add_zero] at hi
      rw [hx, Option.some.inj hi]
    · simp only [Option.bind_eq_bind, Option.bind_eq_some_iff] at h
      obtain ⟨c₂, hc₂, u, hguard, c₁, hc₁, h⟩ := h
      obtain rfl := Option.some.inj h
      have hadd : g.op? (g.input n 1) = some (.arith .add) := by
        rw [Option.guard_eq_some'] at hguard
        exact beq_iff_eq.mp hguard
      refine Matches.offers_addConst hg hn hint hconst hsimp (hg.mirrored.live_inputOf _ 1) hin
        (hmeans ?_)
      intro strict vals hc x y i hx hy hi
      obtain ⟨x', hx', hsum⟩ := hc.operand hg.outside (hlive 1) hadd rfl rfl hx
      obtain ⟨p, q, hp, hq, hpq⟩ := Op.apply_arith hsum
      rw [hc.readAs_of_constInt? hg.outside (hg.mirrored.live_inputOf _ 2) hc₁] at hq
      rw [hp]
      rw [hright hc hc₂ hy, ArithOp.eval?, Value.int.inj hx', ← Option.some.inj hpq,
        ← Value.int.inj (Option.some.inj hq), Int64.add_assoc] at hi
      exact congrArg (Option.map Value.int) hi
  | sub =>
    dsimp only at h
    split_ifs at h with hsame
    · obtain rfl := Option.some.inj h
      refine Matches.offers_const hg hn hint hconst (hmeans ?_)
      intro strict vals hc x y i hx hy hi
      rw [← hsame, hx] at hy
      rw [ArithOp.eval?, Value.int.inj (Option.some.inj hy), Int64.sub_self] at hi
      exact congrArg (Option.map Value.int) hi
    · simp only [Option.bind_eq_bind, Option.bind_eq_some_iff] at h
      obtain ⟨k, hk, h⟩ := h
      split_ifs at h with hzero
      · obtain rfl := Option.some.inj h
        refine ⟨total, Matches.offers_edge hg hn hint hconst (hmeans ?_) (hlive 1)⟩
        intro strict vals hc x y i hx hy hi
        rw [hright hc hk hy, hzero, ArithOp.eval?, Int64.sub_zero] at hi
        rw [hx, Option.some.inj hi]
      · obtain rfl := Option.some.inj h
        refine Matches.offers_addConst hg hn hint hconst hsimp (hlive 1) hin (hmeans ?_)
        intro strict vals hc x y i hx hy hi
        rw [hright hc hk hy, ArithOp.eval?, Int64.sub_eq_add_neg] at hi
        rw [hx]
        exact congrArg (Option.map Value.int) hi
  | mul =>
    dsimp only at h
    split_ifs at h with hone
    obtain rfl := Option.some.inj h
    refine ⟨total, Matches.offers_edge hg hn hint hconst (hmeans ?_) (hlive 1)⟩
    intro strict vals hc x y i hx hy hi
    rw [hright hc hone hy, ArithOp.eval?, Int64.mul_one] at hi
    rw [hx, Option.some.inj hi]
  | div =>
    dsimp only at h
    split_ifs at h with hone
    obtain rfl := Option.some.inj h
    refine ⟨total, Matches.offers_edge hg hn hint hconst (hmeans ?_) (hlive 1)⟩
    intro strict vals hc x y i hx hy hi
    rw [hright hc hone hy, ArithOp.eval?, if_neg (fun h => by cases h.2), Int64.div_one] at hi
    rw [hx, Option.some.inj hi]

include hg hn

theorem offers_ruleBit {op : BitOp} (hopn : g.op n = .bit op) (h : g.ruleBit op n = some c) :
    ∃ total', Offers env total total' g n c := by
  have hint : (g.op n).isInteger = true := by rw [hopn]; rfl
  have hconst : (g.op n).isConst = false := by rw [hopn]; rfl
  have hlive := hg.mirrored.live_input n
  have hmeans {f : Bool → (NodeId → Option Int64) → Option Value}
      (hf : ∀ strict vals, g.Consistent strict env vals → ∀ x y,
        g.readAs vals (g.input n 1) = some (.int x) → g.readAs vals (g.input n 2) = some (.int y) →
        f strict vals = some (.int (op.eval x y))) : Matches env g n f := by
    intro strict vals hc i hi
    rw [computes, hopn] at hi
    obtain ⟨x, y, hx, hy, rfl⟩ := Op.apply_bit hi
    exact hf strict vals hc x y hx hy
  have hright {strict : Bool} {vals : NodeId → Option Int64} {k y : Int64}
      (hc : g.Consistent strict env vals) (hk : g.constInt? (g.input n 2) = some k)
      (hy : g.readAs vals (g.input n 2) = some (.int y)) : y = k :=
    hc.eq_of_constInt? hg.outside (hlive 2) hk hy
  have hsame {vals : NodeId → Option Int64} {x y : Int64} (heq : g.input n 1 = g.input n 2)
      (hx : g.readAs vals (g.input n 1) = some (.int x))
      (hy : g.readAs vals (g.input n 2) = some (.int y)) : y = x := by
    rw [← heq, hx] at hy
    exact (Value.int.inj (Option.some.inj hy)).symm
  have hleft (hf : ∀ strict vals, g.Consistent strict env vals → ∀ x y,
      g.readAs vals (g.input n 1) = some (.int x) → g.readAs vals (g.input n 2) = some (.int y) →
      op.eval x y = x) : Offers env total total g n (g.input n 1, g) := by
    refine Matches.offers_edge hg hn hint hconst (hmeans ?_) (hlive 1)
    intro strict vals hc x y hx hy
    rw [hf strict vals hc x y hx hy, hx]
  unfold ruleBit at h
  dsimp only at h
  cases op with
  | and =>
    dsimp only at h
    split_ifs at h with hcase
    obtain rfl := Option.some.inj h
    refine ⟨total, hleft fun strict vals hc x y hx hy => ?_⟩
    rcases hcase with heq | hones
    · rw [hsame heq hx hy, BitOp.eval, Int64.and_self]
    · rw [hright hc hones hy, BitOp.eval, Int64.and_neg_one]
  | or =>
    dsimp only at h
    split_ifs at h with hcase
    obtain rfl := Option.some.inj h
    refine ⟨total, hleft fun strict vals hc x y hx hy => ?_⟩
    rcases hcase with heq | hzero
    · rw [hsame heq hx hy, BitOp.eval, Int64.or_self]
    · rw [hright hc hzero hy, BitOp.eval, Int64.or_zero]
  | xor =>
    dsimp only at h
    split_ifs at h with heq hzero <;> obtain rfl := Option.some.inj h
    · refine Matches.offers_const hg hn hint hconst (hmeans ?_)
      intro strict vals hc x y hx hy
      rw [hsame heq hx hy, BitOp.eval, Int64.xor_self]
      rfl
    · refine ⟨total, hleft fun strict vals hc x y hx hy => ?_⟩
      rw [hright hc hzero hy, BitOp.eval, Int64.xor_zero]
  | shl | shr | sar =>
    dsimp only at h
    split_ifs at h with hcase
    obtain rfl := Option.some.inj h
    obtain ⟨k, hk, hzero⟩ := Option.map_eq_some_iff.mp hcase
    refine ⟨total, hleft fun strict vals hc x y hx hy => ?_⟩
    rw [hright hc hk hy]
    exact eval_of_masked_zero rfl hzero

theorem offers_ruleNeg (hopn : g.op n = .neg) (h : g.ruleNeg n = some c) :
    ∃ total', Offers env total total' g n c := by
  have hint : (g.op n).isInteger = true := by rw [hopn]; rfl
  have hconst : (g.op n).isConst = false := by rw [hopn]; rfl
  unfold ruleNeg at h
  dsimp only at h
  split_ifs at h with hneg
  obtain rfl := Option.some.inj h
  refine ⟨total, Matches.offers_edge hg hn hint hconst ?_ (hg.mirrored.live_inputOf _ 1)⟩
  intro strict vals hc i hi
  rw [computes, hopn] at hi
  obtain ⟨x, hx, rfl⟩ := Op.apply_neg hi
  obtain ⟨x', hx', hi'⟩ := hc.operand hg.outside (hg.mirrored.live_input n 1) (beq_iff_eq.mp hneg)
    rfl rfl hx
  obtain ⟨y, hy, rfl⟩ := Op.apply_neg hi'
  dsimp only
  rw [hy, Value.int.inj hx', Int64.neg_neg]

theorem offers_ruleCmp {op : CmpOp} (hopn : g.op n = .cmp op) (h : g.ruleCmp op n = some c) :
    ∃ total', Offers env total total' g n c := by
  have hint : (g.op n).isInteger = true := by rw [hopn]; rfl
  have hconst : (g.op n).isConst = false := by rw [hopn]; rfl
  unfold ruleCmp at h
  split_ifs at h with hsame
  obtain rfl := Option.some.inj h
  refine Matches.offers_const hg hn hint hconst ?_
  intro strict vals hc i hi
  rw [computes, hopn] at hi
  obtain ⟨v, w, hv, hw, rfl⟩ := Op.apply_cmp hi
  rw [← hsame, hv] at hw
  obtain rfl := Option.some.inj hw
  have hself : op.evalInt v.word v.word = (op == .eq || op == .le) := by
    cases op with
    | eq => exact beq_self_eq_true _
    | ne => exact bne_self_eq_false _
    | lt => exact decide_eq_false Int64.lt_irrefl
    | le => exact decide_eq_true Int64.le_rfl
  rw [hself]
  exact if_pos rfl

include hsimp hin

theorem offers_ruleNot (hopn : g.op n = .not) (h : g.ruleNot simp n = some c) :
    ∃ total', Offers env total total' g n c := by
  have hint : (g.op n).isInteger = true := by rw [hopn]; rfl
  have hconst : (g.op n).isConst = false := by rw [hopn]; rfl
  have hlive := hg.mirrored.live_input n 1
  have hinner := hg.mirrored.live_inputOf (g.input n 1)
  have hmeans {f : Bool → (NodeId → Option Int64) → Option Value} {op : Op}
      (hop : g.op? (g.input n 1) = some op) (hopi : op.isInteger = true)
      (hopc : op.isConst = false)
      (hf : ∀ strict vals, g.Consistent strict env vals → ∀ x,
        op.apply strict (g.readAs vals (g.inputOf (g.input n 1) 1))
          (g.readAs vals (g.inputOf (g.input n 1) 2)) = some x →
        f strict vals = some (.int (if x = 0 then 1 else 0))) : Matches env g n f := by
    intro strict vals hc i hi
    rw [computes, hopn] at hi
    obtain ⟨v, hv, rfl⟩ := Op.apply_not hi
    obtain ⟨x, rfl, hx⟩ := hc.operand hg.outside hlive hop hopi hopc hv
    rw [hf strict vals hc x hx, Ty.isTruthy_int]
    by_cases hzero : x = 0 <;> simp [hzero]
  unfold ruleNot at h
  dsimp only at h
  split at h
  case h_1 op hop =>
    obtain rfl := Option.some.inj h
    cases hswap : op.negate.2 with
    | true =>
      refine Matches.offers_made hg hn hint hconst hsimp rfl (hinner 2) (hinner 1) hin
        (hmeans hop rfl rfl fun strict vals hc x hx => ?_)
      obtain ⟨v, w, hv, hw, rfl⟩ := Op.apply_cmp hx
      have hneg := op.evalInt_negate v.word w.word
      rw [hswap, if_pos rfl, if_pos rfl] at hneg
      rw [hv, hw, Op.apply, hneg]
      cases op.evalInt v.word w.word <;> rfl
    | false =>
      refine Matches.offers_made hg hn hint hconst hsimp rfl (hinner 1) (hinner 2) hin
        (hmeans hop rfl rfl fun strict vals hc x hx => ?_)
      obtain ⟨v, w, hv, hw, rfl⟩ := Op.apply_cmp hx
      have hneg := op.evalInt_negate v.word w.word
      rw [hswap, if_neg Bool.false_ne_true, if_neg Bool.false_ne_true] at hneg
      rw [hv, hw, Op.apply, hneg]
      cases op.evalInt v.word w.word <;> rfl
  case h_2 hop =>
    split_ifs at h with hty
    obtain rfl := Option.some.inj h
    refine ⟨total, Matches.offers_edge hg hn hint hconst
      (hmeans hop rfl rfl fun strict vals hc x hx => ?_) (hinner 1)⟩
    obtain ⟨v, hv, rfl⟩ := Op.apply_not hx
    obtain ⟨z, rfl, hz⟩ : ∃ z, v = .int z ∧ (z = 0 ∨ z = 1) := by
      cases he : g.inputOf (g.input n 1) 1 with
      | none =>
        rw [he] at hv
        cases hv
      | some y =>
        rw [he] at hv hty
        exact exists_of_isA_bool hty (hc.typed y (hinner 1 y he) v hv)
    rw [hv]
    rcases hz with rfl | rfl <;> rfl
  case h_3 => cases h

theorem offers_applyRule (hint : (g.op n).isInteger = true) (h : g.applyRule simp n = some c) :
    ∃ total', c.1 = some n ∧ Keeps env total total' g n c ∨ Offers env total total' g n c := by
  unfold applyRule at h
  split_ifs at h with hswap
  · obtain rfl := Option.some.inj h
    rw [Bool.and_eq_true] at hswap
    exact ⟨total, .inl ⟨rfl, hg.swapInputs hn hswap.1⟩⟩
  · suffices ho : ∃ total', Offers env total total' g n c from ho.imp fun _ => .inr
    cases hop : g.op n with
    | arith op => exact offers_ruleArith hsimp hg hn hin hop (by rwa [hop] at h)
    | bit op => exact offers_ruleBit hg hn hop (by rwa [hop] at h)
    | neg => exact offers_ruleNeg hg hn hop (by rwa [hop] at h)
    | not => exact offers_ruleNot hsimp hg hn hin hop (by rwa [hop] at h)
    | cmp op => exact offers_ruleCmp hg hn hop (by rwa [hop] at h)
    | const t =>
      rw [hop] at h
      cases h
    | _ =>
      rw [hop] at hint
      cases hint

theorem offers_improve? (hint : (g.op n).isInteger = true) (h : g.improve? simp n = some c) :
    ∃ total', c.1 = some n ∧ Keeps env total total' g n c ∨ Offers env total total' g n c := by
  unfold improve? at h
  split_ifs at h with hfold hdead
  · obtain rfl := Option.some.inj h
    simp only [isFoldable, Bool.and_eq_true] at hfold
    have hconst : (g.op n).isConst = false := by
      cases hop : g.op n with
      | const t =>
        rw [hop] at hfold
        exact nomatch hfold.1.1
      | _ => rfl
    suffices ho : ∃ total', Offers env total total' g n (g.constEdge (g.ty (some n))) from
      ho.imp fun _ => .inr
    refine Matches.offers_const hg hn hint hconst fun strict vals hc i hi => ?_
    have hty := hfold.1.2
    rcases hc.next n hn i hi with htop | hhas
    · rw [htop] at hty
      exact nomatch hty
    · exact Ty.ofConst?_of_has hhas hty
  · -- no operator on integers is control
    unfold isDeadControl at hdead
    cases hop : g.op n <;> rw [hop] at hdead hint <;>
      first | exact absurd hint Bool.false_ne_true | exact absurd hdead Bool.false_ne_true
  · exact offers_applyRule hsimp hg hn hin hint h

omit hsimp in
/-- A node is merged with an equal one, which computes the same. -/
theorem keeps_mergeEqual (hint : (g.op n).isInteger = true) (numbering edited : Bool) :
    let r := g.mergeEqual numbering n edited
    ∃ total', Keeps env total total' g n (r.edge, r.graph) := by
  dsimp only
  unfold mergeEqual
  split_ifs
  · exact ⟨total, .refl hg hn⟩
  · split
    case h_2 => exact ⟨total, hg.number hn⟩
    case h_1 m hequal =>
      obtain ⟨hm, hne, hkey⟩ := hg.numbered.equal?_spec hequal
      have hop : g.op m = g.op n := congrArg NodeKey.op hkey
      have hinputs : g.inputs m = g.inputs n := congrArg NodeKey.inputs hkey
      have hcomputes (strict : Bool) (vals : NodeId → Option Int64) :
          g.computes strict vals m = g.computes strict vals n := by
        rw [computes, computes, hop, input_eq_getElem?, input_eq_getElem?, input_eq_getElem?,
          input_eq_getElem?, hinputs]
      have hmint : (g.op m).isInteger = true := hop ▸ hint
      -- both are operators, so neither has an integer of its own
      have htotal : total m = total n := by
        rw [hg.exact m hm, hg.exact n hn, hg.outside.eq_none_of_isInteger hint,
          hg.outside.eq_none_of_isInteger hmint, hcomputes]
      have hrounds (k : Nat) : g.rounds true env k m = g.rounds true env k n := by
        cases k with
        | zero => rfl
        | succ k =>
          rw [rounds_succ_of_none (hg.outside.eq_none_of_isInteger hint),
            rounds_succ_of_none (hg.outside.eq_none_of_isInteger hmint), hcomputes]
      have ho : Offers env total total g n (some m, g) := by
        refine ⟨⟨hg, le_rfl, fun _ _ => rfl, fun _ _ => rfl, fun _ hx _ => hx,
          fun x hx => Option.some.inj hx ▸ hm, fun v hv => ?_, fun k v hv => ?_⟩,
          fun _ _ _ _ => rfl⟩
        · rw [readAs_some, hop, htotal]
          exact hv
        · rw [readAs_some, hop, hrounds]
          exact hv
      exact ⟨total, ho.subsume hg.mirrored hn (fun h => hne (Option.some.inj h)) hin⟩

theorem keeps_improveAll (hint : (g.op n).isInteger = true) (numbering : Bool) (steps : Nat)
    (edited : Bool) :
    let r := improveAll simp numbering n steps edited g
    ∃ total', Keeps env total total' g n (r.edge, r.graph) := by
  induction steps generalizing g total edited with
  | zero => exact keeps_mergeEqual hg hn hin hint numbering edited
  | succ steps ih =>
    dsimp only
    rw [improveAll]
    split
    case h_2 => exact keeps_mergeEqual hg hn hin hint numbering edited
    case h_1 e g' himprove =>
      have hlt := (mem_live.mp hn).1
      obtain ⟨total₁, hfirst⟩ := offers_improve? hsimp hg hn hin hint himprove
      split_ifs with hself
      · have hk : Keeps env total total₁ g n (some n, g') := by
          subst hself
          rcases hfirst with ⟨-, hk⟩ | ho
          · exact hk
          · exact ho.keeps hg.mirrored
        obtain ⟨v, hv⟩ := Option.isSome_iff_exists.mp hin
        have hin' : (g'.readAs total₁ (some n)).isSome :=
          Option.isSome_of_eq_some (hk.ideally v hv)
        have hint' : (g'.op n).isInteger = true := (hk.op n hlt).symm ▸ hint
        obtain ⟨total₂, hrest⟩ := ih hk.ideal (hk.target n rfl) hin' hint' true
        exact ⟨total₂, hk.trans hrest⟩
      · rcases hfirst with ⟨he, -⟩ | ho
        · exact absurd he hself
        · exact ⟨total₁, ho.subsume hg.mirrored hn hself hin⟩

end

theorem sound_peepholeAt (env : NodeId → Option Int64) (k : Nat) : Sound env (peepholeAt k) := by
  induction k with
  | zero => exact fun g total n hg hn _ _ => ⟨total, .refl hg hn⟩
  | succ k ih =>
    intro g total n hg hn hint hin
    have htyped := hg.setTy hn hint
    obtain ⟨v, hv⟩ := Option.isSome_iff_exists.mp hin
    have hint' : ((g.setTy n (g.settledType n)).op n).isInteger = true :=
      (htyped.op n (mem_live.mp hn).1).symm ▸ hint
    obtain ⟨total', hk⟩ := keeps_improveAll ih htyped.ideal (htyped.target n rfl)
      (Option.isSome_of_eq_some (htyped.ideally v hv)) hint' true maxLocalSteps false
    exact ⟨total', htyped.trans hk⟩

end Graph

end SeaNodes
