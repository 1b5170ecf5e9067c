import SeaNodes.Opt.Rewrite
import SeaNodes.Proofs.Eval.Integers
import SeaNodes.Proofs.Graph.Edits

namespace SeaNodes

namespace Graph

variable {g g' h : Graph} {strict : Bool} {env total total' vals : NodeId → Option Int64} {k : Nat}
  {n m x : NodeId} {e : Edge} {i : Int64} {v : Value} {c : Change}

/-- Each integer is from outside or made of the others, and in the type of its node, and so are the
integers of the next round. -/
structure Consistent (g : Graph) (strict : Bool) (env vals : NodeId → Option Int64) : Prop where
  cause : ∀ n ∈ g.live, ∀ i, vals n = some i →
    env n = some i ∨ g.computes strict vals n = some i
  typed : ∀ n ∈ g.live, ∀ v, g.readAs vals (some n) = some v → (g.ty (some n)).admits v
  next : ∀ n ∈ g.live, ∀ i, g.computes strict vals n = some i → (g.ty (some n)).admits (.int i)

/-- A graph in order, of which the nodes would have the integers `total` if no division failed, all
of them in the types of their nodes. -/
structure Ideal (env total : NodeId → Option Int64) (g : Graph) : Prop where
  mirrored : g.Mirrored
  numbered : g.Numbered
  outside : g.Outside env
  bound : ∀ n, g.size ≤ n → total n = none
  exact : ∀ n ∈ g.live, total n = (env n).or (g.computes false total n)
  typed : ∀ n ∈ g.live, ∀ v, g.readAs total (some n) = some v → (g.ty (some n)).admits v

theorem rounds_succ_of_none (hn : env n = none) :
    g.rounds strict env (k + 1) n = g.computes strict (g.rounds strict env k) n := by
  rw [rounds, hn, Option.none_or]

theorem rounds_mono (henv : g.Outside env) (hi : g.rounds strict env k n = some i) :
    g.rounds strict env (k + 1) n = some i := by
  induction k generalizing n i with
  | zero => cases hi
  | succ k ih =>
    cases hn : env n with
    | some j =>
      rw [rounds, hn] at hi ⊢
      exact hi
    | none =>
      rw [rounds_succ_of_none hn] at hi ⊢
      refine computes_le rfl (fun j v hv => ?_) hi
      generalize g.input n j = e at hv
      cases e with
      | none => cases hv
      | some d => exact readAs_le rfl (fun _ => ih) (fun _ _ hop => ofConst?_of_rounds henv hop) hv

theorem readAs_rounds_mono (henv : g.Outside env) (hv : g.readAs (g.rounds strict env k) e = some v) :
    g.readAs (g.rounds strict env (k + 1)) e = some v := by
  cases e with
  | none => exact nomatch hv
  | some m =>
    exact readAs_le rfl (fun _ => rounds_mono henv) (fun _ _ hop => ofConst?_of_rounds henv hop) hv

namespace Ideal

variable (hg : Ideal env total g)

include hg

theorem ofConst?_of_total {t : Ty} (hn : n ∈ g.live) (hop : g.op n = .const t)
    (hi : total n = some i) : Value.ofConst? t = some (.int i) := by
  rw [hg.exact n hn, hg.outside.eq_none_of_isInteger (by rw [hop]; rfl), Option.none_or, computes,
    hop] at hi
  exact Op.apply_const hi

theorem total_of_rounds (hn : n ∈ g.live) (hi : g.rounds true env k n = some i) :
    total n = some i := by
  induction k generalizing n i with
  | zero => cases hi
  | succ k ih =>
    rw [hg.exact n hn]
    cases henv : env n with
    | some j =>
      rw [rounds, henv] at hi
      exact hi
    | none =>
      rw [rounds_succ_of_none henv] at hi
      refine computes_le rfl (fun j v hv => ?_) (Op.apply_lax hi)
      cases he : g.input n j with
      | none =>
        rw [he] at hv
        cases hv
      | some d =>
        rw [he] at hv
        have hd := hg.mirrored.live_of_input he
        exact readAs_le rfl (fun _ => ih hd) (fun _ _ => hg.ofConst?_of_total hd) hv

theorem consistent : g.Consistent false env total where
  cause n hn i hi := by
    rw [hg.exact n hn] at hi
    exact (Option.or_eq_some_iff.mp hi).imp id And.right
  typed := hg.typed
  next n hn i hi := by
    refine hg.typed n hn _ (readAs_of_vals ?_)
    rw [hg.exact n hn, hg.outside.eq_none_of_isInteger (Op.isInteger_of_apply hi), Option.none_or]
    exact hi

theorem admits_typeOf (hn : n ∈ g.live) (hint : (g.op n).isInteger = true)
    (hv : g.readAs total (some n) = some v) : (g.typeOf n).admits v := by
  have hoperand (j : Nat) (w : Value) (hw : g.readAs total (g.input n j) = some w) :
      (g.ty (g.input n j)).admits w := by
    cases he : g.input n j with
    | none =>
      rw [he] at hw
      exact nomatch hw
    | some d =>
      rw [he] at hw
      exact hg.typed d (hg.mirrored.live_of_input he) w hw
  rw [readAs_some, Option.or_eq_some_iff, Option.map_eq_some_iff] at hv
  rcases hv with ⟨i, hi, rfl⟩ | ⟨-, hv⟩
  · rw [hg.exact n hn, hg.outside.eq_none_of_isInteger hint, Option.none_or] at hi
    exact Graph.admits_typeOf (hoperand 1) (hoperand 2) hi
  · unfold typeOf
    dsimp only
    cases hop : g.op n with
    | const t =>
      rw [hop] at hv
      exact .inr (Ty.has_of_ofConst? hv)
    | _ =>
      rw [hop] at hv
      exact nomatch hv

theorem consistent_rounds (k : Nat) : g.Consistent true env (g.rounds true env k) where
  cause n hn i hi := by
    have hi := rounds_mono hg.outside hi
    exact (Option.or_eq_some_iff.mp hi).imp id And.right
  typed n hn v hv := hg.typed n hn v (readAs_le rfl (fun _ => hg.total_of_rounds hn)
    (fun _ _ => hg.ofConst?_of_total hn) hv)
  next n hn i hi := by
    have hnone := hg.outside.eq_none_of_isInteger (Op.isInteger_of_apply hi)
    exact hg.typed n hn _ (readAs_of_vals (hg.total_of_rounds hn ((rounds_succ_of_none hnone).trans hi)))

end Ideal

/-- Old nodes that have their operators and, as far as they live, their inputs have their integers. -/
theorem rounds_eq_of_input (hg : g.Mirrored) (hh : h.Mirrored) (hop : ∀ x < g.size, h.op x = g.op x)
    (hinput : ∀ x ∈ h.live, x < g.size → ∀ j, h.input x j = g.input x j) (k : Nat)
    (hx : x ∈ h.live) (hlt : x < g.size) :
    h.rounds strict env k x = g.rounds strict env k x := by
  induction k generalizing x with
  | zero => rfl
  | succ k ih =>
    have hreads (j : Nat) : h.readAs (h.rounds strict env k) (h.input x j) =
        g.readAs (g.rounds strict env k) (g.input x j) := by
      rw [hinput x hx hlt]
      cases he : g.input x j with
      | none => rfl
      | some d =>
        have hd : d < g.size := (mem_live.mp (hg.live_of_input he)).1
        have hdlive : d ∈ h.live := hh.live_of_input ((hinput x hx hlt j).trans he)
        rw [readAs_some, readAs_some, ih hdlive hd, hop d hd]
    rw [rounds, rounds, computes, computes, hop x hlt, hreads, hreads]

namespace Grown

variable (hgrown : g.Grown g')

include hgrown

theorem readAs (he : ∀ m ∈ e, m < g.size) : g'.readAs vals e = g.readAs vals e := by
  cases e with
  | none => rfl
  | some m => rw [readAs_some, readAs_some, hgrown.op m (he m rfl)]

variable (hg : g.Mirrored)

include hg

theorem computes (hn : n < g.size) : g'.computes strict vals n = g.computes strict vals n := by
  have hlt (j : Nat) : ∀ m ∈ g.input n j, m < g.size := fun m hm =>
    (mem_live.mp (hg.live_of_input hm)).1
  rw [Graph.computes, Graph.computes, hgrown.op n hn, hgrown.input n hn, hgrown.input n hn,
    hgrown.readAs (hlt 1), hgrown.readAs (hlt 2)]

theorem consistent (h : g'.Consistent strict env vals) : g.Consistent strict env vals where
  cause n hn i hi := by
    have hlt := (mem_live.mp hn).1
    rw [← hgrown.computes hg hlt]
    exact h.cause n ((hgrown.live n hlt).mpr hn) i hi
  typed n hn v hv := by
    have hlt := (mem_live.mp hn).1
    rw [← hgrown.ty n hlt]
    refine h.typed n ((hgrown.live n hlt).mpr hn) v ?_
    rw [hgrown.readAs fun m hm => Option.some.inj hm ▸ hlt]
    exact hv
  next n hn i hi := by
    have hlt := (mem_live.mp hn).1
    rw [← hgrown.ty n hlt]
    exact h.next n ((hgrown.live n hlt).mpr hn) i ((hgrown.computes hg hlt).trans hi)

theorem rounds (hg' : g'.Mirrored) (k : Nat) (hn : n ∈ g.live) :
    g'.rounds strict env k n = g.rounds strict env k n := by
  have hlt := (mem_live.mp hn).1
  exact rounds_eq_of_input hg hg' hgrown.op (fun x _ hlt => hgrown.input x hlt) k
    ((hgrown.live n hlt).mpr hn) hlt

end Grown

/-- What would be had stays the same when a node is made, which has what it makes of old ones. -/
theorem Ideal.exists_of_grown (hg : Ideal env total g) (hgrown : g.Grown g') (hm : g'.Mirrored)
    (hn : g'.Numbered) (hsize : g'.size = g.size + 1)
    (hinput : ∀ j d, g'.input g.size j = some d → d < g.size)
    (htyped : ∀ v, (g'.op g.size).constant? = some v ∨
      (∃ i, v = .int i ∧ g'.computes false total g.size = some i) →
      (g'.ty (some g.size)).admits v) :
    ∃ total', Ideal env total' g' ∧ (∀ n < g.size, total' n = total n) ∧
      total' g.size = g'.computes false total g.size := by
  let total' (n : NodeId) : Option Int64 :=
    if n = g.size then g'.computes false total n else total n
  have hold {n : NodeId} (hlt : n < g.size) : total' n = total n := if_neg hlt.ne
  have hnew : total' g.size = g'.computes false total g.size := if_pos rfl
  have hreads {e : Edge} (he : ∀ m ∈ e, m < g.size) : g'.readAs total' e = g'.readAs total e := by
    cases e with
    | none => rfl
    | some m => rw [readAs_some, readAs_some, hold (he m rfl)]
  have hcomputes {n : NodeId} (hlt : n < g.size + 1) :
      g'.computes false total' n = g'.computes false total n := by
    have hoperand (j : Nat) : ∀ m ∈ g'.input n j, m < g.size := fun m hm => by
      rcases Nat.lt_succ_iff_lt_or_eq.mp hlt with hlt | rfl
      · rw [hgrown.input n hlt] at hm
        exact (mem_live.mp (hg.mirrored.live_of_input hm)).1
      · exact hinput j m hm
    rw [computes, computes, hreads (hoperand 1), hreads (hoperand 2)]
  have hlast {n : NodeId} (hn : n ∈ g'.live) : n < g.size ∨ n = g.size := by
    have hlt := (mem_live.mp hn).1
    rw [hsize] at hlt
    exact Nat.lt_succ_iff_lt_or_eq.mp hlt
  refine ⟨total', ⟨hm, hn, fun n i hi => ?_, fun n hn => ?_, fun n hlive => ?_,
    fun n hlive v hv => ?_⟩, fun n hlt => hold hlt, hnew⟩
  · obtain ⟨hlt, hop⟩ := hg.outside n i hi
    exact ⟨hlt.trans_le hgrown.size, (hgrown.op n hlt).symm ▸ hop⟩
  · rw [hsize] at hn
    exact (if_neg (Nat.lt_of_succ_le hn).ne').trans (hg.bound n (Nat.le_of_succ_le hn))
  · rcases hlast hlive with hlt | rfl
    · rw [hcomputes (Nat.lt_succ_of_lt hlt), hgrown.computes hg.mirrored hlt, hold hlt]
      exact hg.exact n ((hgrown.live n hlt).mp hlive)
    · rw [hcomputes (Nat.lt_succ_self _), hg.outside.eq_none_of_size_le le_rfl, Option.none_or]
      exact hnew
  · rcases hlast hlive with hlt | rfl
    · rw [hgrown.ty n hlt]
      have hlt' : ∀ m ∈ some n, m < g.size := fun m hm => Option.some.inj hm ▸ hlt
      refine hg.typed n ((hgrown.live n hlt).mp hlive) v ?_
      rw [← hgrown.readAs hlt', ← hreads hlt']
      exact hv
    · rw [readAs_some, hnew, Option.or_eq_some_iff, Option.map_eq_some_iff] at hv
      refine htyped v (hv.symm.imp And.right ?_)
      rintro ⟨i, hi, rfl⟩
      exact ⟨i, rfl, hi⟩

theorem Ideal.const (hg : Ideal env total g) (t : Ty) :
    g.Grown (g.const t).2 ∧ (g.const t).1 ∈ (g.const t).2.live ∧
      (g.const t).2.op (g.const t).1 = .const t ∧
      ∃ total', Ideal env total' (g.const t).2 ∧ ∀ n < g.size, total' n = total n := by
  obtain ⟨hgrown, hlive, hop, -⟩ := hg.numbered.const_spec t
  refine ⟨hgrown, hlive, hop, ?_⟩
  rcases g.const_cases t with ⟨c, -, -, hsame⟩ | ⟨hc, hsize, hnode, -⟩
  · rw [hsame]
    exact ⟨total, hg, fun _ _ => rfl⟩
  · have hnew : (g.const t).2.node g.size =
        { op := .const t, inputs := #[], ty := t, numbered := true } := by
      rw [hnode, if_pos rfl]
    have hty : (g.const t).2.ty (some g.size) = t := congrArg Node.ty hnew
    have hinput (j : Nat) : (g.const t).2.input g.size j = none :=
      input_eq_none_of_inputs (congrArg Node.inputs hnew) j
    obtain ⟨total', htotal', hsame, -⟩ := hg.exists_of_grown hgrown (hg.mirrored.const t)
      (hg.numbered.const t) hsize (fun j d hd => by rw [hinput] at hd; exact nomatch hd)
      fun v hv => by
        rw [hty]
        refine .inr (Ty.has_of_ofConst? ?_)
        rw [computes, ← hc, hop] at hv
        rcases hv with hv | ⟨i, rfl, hi⟩
        · exact hv
        · exact Op.apply_const hi
    exact ⟨total', htotal', hsame⟩

/-- A new node of two operands, which is not typed yet. -/
theorem Ideal.add (hg : Ideal env total g) {op : Op} {a b : Edge} (ha : ∀ m ∈ a, m ∈ g.live)
    (hb : ∀ m ∈ b, m ∈ g.live) :
    let g' := (g.add op #[none, a, b]).2
    g.Grown g' ∧ g.size ∈ g'.live ∧ g'.op g.size = op ∧
      (∀ strict vals, g'.computes strict vals g.size =
        op.apply strict (g.readAs vals a) (g.readAs vals b)) ∧
      ∃ total', Ideal env total' g' ∧ (∀ n < g.size, total' n = total n) ∧
        total' g.size = op.apply false (g.readAs total a) (g.readAs total b) := by
  have hxs (d : NodeId) (hd : some d ∈ (#[none, a, b] : Array Edge)) : d ∈ g.live := by
    simp only [List.mem_toArray, List.mem_cons, List.not_mem_nil, or_false, reduceCtorEq,
      false_or] at hd
    rcases hd with rfl | rfl
    · exact ha d rfl
    · exact hb d rfl
  obtain ⟨hsize, hnode, -⟩ := g.add_spec op #[none, a, b] .top
  have hm := hg.mirrored.add op hxs .top
  have hn := hg.numbered.add op #[none, a, b] .top
  have hgrown : g.Grown (g.add op #[none, a, b]).2 := .add g op _ .top
  generalize (g.add op #[none, a, b]).2 = g' at *
  have hnew : g'.node g.size = { op := op, inputs := #[none, a, b], decl := .top } := by
    rw [hnode, if_pos rfl]
  have hop : g'.op g.size = op := congrArg Node.op hnew
  have hinput (j : Nat) : ∀ d, g'.input g.size j = some d → d < g.size := fun d hd => by
    have hmem := mem_inputs_of_input hd
    rw [inputs, hnew] at hmem
    exact (mem_live.mp (hxs d hmem)).1
  have hcomputes (strict : Bool) (vals : NodeId → Option Int64) :
      g'.computes strict vals g.size = op.apply strict (g.readAs vals a) (g.readAs vals b) := by
    have hfirst : g'.input g.size 1 = a := congrArg (Node.input · 1) hnew
    have hsecond : g'.input g.size 2 = b := congrArg (Node.input · 2) hnew
    rw [computes, hop, hfirst, hsecond, hgrown.readAs fun m hm => (mem_live.mp (ha m hm)).1,
      hgrown.readAs fun m hm => (mem_live.mp (hb m hm)).1]
  obtain ⟨total', htotal', hsame, hlast⟩ := hg.exists_of_grown hgrown hm hn hsize hinput
    fun v _ => .inl (congrArg Node.ty hnew)
  refine ⟨hgrown, ?_, hop, hcomputes, total', htotal', hsame, hlast.trans (hcomputes ..)⟩
  rw [mem_live, hsize]
  exact ⟨Nat.lt_succ_self _, congrArg Node.dead hnew⟩

/-- The edge of `c` stands for node `n` of `g`: it is read as the node, and no later. -/
structure StandsFor (env total total' : NodeId → Option Int64) (g : Graph) (n : NodeId)
    (c : Change) : Prop where
  ideal : Ideal env total' c.2
  size : g.size ≤ c.2.size
  op : ∀ x < g.size, c.2.op x = g.op x
  same : ∀ x < g.size, total' x = total x
  live : ∀ x ∈ c.2.live, x < g.size → x ∈ g.live
  target : ∀ m ∈ c.1, m ∈ c.2.live
  ideally : ∀ v, g.readAs total (some n) = some v → c.2.readAs total' c.1 = some v
  value : ∀ k v, g.readAs (g.rounds true env k) (some n) = some v →
    c.2.readAs (c.2.rounds true env k) c.1 = some v

/-- The answer of a rule: all other old nodes that live have their inputs. -/
structure Offers (env total total' : NodeId → Option Int64) (g : Graph) (n : NodeId) (c : Change) :
    Prop extends StandsFor env total total' g n c where
  input : ∀ x ∈ c.2.live, x < g.size → ∀ j, c.2.input x j = g.input x j

/-- The answer of simplification: only nodes that use `n` have other inputs, and all other old nodes
that live keep their integers. -/
structure Keeps (env total total' : NodeId → Option Int64) (g : Graph) (n : NodeId) (c : Change) :
    Prop extends StandsFor env total total' g n c where
  input : ∀ x ∈ c.2.live, x < g.size → x ≠ n → (∀ j, g.input x j ≠ some n) →
    ∀ j, c.2.input x j = g.input x j
  kept : ∀ x ∈ c.2.live, x < g.size → x ≠ n → ∀ k i, g.rounds true env k x = some i →
    c.2.rounds true env k x = some i

theorem Keeps.refl (hg : Ideal env total g) (hn : n ∈ g.live) :
    Keeps env total total g n (some n, g) where
  ideal := hg
  size := le_rfl
  op _ _ := rfl
  same _ _ := rfl
  live _ hx _ := hx
  target _ hm := Option.some.inj hm ▸ hn
  ideally _ hv := hv
  value _ _ hv := hv
  input _ _ _ _ _ _ := rfl
  kept _ _ _ _ _ _ hi := hi

theorem Keeps.trans {total'' : NodeId → Option Int64}
    (h : Keeps env total total' g n (some n, g')) (h' : Keeps env total' total'' g' n c) :
    Keeps env total total'' g n c where
  ideal := h'.ideal
  size := h.size.trans h'.size
  op x hx := (h'.op x (hx.trans_le h.size)).trans (h.op x hx)
  same x hx := (h'.same x (hx.trans_le h.size)).trans (h.same x hx)
  live x hx hlt := h.live x (h'.live x hx (hlt.trans_le h.size)) hlt
  target := h'.target
  ideally v hv := h'.ideally v (h.ideally v hv)
  value k v hv := h'.value k v (h.value k v hv)
  input x hx hlt hne hnot j := by
    have hx' := h'.live x hx (hlt.trans_le h.size)
    have hmiddle := h.input x hx' hlt hne hnot
    have hlast := h'.input x hx (hlt.trans_le h.size) hne fun j hj => hnot j (by rwa [← hmiddle])
    exact (hlast j).trans (hmiddle j)
  kept x hx hlt hne k i hi := by
    have hx' := h'.live x hx (hlt.trans_le h.size)
    exact h'.kept x hx (hlt.trans_le h.size) hne k i (h.kept x hx' hlt hne k i hi)

theorem rounds_eq_of_computes (h : ∀ vals n, g'.computes strict vals n = g.computes strict vals n)
    (k : Nat) : g'.rounds strict env k = g.rounds strict env k := by
  induction k with
  | zero => rfl
  | succ k ih =>
    funext n
    rw [rounds, rounds, ih, h]

/-- A node is edited in place, so that it makes the same of its operands. -/
theorem Keeps.inPlace (hideal : Ideal env total g') (hn : n ∈ g.live)
    (hsize : g'.size = g.size) (hop : ∀ x, g'.op x = g.op x)
    (hlive : ∀ x, x ∈ g'.live ↔ x ∈ g.live)
    (hinput : ∀ x ≠ n, ∀ j, g'.input x j = g.input x j)
    (hcomputes : ∀ vals, g'.computes true vals n = g.computes true vals n) :
    Keeps env total total g n (some n, g') := by
  have hreads (vals : NodeId → Option Int64) (e : Edge) : g'.readAs vals e = g.readAs vals e := by
    cases e with
    | none => rfl
    | some m => rw [readAs_some, readAs_some, hop]
  have hrounds (k : Nat) : g'.rounds true env k = g.rounds true env k := by
    refine rounds_eq_of_computes (fun vals x => ?_) k
    by_cases hx : x = n
    · rw [hx, hcomputes]
    · rw [computes, computes, hop, hinput x hx, hinput x hx, hreads, hreads]
  refine ⟨⟨hideal, hsize.ge, fun x _ => hop x, fun _ _ => rfl, fun x hx _ => (hlive x).mp hx,
    fun m hm => ?_, fun v hv => ?_, fun k v hv => ?_⟩, fun x _ _ hne _ => hinput x hne,
    fun x _ _ _ k i hi => ?_⟩
  · exact Option.some.inj hm ▸ (hlive n).mpr hn
  · rw [hreads]
    exact hv
  · rw [hreads, hrounds]
    exact hv
  · rw [hrounds]
    exact hi

namespace Offers

variable (hg : g.Mirrored) (ho : Offers env total total' g n c)

include hg ho

theorem rounds (k : Nat) (hx : x ∈ c.2.live) (hlt : x < g.size) :
    c.2.rounds strict env k x = g.rounds strict env k x :=
  rounds_eq_of_input hg ho.ideal.mirrored ho.op ho.input k hx hlt

theorem keeps : Keeps env total total' g n c where
  toStandsFor := ho.toStandsFor
  input x hx hlt _ _ := ho.input x hx hlt
  kept _ hx hlt _ k _ hi := (ho.rounds hg k hx hlt).trans hi

end Offers

theorem Ideal.of_sameBodies (hg : Ideal env total g) (hm : g'.Mirrored) (hn : g'.Numbered)
    (hsame : g.SameBodies g') (hlive : ∀ x ∈ g'.live, x ∈ g.live)
    (hcomputes : ∀ x ∈ g'.live, g'.computes false total x = g.computes false total x) :
    Ideal env total g' := by
  refine ⟨hm, hn, fun x i hi => ?_, fun x hx => hg.bound x (hsame.size ▸ hx), fun x hx => ?_,
    fun x hx v hv => ?_⟩
  · rw [hsame.size, hsame.op]
    exact hg.outside x i hi
  · rw [hcomputes x hx]
    exact hg.exact x (hlive x hx)
  · rw [hsame.ty]
    refine hg.typed x (hlive x hx) v ?_
    rw [readAs_some, ← hsame.op]
    exact hv

theorem readAs_of_sameBodies (hsame : g.SameBodies g') (e : Edge) :
    g'.readAs vals e = g.readAs vals e := by
  cases e with
  | none => rfl
  | some m => rw [readAs_some, readAs_some, hsame.op]

theorem computes_of_input (hsame : g.SameBodies g') (hinput : ∀ j, g'.input n j = g.input n j) :
    g'.computes strict vals n = g.computes strict vals n := by
  rw [computes, computes, hsame.op, hinput, hinput, readAs_of_sameBodies hsame,
    readAs_of_sameBodies hsame]

theorem Ideal.swapInputs (hg : Ideal env total g) (hn : n ∈ g.live)
    (hcomm : (g.op n).isCommutative = true) :
    Keeps env total total g n (some n, g.swapInputs n 1 2) := by
  have hrelinked := relinked_swapInputs hg.mirrored.mirror n 1 2
  have hupdated : Updated n _ g (g.swapInputs n 1 2) := g.updated_modifyNode n _
  have hsame : g.SameBodies (g.swapInputs n 1 2) := .of_updated hupdated fun _ => rfl
  have hinput (x : NodeId) (hx : x ≠ n) (j : Nat) : (g.swapInputs n 1 2).input x j = g.input x j := by
    rw [input_eq_getElem?, input_eq_getElem?, hrelinked.inputs, if_neg hx.symm]
  have hcomputes (strict : Bool) (vals : NodeId → Option Int64) :
      (g.swapInputs n 1 2).computes strict vals n = g.computes strict vals n := by
    have hinputs : (g.swapInputs n 1 2).inputs n = (g.inputs n).swapIfInBounds 1 2 := by
      rw [hrelinked.inputs, if_pos rfl]
    rw [Array.swapIfInBounds_def] at hinputs
    split_ifs at hinputs with h₁ h₂
    · have hleft : (g.swapInputs n 1 2).input n 1 = g.input n 2 := by
        rw [input_eq_getElem?, input_eq_getElem?, hinputs, Array.getElem?_swap]
        simp [h₂]
      have hright : (g.swapInputs n 1 2).input n 2 = g.input n 1 := by
        rw [input_eq_getElem?, input_eq_getElem?, hinputs, Array.getElem?_swap]
        simp [h₁]
      rw [computes, computes, hsame.op, hleft, hright, readAs_of_sameBodies hsame,
        readAs_of_sameBodies hsame]
      exact Op.apply_comm hcomm
    all_goals
      refine computes_of_input hsame fun j => ?_
      rw [input_eq_getElem?, input_eq_getElem?, hinputs]
  refine .inPlace (hg.of_sameBodies (hg.mirrored.swapInputs hn 1 2) (hupdated.numbered hg.numbered)
    hsame (fun x => hrelinked.mem_live.mp) fun x _ => ?_) hn hsame.size hsame.op
    (fun x => hrelinked.mem_live) hinput (hcomputes true)
  by_cases hx : x = n
  · rw [hx, hcomputes]
  · exact computes_of_input hsame (hinput x hx)

theorem Ideal.number (hg : Ideal env total g) (hn : n ∈ g.live) :
    Keeps env total total g n (some n, g.number n) := by
  have hlinks := SameLinks.number g n
  have hsame := SameBodies.number g n
  have hinput (x : NodeId) (j : Nat) : (g.number n).input x j = g.input x j := by
    rw [input_eq_getElem?, input_eq_getElem?, hlinks.inputs]
  exact .inPlace (hg.of_sameBodies (hg.mirrored.congr hlinks) (hg.numbered.number n) hsame
    (fun x => hlinks.mem_live.mp) fun x _ => computes_of_input hsame (hinput x)) hn hsame.size
    hsame.op (fun x => hlinks.mem_live) (fun x _ => hinput x)
    fun _ => computes_of_input hsame (hinput n)

theorem readAs_setTy (g : Graph) (n : NodeId) (t : Ty) (e : Edge) :
    (g.setTy n t).readAs vals e = g.readAs vals e := by
  cases e with
  | none => rfl
  | some m => rw [readAs_some, readAs_some, op_setTy]

theorem computes_setTy (g : Graph) (n : NodeId) (t : Ty) (x : NodeId) :
    (g.setTy n t).computes strict vals x = g.computes strict vals x := by
  rw [computes, computes, op_setTy, input_setTy, input_setTy, readAs_setTy, readAs_setTy]

theorem Ideal.setTy (hg : Ideal env total g) (hn : n ∈ g.live)
    (hint : (g.op n).isInteger = true) :
    Keeps env total total g n (some n, g.setTy n (g.settledType n)) := by
  -- only a cast keeps the type that it has
  have hsettled : g.settledType n = g.typeOf n := by
    refine if_neg fun h => ?_
    rw [h.2.1] at hint
    exact nomatch hint
  rw [hsettled]
  let typed (x : Node) : Node := { x with ty := g.typeOf n }
  have hlinks := sameLinks_setTy g n (g.typeOf n)
  have hnumbered : (g.setTy n (g.typeOf n)).Numbered :=
    hg.numbered.modifyNode (f := typed) (fun _ => rfl) (fun _ => rfl) n
  refine .inPlace ⟨hg.mirrored.congr hlinks, hnumbered, fun x i hi => ?_,
    fun x hx => hg.bound x (hlinks.size ▸ hx), fun x hx => ?_, fun x hx v hv => ?_⟩ hn hlinks.size
    (op_setTy g n _) (fun x => hlinks.mem_live) (fun x _ => input_setTy g n _ x)
    fun vals => computes_setTy g n _ n
  · rw [hlinks.size, op_setTy]
    exact hg.outside x i hi
  · rw [computes_setTy]
    exact hg.exact x (hlinks.mem_live.mp hx)
  · have hlive := hlinks.mem_live.mp hx
    rw [readAs_setTy] at hv
    by_cases hxn : x = n
    · have hty : (g.setTy n (g.typeOf n)).ty (some n) = g.typeOf n :=
        congrArg Node.ty ((node_modifyNode g n n typed).trans (if_pos ⟨rfl, (mem_live.mp hn).1⟩))
      rw [hxn] at hv ⊢
      rw [hty]
      exact hg.admits_typeOf hn hint hv
    · have hty : (g.setTy n (g.typeOf n)).ty (some x) = g.ty (some x) :=
        congrArg Node.ty ((node_modifyNode g n x typed).trans (if_neg fun h => hxn h.1.symm))
      rw [hty]
      exact hg.typed x hlive v hv

theorem Ideal.subsume (hg : Ideal env total g) (hne : e ≠ some n) (he : ∀ m ∈ e, m ∈ g.live)
    (hread : g.readAs total (some n) = g.readAs total e) : Ideal env total (g.subsume n e) := by
  have hsame := SameBodies.subsume g n e
  obtain ⟨hleft, -⟩ := subsume_spec hg.mirrored.mirror hne
  have hredirect (e' : Edge) : g.readAs total (redirect n e e') = g.readAs total e' := by
    unfold redirect
    split_ifs with h
    · rw [h, hread]
    · rfl
  refine hg.of_sameBodies (hg.mirrored.subsume he n) (hg.numbered.subsume n e) hsame
    (fun x hx => (hleft x hx).1) fun x hx => ?_
  rw [computes, computes, hsame.op, (hleft x hx).2, (hleft x hx).2, readAs_of_sameBodies hsame,
    readAs_of_sameBodies hsame, hredirect, hredirect]

/-- What is left has its integers as early as before, if the replacement has that of the node. -/
theorem rounds_subsume (hg : g.Mirrored) (henv : g.Outside env) (hne : e ≠ some n)
    (he : ∀ m ∈ e, m ∈ g.live)
    (hread : ∀ k v, n ∈ g.live → g.readAs (g.rounds true env k) (some n) = some v →
      g.readAs (g.rounds true env k) e = some v)
    (hx : x ∈ (g.subsume n e).live) (hi : g.rounds true env k x = some i) :
    (g.subsume n e).rounds true env k x = some i := by
  have hsame := SameBodies.subsume g n e
  obtain ⟨hleft, hkeep⟩ := subsume_spec hg.mirror hne
  have henv' : (g.subsume n e).Outside env := fun x i hi => by
    rw [hsame.size, hsame.op]
    exact henv x i hi
  -- an operand has its integer one round before the node has
  induction k generalizing x i with
  | zero => cases hi
  | succ k ih =>
    have hstep {d : NodeId} {v : Value} (hd : d ∈ (g.subsume n e).live)
        (hv : g.readAs (g.rounds true env k) (some d) = some v) :
        (g.subsume n e).readAs ((g.subsume n e).rounds true env k) (some d) = some v :=
      readAs_le (hsame.op d) (fun _ => ih hd) (fun _ _ hop => ofConst?_of_rounds henv' hop) hv
    cases hn : env x with
    | some j =>
      rw [rounds, hn] at hi ⊢
      exact hi
    | none =>
      rw [rounds_succ_of_none hn] at hi ⊢
      obtain ⟨hlive, hinput⟩ := hleft x hx
      refine computes_le (hsame.op x) (fun j v hv => ?_) hi
      have hmirrored := hg.subsume he n
      have hlead := hinput j
      unfold redirect at hlead
      split_ifs at hlead with hold
      · rw [hold] at hv
        have hv := hread k v (hg.live_of_input hold) hv
        rw [hlead]
        cases e with
        | none => cases hv
        | some m => exact hstep (hkeep m (he m rfl) rfl) hv
      · rw [hlead]
        cases hd : g.input x j with
        | none =>
          rw [hd] at hv
          cases hv
        | some d =>
          rw [hd] at hv hlead
          exact hstep (hmirrored.live_of_input hlead) hv

namespace Offers

/-- The node is replaced by the answer. -/
theorem subsume (hg : g.Mirrored) (hn : n ∈ g.live) (ho : Offers env total total' g n (e, h))
    (hne : e ≠ some n) (hin : (g.readAs total (some n)).isSome) :
    Keeps env total total' g n (e, h.subsume n e) := by
  have hlt := (mem_live.mp hn).1
  have hsame := SameBodies.subsume h n e
  have hh : h.Mirrored := ho.ideal.mirrored
  have htarget : ∀ m ∈ e, m ∈ h.live := ho.target
  obtain ⟨hleft, hkeep⟩ := subsume_spec hh.mirror hne
  have hold (k : Nat) (hnlive : n ∈ h.live) : h.readAs (h.rounds true env k) (some n) =
      g.readAs (g.rounds true env k) (some n) := by
    rw [readAs_some, readAs_some, ho.rounds hg k hnlive hlt, ho.op n hlt]
  have hkept {x : NodeId} {k : Nat} {i : Int64} (hx : x ∈ (h.subsume n e).live)
      (hi : h.rounds true env k x = some i) : (h.subsume n e).rounds true env k x = some i :=
    rounds_subsume hh ho.ideal.outside hne htarget
      (fun k v hnlive hv => ho.value k v ((hold k hnlive).symm.trans hv)) hx hi
  have hideal : Ideal env total' (h.subsume n e) := by
    refine ho.ideal.subsume hne htarget ?_
    obtain ⟨v, hv⟩ := Option.isSome_iff_exists.mp hin
    refine Eq.trans ?_ (ho.ideally v hv).symm
    rw [readAs_some, ho.op n hlt, ho.same n hlt]
    exact hv
  have hread {vals vals' : NodeId → Option Int64} {v : Value}
      (hvals : ∀ m ∈ (h.subsume n e).live, ∀ i, vals m = some i → vals' m = some i)
      (hconst : ∀ m ∈ (h.subsume n e).live, ∀ t i, (h.subsume n e).op m = .const t →
        vals' m = some i → Value.ofConst? t = some (.int i))
      (hv : h.readAs vals e = some v) : (h.subsume n e).readAs vals' e = some v := by
    cases e with
    | none => exact nomatch hv
    | some m =>
      have hm := hkeep m (htarget m rfl) rfl
      exact readAs_le (hsame.op m) (hvals m hm) (hconst m hm) hv
  refine ⟨⟨hideal, hsame.size ▸ ho.size, fun x hx => (hsame.op x).trans (ho.op x hx), ho.same,
    fun x hx hlt => ho.live x (hleft x hx).1 hlt, fun m hm => hkeep m (htarget m hm) hm,
    fun v hv => ?_, fun k v hv => ?_⟩, fun x hx hlt _ hnot j => ?_, fun x hx hlt _ k i hi => ?_⟩
  · exact hread (fun _ _ _ => id) (fun _ hm _ _ => hideal.ofConst?_of_total hm) (ho.ideally v hv)
  · exact hread (fun _ hm _ => hkept hm)
      (fun _ _ _ _ hop => ofConst?_of_rounds hideal.outside hop) (ho.value k v hv)
  · refine ((hleft x hx).2 j).trans ?_
    have hinput : h.input x j = g.input x j := ho.input x (hleft x hx).1 hlt j
    rw [hinput, redirect, if_neg (hnot j)]
  · exact hkept hx ((ho.rounds hg k (hleft x hx).1 hlt).trans hi)

theorem of_grown {total₁ : NodeId → Option Int64} (hg : g.Mirrored) (hgrown : g.Grown g')
    (hg' : g'.Mirrored) (hn : n ∈ g.live) (hsame : ∀ x < g.size, total₁ x = total x)
    (ho : Offers env total₁ total' g' n c) : Offers env total total' g n c where
  ideal := ho.ideal
  size := hgrown.size.trans ho.size
  op x hx := (ho.op x (hx.trans_le hgrown.size)).trans (hgrown.op x hx)
  same x hx := (ho.same x (hx.trans_le hgrown.size)).trans (hsame x hx)
  live x hx hlt := (hgrown.live x hlt).mp (ho.live x hx (hlt.trans_le hgrown.size))
  target := ho.target
  ideally v hv := by
    have hlt := (mem_live.mp hn).1
    refine ho.ideally v ?_
    rw [readAs_some, hgrown.op n hlt, hsame n hlt]
    exact hv
  value k v hv := by
    refine ho.value k v ?_
    rw [readAs_some, hgrown.op n (mem_live.mp hn).1, hgrown.rounds hg hg' k hn]
    exact hv
  input x hx hlt j :=
    (ho.input x hx (hlt.trans_le hgrown.size) j).trans (hgrown.input x hlt j)

end Offers

theorem Keeps.offers {total₁ : NodeId → Option Int64} (hg : g.Mirrored) (hgrown : g.Grown g')
    (hsame : ∀ x < g.size, total₁ x = total x)
    (hideally : ∀ v, g.readAs total (some n) = some v → g'.readAs total₁ (some g.size) = some v)
    (hvalue : ∀ k v, g.readAs (g.rounds true env k) (some n) = some v →
      g'.readAs (g'.rounds true env k) (some g.size) = some v)
    (hk : Keeps env total₁ total' g' g.size c) : Offers env total total' g n c where
  ideal := hk.ideal
  size := hgrown.size.trans hk.size
  op x hx := (hk.op x (hx.trans_le hgrown.size)).trans (hgrown.op x hx)
  same x hx := (hk.same x (hx.trans_le hgrown.size)).trans (hsame x hx)
  live x hx hlt := (hgrown.live x hlt).mp (hk.live x hx (hlt.trans_le hgrown.size))
  target := hk.target
  ideally v hv := hk.ideally v (hideally v hv)
  value k v hv := hk.value k v (hvalue k v hv)
  input x hx hlt j := by
    have hold := hgrown.input x hlt
    refine (hk.input x hx (hlt.trans_le hgrown.size) hlt.ne (fun j hj => ?_) j).trans (hold j)
    rw [hold] at hj
    exact absurd (mem_live.mp (hg.live_of_input hj)).1 (Nat.lt_irrefl g.size)

end Graph

end SeaNodes
