import SeaNodes.Proofs.Machine.Arguments
import SeaNodes.Proofs.Select.Filling
import SeaNodes.Proofs.Tables

namespace SeaNodes

variable {τ : Type}

namespace Graph

def valueInputs (g : Graph) (n : NodeId) : List Edge :=
  match g.op n with
  | .cast | .neg | .toFloat | .not | .fork => [g.input n 1]
  | .arith _ | .bit _ | .floatArith _ | .cmp _ | .floatCmp _ => [g.input n 1, g.input n 2]
  | .load => [g.input n 2, g.input n 3]
  | .store => [g.input n 2, g.input n 3, g.input n 4]
  | .alloc => [g.input n 2]
  | .call => (g.inputs n).toList.drop 3
  | .ret => (g.returned? n).toList.map some
  | _ => []

/-- What a test of a value reads: the operands of a comparison, else the value itself. -/
def tested (g : Graph) (e : Edge) : List Edge :=
  match g.op? e with
  | some (.cmp _) | some (.floatCmp _) => [g.inputOf e 1, g.inputOf e 2]
  | _ => [e]

def valuesRead (g : Graph) (n : NodeId) : List Edge :=
  if g.op n = .fork then g.tested (g.input n 1) else g.valueInputs n

/-- The node that gets a register where `n` is selected. -/
def defines? (g : Graph) (n : NodeId) : Option NodeId :=
  match g.op n with
  | .phi => if g.ty (some n) ≠ .mem then some n else none
  | .cast | .arith _ | .bit _ | .floatArith _ | .neg | .not | .toFloat | .load | .alloc => some n
  | .cmp _ | .floatCmp _ => if g.isFused n then none else some n
  | .call => g.callResult? n
  | _ => none

end Graph

namespace Select

variable {isa : Isa τ} {g : Graph} {n r : NodeId} {e : Edge}
  {K : VReg → Prop} {others loose : Multiset VReg} {st₀ st st' : State τ} {op : MachOp τ}

/-- The instructions of a node were selected: if the node defines the value of `r`, it has a register
that is known from then on. -/
def Outcome (K : VReg → Prop) (others loose : Multiset VReg) (st₀ : State τ) (r : Option NodeId)
    (st : State τ) : Prop :=
  match r with
  | none => Filling K others st₀ st₀.values loose st
  | some r => ∃ v, Filling K others st₀ (st₀.values.set r (some v)) loose st ∧ st.Knows K v

theorem meets_emitValue {inputs : List Edge} (hisa : isa.Neutral)
    (h : Filling K others st₀ st₀.values loose st) (hes : ∀ e ∈ inputs, Supplied g K st₀ e)
    (harity : op.HasArity 1 inputs.length) :
    Meets (emitValue isa g n op inputs) st fun _ => Outcome K others loose st₀ (some n) := by
  refine (meets_values hisa h hes).bind fun us st₁ ⟨h₁, hlength, hus, _⟩ => ?_
  refine (meets_define h₁).bind fun d st₂ ⟨h₂, hlater⟩ => ?_
  refine (meets_emitOp hisa h₂ (fun v hv => (hus v hv).later hlater) (hlength ▸ harity)).mono ?_
  exact fun _ st₃ ⟨h₃, _, hd⟩ => ⟨d, h₃, hd d (List.mem_singleton_self d)⟩

theorem meets_selectAlu {op : AluOp} (hisa : isa.Neutral)
    (h : Filling K others st₀ st₀.values loose st)
    (hes : ∀ e ∈ [g.input n 1, g.input n 2], Supplied g K st₀ e) :
    Meets (selectAlu isa g n op) st fun _ => Outcome K others loose st₀ (some n) := by
  rw [List.forall_mem_cons, List.forall_mem_singleton] at hes
  unfold selectAlu
  dsimp only
  split
  · exact meets_emitValue hisa h (List.forall_mem_singleton.mpr hes.1) ⟨rfl, rfl⟩
  · split
    · exact meets_emitValue hisa h (List.forall_mem_singleton.mpr hes.2) ⟨rfl, rfl⟩
    · refine meets_emitValue hisa h ?_ ⟨rfl, rfl⟩
      exact List.forall_mem_cons.mpr ⟨hes.1, List.forall_mem_singleton.mpr hes.2⟩

theorem meets_testOperands {a b : Edge} {sides : List Side} (hisa : isa.Neutral)
    (h : Filling K others st₀ st₀.values loose st) (ha : Side.left ∈ sides → Supplied g K st₀ a)
    (hb : Side.right ∈ sides → Supplied g K st₀ b) :
    Meets (testOperands isa g a b sides) st fun vs st' =>
      Filling K others st₀ st₀.values loose st' ∧ ∀ v ∈ vs, st'.Knows K v := by
  have hload {s : Side} {e : Edge} {st : State τ} (h : Filling K others st₀ st₀.values loose st)
      (he : s ∈ sides → Supplied g K st₀ e) :
      Meets (if sides.contains s then some <$> value isa g e else pure none) st fun x st' =>
        Filling K others st₀ st₀.values loose st' ∧ st.Later st' ∧ ∀ v ∈ x, st'.Knows K v := by
    split_ifs with hs
    · refine Meets.map ((meets_value hisa h (he (List.contains_iff_mem.mp hs))).mono ?_)
      exact fun v st' ⟨h', hlater, hv⟩ => ⟨h', hlater, fun w hw => Option.some.inj hw ▸ hv⟩
    · exact Meets.pure ⟨h, .refl st, nofun⟩
  refine (hload h ha).bind fun x st₁ ⟨h₁, _, hx⟩ => ?_
  refine (hload h₁ hb).bind fun y st₂ ⟨h₂, hlater, hy⟩ => Meets.pure ⟨h₂, fun v hv => ?_⟩
  obtain ⟨s, -, hs⟩ := List.mem_filterMap.mp hv
  cases s with
  | left => exact (hx v hs).later hlater
  | right => exact hy v hs

theorem meets_selectTest (hisa : isa.Neutral) (h : Filling K others st₀ st₀.values loose st)
    (hes : ∀ x ∈ g.tested e, Supplied g K st₀ x) :
    Meets (selectTest isa g e) st fun p st' =>
      Filling K others st₀ st₀.values loose st' ∧ ∀ v ∈ p.2, st'.Knows K v := by
  unfold selectTest
  unfold Graph.tested at hes
  split
  case h_1 op hop =>
    rw [hop, List.forall_mem_cons, List.forall_mem_singleton] at hes
    exact (meets_testOperands hisa h (fun _ => hes.1) fun _ => hes.2).bind fun vs st₁ h₁ =>
      Meets.pure h₁
  case h_2 op hop =>
    rw [hop, List.forall_mem_cons, List.forall_mem_singleton] at hes
    exact (meets_testOperands hisa h (fun _ => hes.1) fun _ => hes.2).bind fun vs st₁ h₁ =>
      Meets.pure h₁
  -- any other node is compared with zero, so nothing is read on the right
  case h_3 hcmp hfloat =>
    have he : Supplied g K st₀ e := by
      split at hes
      case h_1 op hop => exact absurd hop (hcmp op)
      case h_2 op hop => exact absurd hop (hfloat op)
      case h_3 => exact hes e (List.mem_singleton_self e)
    refine (meets_testOperands hisa h (fun _ => he) fun hright => ?_).bind fun vs st₁ h₁ =>
      Meets.pure h₁
    exact absurd hright (hisa.zero .ne)

theorem meets_emitSet {test : τ} {vs : List VReg} (hisa : isa.Neutral)
    (h : Filling K others st₀ st₀.values loose st) (hvs : ∀ v ∈ vs, st.Knows K v) :
    Meets (emitSet isa g n test vs) st fun _ => Outcome K others loose st₀ (some n) := by
  refine (meets_define h).bind fun d st₁ ⟨h₁, hlater⟩ => ?_
  refine (meets_anywhere vs).bind fun us st₂ ⟨hus, hst₂⟩ => ?_
  subst hst₂
  set i : Inst τ := { op := .setIf test, defs := [⟨d, isa.file.int⟩], uses := us, node := some n }
  refine (meets_emit (hisa.defs i trivial) h₁ fun v hv => ?_).mono fun _ st₃ ⟨h₃, _, hd⟩ =>
    ⟨d, h₃, hd d (List.mem_singleton_self d)⟩
  rw [hisa.uses i trivial, hus] at hv
  exact (hvs v hv).later hlater

theorem meets_selectAddress (hisa : isa.Neutral) (h : Filling K others st₀ st₀.values loose st)
    (hbase : Supplied g K st₀ (g.input n 2)) (hoffset : Supplied g K st₀ (g.input n 3)) :
    Meets (selectAddress isa g n) st fun p st' =>
      Filling K others st₀ st₀.values loose st' ∧ ∀ v ∈ p.2, st'.Knows K v := by
  refine (meets_value hisa h hbase).bind fun base st₁ ⟨h₁, _, hb⟩ => ?_
  dsimp only
  split
  · exact Meets.pure ⟨h₁, List.forall_mem_singleton.mpr hb⟩
  · refine (meets_value hisa h₁ hoffset).bind fun o st₂ ⟨h₂, hlater, ho⟩ => Meets.pure ⟨h₂, ?_⟩
    exact List.forall_mem_cons.mpr ⟨hb.later hlater, List.forall_mem_singleton.mpr ho⟩

/-- A call reads its arguments wherever the convention puts them. -/
theorem meets_emitCall {args : List (VReg × RegClass)} {result : Option NodeId}
    (h : Filling K others st₀ st₀.values loose st) (hargs : ∀ a ∈ args, st.Knows K a.1) :
    Meets (emitCall isa g n op args result) st fun _ => Outcome K others loose st₀ result := by
  unfold emitCall
  dsimp only
  refine (show Meets _ st fun _ st₁ => Filling K others st₀ st₀.values loose st₁ ∧ st.Later st₁ from
    Meets.modify ⟨⟨h.blocks, h.values, h.out, h.reads, h.once⟩, .refl st⟩).bind
      fun _ st₁ ⟨h₁, hlater₁⟩ => ?_
  refine (Meets.forIn (P := fun rest uses st => (∀ p ∈ rest, p.1 ∈ args) ∧
    Filling K others st₀ st₀.values loose st ∧ st₁.Later st ∧ ∀ o ∈ uses, st.Knows K o.vreg)
    ⟨fun p hp => (List.of_mem_zip hp).1, h₁, .refl st₁, by simp⟩ ?_).bind
      fun uses st₂ ⟨_, h₂, hlater₂, huses⟩ => ?_
  · rintro ⟨⟨v, c⟩, loc⟩ rest uses st ⟨hrest, h, hlater, huses⟩
    rw [List.forall_mem_cons] at hrest
    have hv : st.Knows K v := (hargs _ hrest.1).later (hlater₁.trans hlater)
    cases loc with
    | reg r =>
      refine Meets.pure ⟨_, rfl, hrest.2, h, hlater, fun o ho => ?_⟩
      rcases Array.mem_push.mp ho with ho | rfl
      · exact huses o ho
      · exact hv
    | stack o =>
      refine (meets_emit_uses rfl h ?_).bind fun _ st' ⟨h', hlater'⟩ => ?_
      · exact List.forall_mem_singleton.mpr hv
      exact Meets.pure ⟨_, rfl, hrest.2, h', hlater.trans hlater', fun o ho =>
        (huses o ho).later hlater'⟩
  have hknown (v : VReg) (hv : v ∈ uses.toList.map (·.vreg)) : st₂.Knows K v := by
    obtain ⟨o, ho, rfl⟩ := List.mem_map.mp hv
    exact huses o (Array.mem_toList_iff.mp ho)
  cases result with
  | none =>
    exact (meets_emit_uses rfl h₂ hknown).mono fun _ st₃ ⟨h₃, _⟩ => h₃
  | some r =>
    refine (meets_define h₂).bind fun d st₃ ⟨h₃, hlater₃⟩ => ?_
    refine (meets_emit rfl h₃ fun v hv => (hknown v hv).later hlater₃).mono ?_
    exact fun _ st₄ ⟨h₄, _, hd⟩ => ⟨d, h₄, hd d (List.mem_singleton_self d)⟩

theorem meets_selectCall (hisa : isa.Neutral) (h : Filling K others st₀ st₀.values loose st)
    (hes : ∀ e ∈ (g.inputs n).toList.drop 3, Supplied g K st₀ e) :
    Meets (selectCall isa g n) st fun _ => Outcome K others loose st₀ (g.callResult? n) := by
  unfold selectCall
  split
  case h_1 i _ =>
    refine (Meets.mapM (I := fun st' => Filling K others st₀ st₀.values loose st')
      (K := fun a st' => st'.Knows K a.1) h fun e he st₁ h₁ => ?_).bind
        fun args st₁ ⟨h₁, _, hargs, _⟩ => meets_emitCall h₁ hargs
    refine (meets_value hisa h₁ (hes e he)).bind fun v st₂ ⟨h₂, hlater, hv⟩ => ?_
    exact Meets.pure ⟨h₂, hv, fun a ha => ha.later hlater⟩
  case h_2 => exact Meets.throw rfl

theorem meets_selectAlloc (hisa : isa.Neutral) (h : Filling K others st₀ st₀.values loose st)
    (he : Supplied g K st₀ (g.input n 2)) :
    Meets (selectAlloc isa g n) st fun _ => Outcome K others loose st₀ (some n) := by
  refine (meets_loadConst hisa h).bind fun one st₁ ⟨h₁, _, hone⟩ => ?_
  refine (meets_value hisa h₁ he).bind fun size st₂ ⟨h₂, hlater, hsize⟩ => ?_
  refine meets_emitCall h₂ (List.forall_mem_cons.mpr ⟨hone.later hlater, ?_⟩)
  exact List.forall_mem_singleton.mpr hsize

theorem meets_selectReturn (hisa : isa.Neutral) (h : Filling K others st₀ st₀.values loose st)
    (hes : ∀ e ∈ (g.returned? n).toList.map some, Supplied g K st₀ e) :
    Meets (selectReturn isa g n) st fun _ => Outcome K others loose st₀ none := by
  have hret {us : List Operand} {st : State τ} (h : Filling K others st₀ st₀.values loose st)
      (hus : ∀ v ∈ us.map (·.vreg), st.Knows K v) :
      Meets (emit { op := .ret, uses := us, node := some n }) st fun _ =>
        Outcome K others loose st₀ none :=
    (meets_emit_uses rfl h hus).mono fun _ st' ⟨h', _⟩ => h'
  unfold selectReturn
  split
  case h_1 v hv =>
    refine (meets_value hisa h (hes v ?_)).bind fun r st₁ ⟨h₁, _, hr⟩ => ?_
    · simp [hv]
    · exact hret h₁ (List.forall_mem_singleton.mpr hr)
  case h_2 => exact hret h (by simp)

/-- Where the values that a node reads are supplied, its selection does not miss one. -/
theorem meets_selectNode {succs : List Nat} (hisa : isa.Neutral)
    (h : Filling K others st st.values loose st) (hphi : g.op n ≠ .phi)
    (hes : ∀ e ∈ g.valuesRead n, Supplied g K st e) :
    Meets (selectNode isa g succs n) st fun _ => Outcome K others loose st (g.defines? n) := by
  unfold selectNode
  unfold Graph.valuesRead Graph.valueInputs at hes
  unfold Graph.defines?
  dsimp only
  rcases hop : g.op n
  all_goals
    simp only [hop, reduceCtorEq, if_true, if_false, List.forall_mem_cons,
      List.not_mem_nil, false_imp_iff, implies_true, and_true] at hes ⊢
  case phi => exact absurd hop hphi
  case cast =>
    refine (meets_value hisa h hes).bind ?_
    rintro v st₁ ⟨h₁, _, hv⟩
    refine (meets_bind h₁).mono ?_
    rintro _ st₂ ⟨h₂, hlater⟩
    exact ⟨v, h₂, hv.later hlater⟩
  case arith op => exact meets_selectAlu hisa h (by simpa using hes)
  case bit op => exact meets_selectAlu hisa h (by simpa using hes)
  case floatArith op => exact meets_emitValue hisa h (by simpa using hes) ⟨rfl, rfl⟩
  case neg => exact meets_emitValue hisa h (by simpa using hes) ⟨rfl, rfl⟩
  case toFloat => exact meets_emitValue hisa h (by simpa using hes) ⟨rfl, rfl⟩
  case not =>
    refine (meets_testOperands hisa h (fun _ => hes) fun hright => ?_).bind ?_
    · exact absurd hright (hisa.zero .eq)
    · rintro vs st₁ ⟨h₁, hvs⟩
      exact meets_emitSet hisa h₁ hvs
  case cmp op | floatCmp op =>
    cases g.isFused n with
    | true => exact Meets.pure h
    | false =>
      have htested : ∀ e ∈ g.tested (some n), Supplied g K st e := by
        simpa [Graph.tested, Graph.op?, Graph.inputOf, hop] using hes
      refine (meets_selectTest hisa h htested).bind ?_
      rintro p st₁ ⟨h₁, hvs⟩
      exact meets_emitSet hisa h₁ hvs
  case load =>
    refine (meets_selectAddress hisa h hes.1 hes.2).bind ?_
    rintro p st₁ ⟨h₁, hvs⟩
    refine (meets_define h₁).bind ?_
    rintro d st₂ ⟨h₂, hlater⟩
    refine (meets_emitOp hisa h₂ (fun v hv => (hvs v hv).later hlater) ?_).mono ?_
    · trivial
    · rintro _ st₃ ⟨h₃, _, hd⟩
      exact ⟨d, h₃, hd d (List.mem_singleton_self d)⟩
  case store =>
    refine (meets_selectAddress hisa h hes.1 hes.2.1).bind ?_
    rintro p st₁ ⟨h₁, hvs⟩
    refine (meets_value hisa h₁ hes.2.2).bind ?_
    rintro v st₂ ⟨h₂, hlater, hv⟩
    refine (Meets.get (Q := fun _ st' => st' = st₂) rfl).bind fun _ st₃ hst₃ => ?_
    subst hst₃
    refine meets_emitOp_uses hisa h₂ (fun w hw => ?_) trivial
    rcases List.mem_append.mp hw with hw | hw
    · exact (hvs w hw).later hlater
    · exact List.mem_singleton.mp hw ▸ hv
  case fork =>
    split
    · refine (meets_selectTest hisa h hes).bind ?_
      rintro p st₁ ⟨h₁, hvs⟩
      exact meets_emitOp_uses hisa h₁ hvs trivial
    · exact Meets.throw rfl
  case ret => exact meets_selectReturn hisa h hes
  case call => exact meets_selectCall hisa h hes
  case alloc => exact meets_selectAlloc hisa h hes
  all_goals exact Meets.pure h

theorem meets_selectNode_phi {succs : List Nat} (h : Filling K others st st.values loose st)
    (hphi : g.op n = .phi) :
    Meets (selectNode isa g succs n) st fun _ st' =>
      if g.ty (some n) ≠ .mem then
        ∃ v, Filling K others st (st.values.set n (some v)) (v ::ₘ loose) st'
      else Filling K others st st.values loose st' := by
  unfold selectNode
  simp only [hphi]
  split_ifs
  · refine (meets_define h).bind ?_
    rintro v st₁ ⟨h₁, _⟩
    exact Meets.pure ⟨v, h₁⟩
  · exact Meets.pure h

/-- The parameters that have registers by now, which are `known`; those of `waiting` are still to come.
Only parameters below `count` are passed. -/
structure Arriving (g : Graph) (count : Nat) (known : VReg → Prop) (waiting : NodeId → Prop)
    (values : SideTable (Option VReg)) : Prop where
  sound : ∀ m v, values.get m = some v → (m ∈ g.live ∧ ∃ i, g.op m = .param i) ∧ known v
  complete : ∀ m ∈ g.live, ∀ i < count, g.op m = .param i → (values.get m).isSome ∨ waiting m

namespace Arriving

variable {count : Nat} {known known' : VReg → Prop} {waiting waiting' : NodeId → Prop}
  {values : SideTable (Option VReg)} {m : NodeId} {v : VReg}

theorem mono (h : Arriving g count known waiting values) (hknown : ∀ v, known v → known' v)
    (hwaiting : ∀ m ∈ g.live, ∀ i < count, g.op m = .param i → waiting m → waiting' m) :
    Arriving g count known' waiting' values where
  sound m v hv := (h.sound m v hv).imp_right (hknown v)
  complete m hm i hi hop := (h.complete m hm i hi hop).imp_right (hwaiting m hm i hi hop)

theorem set (h : Arriving g count known waiting values)
    (hm : m ∈ g.live ∧ ∃ i, g.op m = .param i) (hv : known v)
    (hwaiting : ∀ x, waiting x → x = m ∨ waiting' x) :
    Arriving g count known waiting' (values.set m (some v)) where
  sound x w hw := by
    rw [SideTable.get_set] at hw
    split_ifs at hw with hx
    · exact ⟨hx ▸ hm, Option.some.inj hw ▸ hv⟩
    · exact h.sound x w hw
  complete x hx i hi hop := by
    rw [SideTable.get_set]
    split_ifs with hmx
    · exact .inl rfl
    · exact (h.complete x hx i hi hop).imp_right fun hw =>
        (hwaiting x hw).resolve_left fun h => hmx h.symm

section Next

variable {i : Nat} {rest : List (Nat × NodeId)} {defs : Array Operand}
  {stack : Array (NodeId × UInt32)}

theorem register (h : Arriving g count (· ∈ defs.toList.map (·.vreg))
      (fun m => m ∈ ((i, n) :: rest).map (·.2) ∨ m ∈ stack.toList.map (·.1)) values)
    (hn : n ∈ g.live) (hop : g.op n = .param i) (d : VReg) (allowed : RegMask) :
    Arriving g count (· ∈ (defs.push ⟨d, allowed⟩).toList.map (·.vreg))
      (fun m => m ∈ rest.map (·.2) ∨ m ∈ stack.toList.map (·.1)) (values.set n (some d)) := by
  rw [Array.toList_push, List.map_append]
  refine (h.mono (fun v hv => List.mem_append_left _ hv) fun _ _ _ _ _ => id).set ⟨hn, i, hop⟩
    (List.mem_append_right _ (List.mem_singleton_self d)) fun x hx => ?_
  rw [List.map_cons, List.mem_cons, or_assoc] at hx
  exact hx

theorem onStack (h : Arriving g count known
      (fun m => m ∈ ((i, n) :: rest).map (·.2) ∨ m ∈ stack.toList.map (·.1)) values) (o : UInt32) :
    Arriving g count known
      (fun m => m ∈ rest.map (·.2) ∨ m ∈ (stack.push (n, o)).toList.map (·.1)) values := by
  refine h.mono (fun _ => id) fun m _ _ _ _ hm => ?_
  rw [List.map_cons, List.mem_cons] at hm
  rw [Array.toList_push, List.map_append, List.mem_append, List.map_singleton, List.mem_singleton]
  tauto

theorem notPassed (h : Arriving g count known
      (fun m => m ∈ ((i, n) :: rest).map (·.2) ∨ m ∈ stack.toList.map (·.1)) values)
    (hop : g.op n = .param i) (hcount : count ≤ i) :
    Arriving g count known
      (fun m => m ∈ rest.map (·.2) ∨ m ∈ stack.toList.map (·.1)) values := by
  refine h.mono (fun _ => id) fun m _ j hj hjop hm => ?_
  rw [List.map_cons, List.mem_cons] at hm
  rcases hm with (rfl | hm) | hm
  · obtain rfl : i = j := by simpa using hop.symm.trans hjop
    omega
  · exact .inl hm
  · exact .inr hm

end Next

end Arriving

theorem mem_paramNodes {i : Nat} : (i, n) ∈ paramNodes g ↔ n ∈ g.live ∧ g.op n = .param i := by
  unfold paramNodes
  dsimp only
  rw [List.mem_mergeSort, List.mem_filterMap]
  constructor
  · rintro ⟨m, hm, heq⟩
    split at heq
    case h_1 j hop =>
      obtain ⟨rfl, rfl⟩ := Prod.mk.inj (Option.some.inj heq)
      exact ⟨hm, hop⟩
    case h_2 => exact nomatch heq
  · rintro ⟨hn, hop⟩
    exact ⟨n, hn, by rw [hop]⟩

theorem meets_loadParams {count : Nat} {stack : Array (NodeId × UInt32)} (hisa : isa.Neutral)
    (h : Filling K others st₀ st.values loose st)
    (hparams : ∀ p ∈ stack, p.1 ∈ g.live ∧ ∃ i, g.op p.1 = .param i)
    (harriving : Arriving g count (st.Knows K) (· ∈ stack.toList.map (·.1)) st.values) :
    Meets (do
      for (n, o) in stack do
        let d ← define g n
        emitOp isa (.loadParam (g.classOf n) o) n [d] []) st fun _ st' =>
      Filling K others st₀ st'.values loose st' ∧
        Arriving g count (st'.Knows K) (fun _ => False) st'.values := by
  rw [← Array.forIn_toList]
  refine (Meets.forIn (P := fun rest _ st' => (∀ p ∈ rest, p ∈ stack) ∧
    Filling K others st₀ st'.values loose st' ∧
      Arriving g count (st'.Knows K) (· ∈ rest.map (·.1)) st'.values)
    ⟨fun p => Array.mem_toList_iff.mp, h, harriving⟩ ?_).bind fun _ st' ⟨_, h', harriving'⟩ =>
      Meets.pure ⟨h', harriving'.mono (fun _ => id) fun m _ i _ _ hm => absurd hm List.not_mem_nil⟩
  rintro ⟨n, o⟩ rest b st ⟨hrest, h, harriving⟩
  rw [List.forall_mem_cons] at hrest
  refine (meets_define h).bind fun d st₁ ⟨h₁, hlater₁⟩ => ?_
  refine (meets_emitOp hisa h₁ (fun v hv => absurd hv List.not_mem_nil) ?_).bind
    fun _ st₂ ⟨h₂, hlater₂, hd⟩ => Meets.pure ⟨_, rfl, hrest.2, ?_, ?_⟩
  · trivial
  · rwa [h₂.values]
  · rw [h₂.values]
    refine (harriving.mono (fun v hv => hv.later (hlater₁.trans hlater₂)) fun _ _ _ _ _ => id).set
      (hparams _ hrest.1) (hd d (List.mem_singleton_self d)) fun x hx => ?_
    exact List.mem_cons.mp hx

/-- All parameters that are passed get registers. -/
theorem meets_selectParams {params : List Ty} (hisa : isa.Neutral)
    (h : Filling K others st st.values loose st) (hnone : ∀ m, st.values.get m = none) :
    Meets (selectParams isa g params) st fun _ st' => Filling K others st st'.values loose st' ∧
      Arriving g params.length (st'.Knows K) (fun _ => False) st'.values := by
  unfold selectParams
  dsimp only
  set locs := (isa.conv.assign
    (params.map fun t => if t.isFloat then RegClass.float else .int)).1 with hlocs
  have hlength : locs.length = params.length := by
    rw [hlocs, (CallConv.placed_assign _ _).length, List.length_map]
  refine (Meets.forIn (P := fun rest acc st' => (∀ p ∈ rest, p ∈ paramNodes g) ∧
    Filling K others st st'.values (↑(acc.1.toList.map (·.vreg)) + loose) st' ∧
    (∀ p ∈ acc.2, p.1 ∈ g.live ∧ ∃ i, g.op p.1 = .param i) ∧
    Arriving g params.length (· ∈ acc.1.toList.map (·.vreg))
      (fun m => m ∈ rest.map (·.2) ∨ m ∈ acc.2.toList.map (·.1)) st'.values)
    ⟨fun _ => id, by simpa using h, by simp, ?_, ?_⟩ ?_).bind
      fun acc st₁ ⟨_, h₁, hstack, harriving⟩ => ?_
  · exact fun m v hv => nomatch (hnone m).symm.trans hv
  · exact fun m hm i _ hop =>
      .inr (.inl (List.mem_map.mpr ⟨(i, m), mem_paramNodes.mpr ⟨hm, hop⟩, rfl⟩))
  · rintro ⟨i, n⟩ rest ⟨defs, stack⟩ st ⟨hrest, h, hstack, harriving⟩
    rw [List.forall_mem_cons] at hrest
    obtain ⟨hn, hop⟩ := mem_paramNodes.mp hrest.1
    dsimp only at h hstack harriving ⊢
    split
    case h_1 r hr =>
      refine (meets_define h).bind fun d st₁ ⟨h₁, _⟩ => Meets.pure ⟨_, rfl, hrest.2, ?_, hstack, ?_⟩
      · -- the register stays loose until the definitions of all of them are emitted
        have hdefs : (↑((defs.push ⟨d, .single r⟩).toList.map (·.vreg)) + loose : Multiset VReg) =
            d ::ₘ (↑(defs.toList.map (·.vreg)) + loose) := by
          rw [Array.toList_push, List.map_append, ← Multiset.coe_add, List.map_singleton,
            Multiset.coe_singleton, Multiset.add_comm _ {d}, add_assoc, Multiset.singleton_add]
        dsimp only
        rwa [hdefs, h₁.values]
      · rw [h₁.values]
        exact harriving.register hn hop d _
    case h_2 o ho =>
      refine Meets.pure ⟨_, rfl, hrest.2, h, fun p hp => ?_, harriving.onStack o⟩
      rcases Array.mem_push.mp hp with hp | rfl
      · exact hstack p hp
      · exact ⟨hn, i, hop⟩
    case h_3 hnone =>
      refine Meets.pure ⟨_, rfl, hrest.2, h, hstack, harriving.notPassed hop ?_⟩
      rwa [List.getElem?_eq_none_iff, hlength] at hnone
  · obtain ⟨defs, stack⟩ := acc
    dsimp only at h₁ hstack harriving ⊢
    have hwaiting : Arriving g params.length (· ∈ defs.toList.map (·.vreg))
        (· ∈ stack.toList.map (·.1)) st₁.values :=
      harriving.mono (fun _ => id) fun m _ _ _ _ hm => hm.resolve_left List.not_mem_nil
    split_ifs with hempty
    · refine (meets_emit rfl h₁ (by simp)).bind fun _ st₂ ⟨h₂, _, hdefs⟩ => ?_
      refine meets_loadParams hisa ?_ hstack ?_
      · rwa [h₂.values]
      · rw [h₂.values]
        exact hwaiting.mono hdefs fun _ _ _ _ _ => id
    · have hnil : defs = #[] := by simpa using hempty
      subst hnil
      refine meets_loadParams hisa (by simpa using h₁) hstack ?_
      exact hwaiting.mono (fun v hv => absurd hv List.not_mem_nil) fun _ _ _ _ _ => id

end Select

end SeaNodes
