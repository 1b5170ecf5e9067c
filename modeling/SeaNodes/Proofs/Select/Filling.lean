import Mathlib.Data.Multiset.AddSub
import SeaNodes.Compile
import SeaNodes.Proofs.Registers.Definitions

namespace SeaNodes

variable {τ : Type}

theorem MachBlock.insertAtEnd_spec (b : MachBlock τ) (new : List (Inst τ)) :
    ∃ pre post, b.insts = pre ++ post ∧
      b.insertAtEnd new = { b with insts := pre ++ new ++ post } := by
  unfold insertAtEnd
  split
  case h_1 last hlast =>
    split_ifs
    · exact ⟨b.insts.dropLast, [last], (List.dropLast_append_getLast? last hlast).symm, rfl⟩
    · exact ⟨b.insts, [], (List.append_nil _).symm, by rw [List.append_nil]⟩
  case h_2 hnone =>
    rw [List.getLast?_eq_none_iff] at hnone
    exact ⟨[], [], hnone, by simp⟩

theorem flatMap_modify {α β : Type} (h : α → List β) (put : α → α) (l : List α) {i : Nat}
    (hi : i < l.length) :
    (((l.modify i put).flatMap h : List β) : Multiset β) + h l[i] =
      (l.flatMap h : List β) + h (put l[i]) := by
  induction l generalizing i with
  | nil => exact absurd hi (Nat.not_lt_zero i)
  | cons x l ih =>
    cases i with
    | zero =>
      simp only [List.modify_zero_cons, List.flatMap_cons, List.getElem_cons_zero,
        ← Multiset.coe_add]
      abel
    | succ i =>
      simp only [List.modify_succ_cons, List.flatMap_cons, List.getElem_cons_succ,
        ← Multiset.coe_add]
      rw [add_assoc, ih (Nat.lt_of_succ_lt_succ hi), add_assoc]

theorem MachFunction.definitions_modifyBlock (f : MachFunction τ) (put : MachBlock τ → MachBlock τ)
    {i : Nat} (hi : i < f.blocks.size) :
    ((f.modifyBlock i put).definitions : Multiset VReg) + (f.block i).definitions =
      f.definitions + (put (f.block i)).definitions := by
  have h := flatMap_modify MachBlock.definitions put f.blocks.toList (i := i)
    (by rwa [Array.length_toList])
  rw [block_eq_getElem hi, ← Array.getElem_toList hi]
  rw [← Array.toList_modify] at h
  exact h

/-- A value was looked up before it had a register, or an argument that a phi does not have. -/
def Fault.lacksValue : Fault → Bool
  | .internal .select _ .usedTooEarly | .internal .select _ .phiShort => true
  | _ => false

/-- The numbers of defs and uses of the operations whose operands a target has demands of. -/
def MachOp.HasArity (op : MachOp τ) (defs uses : Nat) : Prop :=
  match op with
  | .alu _ | .floatArith _ => defs = 1 ∧ uses = 2
  | .aluImm .. | .neg | .toFloat => defs = 1 ∧ uses = 1
  | _ => True

/-- A target demands registers for operands, but exchanges no operand, and to compare with zero it
needs no second one. -/
structure Isa.Neutral (isa : Isa τ) : Prop where
  defs : ∀ i : Inst τ, i.op.HasArity i.defs.length i.uses.length →
    (isa.constrain i).defs.map (·.vreg) = i.defs.map (·.vreg)
  uses : ∀ i : Inst τ, i.op.HasArity i.defs.length i.uses.length →
    (isa.constrain i).uses.map (·.vreg) = i.uses.map (·.vreg)
  zero : ∀ op, Side.right ∉ (isa.intTest op none (some 0)).2

theorem map_vreg_zipWith {os : List Operand} {ms : List RegMask} (h : os.length = ms.length) :
    (os.zipWith (fun o m => { o with mask := m }) ms).map (·.vreg) = os.map (·.vreg) := by
  induction os generalizing ms with
  | nil => rfl
  | cons o os ih =>
    cases ms with
    | nil => exact nomatch h
    | cons m ms =>
      rw [List.zipWith_cons_cons, List.map_cons, List.map_cons, ih (Nat.succ.inj h)]

theorem X64.map_vreg_constrain (abi : Abi) (i : Inst Test)
    (h : i.op.HasArity i.defs.length i.uses.length) :
    (constrain abi i).defs.map (·.vreg) = i.defs.map (·.vreg) ∧
      (constrain abi i).uses.map (·.vreg) = i.uses.map (·.vreg) := by
  unfold constrain
  cases hop : i.op <;> rw [hop] at h
  case alu op =>
    cases op <;> exact ⟨map_vreg_zipWith h.1, map_vreg_zipWith h.2⟩
  case aluImm op v =>
    cases op <;> exact ⟨map_vreg_zipWith h.1, map_vreg_zipWith h.2⟩
  case neg | floatArith | toFloat => exact ⟨map_vreg_zipWith h.1, map_vreg_zipWith h.2⟩
  all_goals exact ⟨rfl, rfl⟩

theorem X64.neutral (abi : Abi) : (isa abi).Neutral where
  defs i h := (map_vreg_constrain abi i h).1
  uses i h := (map_vreg_constrain abi i h).2
  zero op := by
    show Side.right ∉ (intTest op none (some 0)).2
    cases op <;> decide

theorem Arm64.neutral : isa.Neutral where
  defs i _ := by
    show (constrain i).defs.map _ = _
    unfold constrain
    split <;> rfl
  uses i _ := by
    show (constrain i).uses.map _ = _
    unfold constrain
    split <;> rfl
  zero op := by cases op <;> decide

theorem RiscV.neutral : isa.Neutral where
  defs _ _ := rfl
  uses _ _ := rfl
  zero op := by cases op <;> decide

theorem Target.neutral (t : Target) : t.isa.2.Neutral := by
  obtain ⟨arch, abi⟩ := t
  cases arch with
  | x64 => exact X64.neutral abi
  | arm64 => exact Arm64.neutral
  | riscv64 => exact RiscV.neutral

namespace Select

variable {α β : Type} {isa : Isa τ} {g : Graph} {n : NodeId} {e : Edge} {v : VReg}

/-- From state `st` the step does not lack a value, and where it comes to an end `Q` holds. -/
def Meets (x : SelectM τ α) (st : State τ) (Q : α → State τ → Prop) : Prop :=
  match x.run st with
  | .ok (a, st') => Q a st'
  | .error f => f.lacksValue = false

namespace Meets

variable {st : State τ} {x : SelectM τ α} {f : α → SelectM τ β} {P Q : α → State τ → Prop}
  {R : β → State τ → Prop}

theorem pure {a : α} (h : Q a st) : Meets (Pure.pure a) st Q := h

theorem modify {f : State τ → State τ} {Q : Unit → State τ → Prop} (h : Q () (f st)) :
    Meets (modify f) st Q := h

theorem get {Q : State τ → State τ → Prop} (h : Q st st) :
    Meets (MonadState.get : SelectM τ (State τ)) st Q := h

theorem throw {e : Fault} (h : e.lacksValue = false) : Meets (throw e : SelectM τ α) st Q := h

theorem mono (h : Meets x st P) (hPQ : ∀ a st', P a st' → Q a st') : Meets x st Q := by
  unfold Meets at h ⊢
  split at h
  · exact hPQ _ _ h
  · exact h

theorem bind (hx : Meets x st P) (hf : ∀ a st', P a st' → Meets (f a) st' R) :
    Meets (x >>= f) st R := by
  unfold Meets at hx ⊢
  rw [StateT.run_bind]
  cases hrun : x.run st with
  | error e =>
    rw [hrun] at hx
    exact hx
  | ok p =>
    rw [hrun] at hx
    exact hf p.1 p.2 hx

theorem map {k : α → β} (hx : Meets x st fun a => R (k a)) : Meets (k <$> x) st R := by
  rw [map_eq_pure_bind]
  exact hx.bind fun _ _ h => pure h

theorem forM {xs : List α} {f : α → SelectM τ Unit} {P : List α → List α → State τ → Prop}
    (hP : P [] xs st) (hstep : ∀ done x rest st, xs = done ++ x :: rest → P done (x :: rest) st →
      Meets (f x) st fun _ => P (done ++ [x]) rest) : Meets (xs.forM f) st fun _ => P xs [] := by
  suffices h : ∀ done rest st, xs = done ++ rest → P done rest st →
      Meets (rest.forM f) st fun _ => P xs [] from h [] xs st rfl hP
  intro done rest st hxs hdone
  induction rest generalizing done st with
  | nil =>
    rw [List.append_nil] at hxs
    exact pure (hxs ▸ hdone)
  | cons x rest ih =>
    refine (hstep done x rest st hxs hdone).bind fun _ st' hst' => ?_
    exact ih (done ++ [x]) st' (by rw [hxs, List.append_assoc]; rfl) hst'

theorem mapM {xs : List α} {I : State τ → Prop} {K : β → State τ → Prop} (hI : I st)
    (hstep : ∀ x ∈ xs, ∀ st, I st → Meets (f x) st fun b st' =>
      I st' ∧ K b st' ∧ ∀ b', K b' st → K b' st') :
    Meets (xs.mapM f) st fun bs st' => I st' ∧ bs.length = xs.length ∧ (∀ b ∈ bs, K b st') ∧
      ∀ b', K b' st → K b' st' := by
  induction xs generalizing st with
  | nil => exact pure ⟨hI, rfl, fun b hb => absurd hb List.not_mem_nil, fun _ => id⟩
  | cons x xs ih =>
    rw [List.forall_mem_cons] at hstep
    rw [List.mapM_cons]
    refine (hstep.1 st hI).bind fun b st₁ ⟨hI₁, hb, hkeep⟩ => ?_
    refine (ih hI₁ hstep.2).bind fun bs st₂ ⟨hI₂, hlength, hbs, hkeep'⟩ => pure ⟨hI₂, ?_, ?_, ?_⟩
    · rw [List.length_cons, List.length_cons, hlength]
    · exact List.forall_mem_cons.mpr ⟨hkeep' b hb, hbs⟩
    · exact fun b' hb' => hkeep' b' (hkeep b' hb')

theorem forIn {xs : List α} {b : β} {f : α → β → SelectM τ (ForInStep β)}
    {P : List α → β → State τ → Prop} (hP : P xs b st)
    (hstep : ∀ x rest b st, P (x :: rest) b st →
      Meets (f x b) st fun r st' => ∃ b', r = .yield b' ∧ P rest b' st') :
    Meets (forIn xs b f) st (P []) := by
  induction xs generalizing b st with
  | nil => exact pure hP
  | cons x xs ih =>
    rw [List.forIn_cons]
    refine (hstep x xs b st hP).bind fun r st' ⟨b', hr, hP'⟩ => ?_
    subst hr
    exact ih hP'

end Meets

/-- The registers known by now: those that were known at the start of the block, and those defined in
it. -/
def State.Knows (K : VReg → Prop) (st : State τ) (v : VReg) : Prop :=
  K v ∨ v ∈ definedIn st.out.toList

/-- A state that selection comes to from `st₀` without leaving the block. The registers `others` are
defined elsewhere, and the `loose` ones were made but not defined. -/
structure Filling (K : VReg → Prop) (others : Multiset VReg) (st₀ : State τ)
    (vals : SideTable (Option VReg)) (loose : Multiset VReg) (st : State τ) : Prop where
  blocks : st.func.blocks = st₀.func.blocks
  values : st.values = vals
  out : st₀.out.toList <+: st.out.toList
  reads : ReadsKnown K st.out.toList
  once : others + (definedIn st.out.toList : List VReg) + loose =
    Multiset.range st.func.vregs.size

section

variable {K : VReg → Prop} {others loose : Multiset VReg} {vals : SideTable (Option VReg)}
  {st₀ st st' : State τ} {op : MachOp τ}

/-- More instructions were selected. -/
def State.Later (st st' : State τ) : Prop := st.out.toList <+: st'.out.toList

theorem State.Knows.later (hv : st.Knows K v) (h : st.Later st') : st'.Knows K v :=
  hv.imp_right fun hmem => by
    obtain ⟨new, hnew⟩ := h
    rw [← hnew, definedIn_append]
    exact List.mem_append_left _ hmem

theorem State.Knows.mono {K' : VReg → Prop} (hv : st.Knows K v) (h : ∀ v, K v → K' v) :
    st.Knows K' v := hv.imp_left (h v)

theorem State.Later.refl (st : State τ) : st.Later st := List.prefix_refl _

theorem State.Later.trans {st'' : State τ} (h : st.Later st') (h' : st'.Later st'') :
    st.Later st'' := List.IsPrefix.trans h h'

theorem Filling.knows (h : Filling K others st₀ vals loose st) (hv : st₀.Knows K v) :
    st.Knows K v := hv.later h.out

theorem Filling.block (h : Filling K others st₀ vals loose st) (b : Nat) :
    st.func.block b = st₀.func.block b := congrArg (·.getD b default) h.blocks

theorem Filling.definitions (h : Filling K others st₀ vals loose st) :
    st.func.definitions = st₀.func.definitions := by
  unfold MachFunction.definitions
  rw [h.blocks]

theorem meets_emit {i : Inst τ} {defs : List VReg} (hdefs : i.defs.map (·.vreg) = defs)
    (h : Filling K others st₀ vals (↑defs + loose) st)
    (huses : ∀ v ∈ i.uses.map (·.vreg), st.Knows K v) :
    Meets (emit i) st fun _ st' => Filling K others st₀ vals loose st' ∧ st.Later st' ∧
      ∀ v ∈ defs, st'.Knows K v := by
  have hout : (st.out.push i).toList = st.out.toList ++ [i] := Array.toList_push
  have hlater : st.out.toList <+: (st.out.push i).toList := ⟨[i], hout.symm⟩
  refine Meets.modify ⟨⟨h.blocks, h.values, h.out.trans hlater, ?_, ?_⟩, hlater, fun v hv => .inr ?_⟩
  · rw [hout]
    exact h.reads.snoc fun o ho => huses o.vreg (List.mem_map_of_mem ho)
  · rw [← h.once, hout, definedIn_append, definedIn_cons, definedIn_nil, List.append_nil, hdefs,
      ← Multiset.coe_add, add_assoc, add_assoc, add_assoc]
  · rw [hout, definedIn_append, definedIn_cons, definedIn_nil, List.append_nil, hdefs]
    exact List.mem_append_right _ hv

theorem meets_emit_uses {i : Inst τ} (hdefs : i.defs = [])
    (h : Filling K others st₀ vals loose st) (huses : ∀ v ∈ i.uses.map (·.vreg), st.Knows K v) :
    Meets (emit i) st fun _ st' => Filling K others st₀ vals loose st' ∧ st.Later st' := by
  refine (meets_emit (congrArg _ hdefs) ?_ huses).mono fun _ st' ⟨h', hlater, _⟩ => ⟨h', hlater⟩
  rwa [List.map_nil, Multiset.coe_nil, zero_add]

theorem meets_fresh {c : RegClass} (h : Filling K others st₀ vals loose st) :
    Meets (fresh c) st fun v st' => Filling K others st₀ vals (v ::ₘ loose) st' ∧ st.Later st' := by
  refine (show _ ∧ _ from ⟨⟨h.blocks, h.values, h.out, h.reads, ?_⟩, .refl st⟩)
  show _ = Multiset.range (st.func.vregs.push ⟨c, false⟩).size
  rw [Array.size_push, Multiset.range_succ, ← h.once, Multiset.add_cons]

theorem meets_bind (h : Filling K others st₀ vals loose st) : Meets (Select.bind n v) st fun _ st' =>
    Filling K others st₀ (vals.set n (some v)) loose st' ∧ st.Later st' :=
  Meets.modify ⟨⟨h.blocks, by rw [h.values], h.out, h.reads, h.once⟩, .refl st⟩

theorem meets_define (h : Filling K others st₀ vals loose st) : Meets (define g n) st fun v st' =>
    Filling K others st₀ (vals.set n (some v)) (v ::ₘ loose) st' ∧ st.Later st' := by
  refine (meets_fresh h).bind fun v st₁ ⟨h₁, hlater₁⟩ => ?_
  refine (meets_bind h₁).bind fun _ st₂ ⟨h₂, hlater₂⟩ => ?_
  exact Meets.pure ⟨h₂, hlater₁.trans hlater₂⟩

theorem meets_anywhere (vs : List VReg) : Meets (vs.mapM (anywhere isa)) st fun os st' =>
    os.map (·.vreg) = vs ∧ st' = st := by
  induction vs with
  | nil => exact Meets.pure ⟨rfl, rfl⟩
  | cons v vs ih =>
    rw [List.mapM_cons]
    refine (show Meets (anywhere isa v) st fun o st' => o.vreg = v ∧ st' = st from ⟨rfl, rfl⟩).bind
      fun o st₁ ⟨ho, hst₁⟩ => ?_
    subst hst₁
    refine ih.bind fun os st₂ ⟨hos, hst₂⟩ => Meets.pure ⟨?_, hst₂⟩
    rw [List.map_cons, ho, hos]

theorem meets_emitOp {defs uses : List VReg} (hisa : isa.Neutral)
    (h : Filling K others st₀ vals (↑defs + loose) st) (huses : ∀ v ∈ uses, st.Knows K v)
    (harity : op.HasArity defs.length uses.length) :
    Meets (emitOp isa op e defs uses) st fun _ st' => Filling K others st₀ vals loose st' ∧
      st.Later st' ∧ ∀ v ∈ defs, st'.Knows K v := by
  refine (meets_anywhere defs).bind fun ds st₁ ⟨hds, hst₁⟩ => ?_
  subst hst₁
  refine (meets_anywhere uses).bind fun us st₂ ⟨hus, hst₂⟩ => ?_
  subst hst₂
  have hfits : op.HasArity ds.length us.length := by
    rwa [← hds, ← hus, List.length_map, List.length_map] at harity
  refine meets_emit ((hisa.defs _ hfits).trans hds) h fun v hv => ?_
  rw [hisa.uses _ hfits, hus] at hv
  exact huses v hv

theorem meets_emitOp_uses {uses : List VReg} (hisa : isa.Neutral)
    (h : Filling K others st₀ vals loose st) (huses : ∀ v ∈ uses, st.Knows K v)
    (harity : op.HasArity 0 uses.length) :
    Meets (emitOp isa op e [] uses) st fun _ => Filling K others st₀ vals loose := by
  refine (meets_emitOp hisa ?_ huses harity).mono fun _ st' ⟨h', _⟩ => h'
  rwa [Multiset.coe_nil, zero_add]

/-- The edge leads to a constant, or to a node whose register is known. -/
def Supplied (g : Graph) (K : VReg → Prop) (st : State τ) (e : Edge) : Prop :=
  ∃ n, e = some n ∧ ((∃ t, g.op n = .const t) ∨ ∃ v, st.values.get n = some v ∧ st.Knows K v)

theorem meets_loadConst {t : Ty} (hisa : isa.Neutral) (h : Filling K others st₀ vals loose st) :
    Meets (loadConst isa t n) st fun v st' => Filling K others st₀ vals loose st' ∧ st.Later st' ∧
      st'.Knows K v := by
  unfold loadConst
  split
  case h_1 op c hop =>
    refine (meets_fresh h).bind fun v st₁ ⟨h₁, hlater₁⟩ => ?_
    refine (meets_emitOp hisa h₁ (fun v hv => absurd hv List.not_mem_nil) ?_).bind
      fun _ st₂ ⟨h₂, hlater₂, hv⟩ =>
        Meets.pure ⟨h₂, hlater₁.trans hlater₂, hv v (List.mem_singleton_self v)⟩
    unfold Ty.loadOp? at hop
    split at hop
    · split_ifs at hop
      cases hop
      trivial
    · cases hop
      trivial
    · split_ifs at hop <;> cases hop <;> trivial
    · exact nomatch hop
  case h_2 => exact Meets.throw rfl
  case h_3 => exact Meets.throw rfl

theorem value_of_const {t : Ty} (hop : g.op n = .const t) :
    value isa g (some n) = loadConst isa t n := by
  simp only [value, hop]

theorem meets_value_of_get (hconst : ∀ t, g.op n ≠ .const t) (hv : st.values.get n = some v) :
    Meets (value isa g (some n)) st fun w st' => w = v ∧ st' = st := by
  unfold value
  dsimp only
  split
  case h_1 t ht => exact absurd ht (hconst t)
  case h_2 =>
    refine (Meets.get (Q := fun a st' => a = st ∧ st' = st) ⟨rfl, rfl⟩).bind
      fun a st₁ ⟨ha, hst₁⟩ => ?_
    subst ha hst₁
    rw [hv]
    exact Meets.pure ⟨rfl, rfl⟩

theorem meets_value (hisa : isa.Neutral) (h : Filling K others st₀ st₀.values loose st)
    (he : Supplied g K st₀ e) : Meets (value isa g e) st fun v st' =>
      Filling K others st₀ st₀.values loose st' ∧ st.Later st' ∧ st'.Knows K v := by
  obtain ⟨n, rfl, hn⟩ := he
  by_cases hconst : ∃ t, g.op n = .const t
  · obtain ⟨t, ht⟩ := hconst
    rw [value_of_const ht]
    exact meets_loadConst hisa h
  · obtain ⟨v, hv, hknown⟩ := hn.resolve_left hconst
    refine (meets_value_of_get (fun t ht => hconst ⟨t, ht⟩) (h.values ▸ hv)).mono ?_
    rintro w st' ⟨rfl, rfl⟩
    exact ⟨h, .refl _, h.knows hknown⟩

theorem meets_values {es : List Edge} (hisa : isa.Neutral)
    (h : Filling K others st₀ st₀.values loose st) (hes : ∀ e ∈ es, Supplied g K st₀ e) :
    Meets (es.mapM (value isa g)) st fun vs st' => Filling K others st₀ st₀.values loose st' ∧
      vs.length = es.length ∧ (∀ v ∈ vs, st'.Knows K v) ∧ st.Later st' := by
  have hmapM := Meets.mapM (f := value isa g)
    (I := fun st' => Filling K others st₀ st₀.values loose st' ∧ st.Later st')
    (K := fun v st' => st'.Knows K v) ⟨h, .refl st⟩
    fun e he st₁ ⟨h₁, hlater₁⟩ => (meets_value hisa h₁ (hes e he)).mono
      fun v st₂ ⟨h₂, hlater₂, hv⟩ => ⟨⟨h₂, hlater₁.trans hlater₂⟩, hv, fun w hw => hw.later hlater₂⟩
  exact hmapM.mono fun vs st' ⟨⟨h', hlater⟩, hlength, hvs, _⟩ => ⟨h', hlength, hvs, hlater⟩

end

end Select

end SeaNodes
