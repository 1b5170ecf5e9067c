import SeaNodes.Proofs.Eval.Steps
import SeaNodes.Proofs.Isa.Meaning
import SeaNodes.Proofs.Schedule.Rivals
import SeaNodes.Proofs.Select.Filling

namespace SeaNodes

namespace Select

variable {τ : Type} {α β : Type}

/-- From state `st` the step comes to an end, and there `Q` holds. -/
def Yields (x : SelectM τ α) (st : State τ) (Q : α → State τ → Prop) : Prop :=
  ∃ b st', x.run st = .ok (b, st') ∧ Q b st'

namespace Yields

variable {st : State τ} {x : SelectM τ α} {f : α → SelectM τ β} {P : α → State τ → Prop}
  {R : β → State τ → Prop}

theorem pure {b : α} (h : P b st) : Yields (Pure.pure b) st P := ⟨b, st, rfl, h⟩

theorem modify {f : State τ → State τ} {Q : Unit → State τ → Prop} (h : Q () (f st)) :
    Yields (modify f) st Q := ⟨(), f st, rfl, h⟩

theorem bind (hx : Yields x st P) (hf : ∀ b st', P b st' → Yields (f b) st' R) :
    Yields (x >>= f) st R := by
  obtain ⟨b, st', hrun, hP⟩ := hx
  obtain ⟨c, st'', hrun', hR⟩ := hf b st' hP
  refine ⟨c, st'', ?_, hR⟩
  rw [StateT.run_bind, hrun]
  exact hrun'

theorem mono {Q : α → State τ → Prop} (h : Yields x st P) (hPQ : ∀ b st', P b st' → Q b st') :
    Yields x st Q := by
  obtain ⟨b, st', hrun, hP⟩ := h
  exact ⟨b, st', hrun, hPQ b st' hP⟩

end Yields

section

variable {isa : Isa τ} {g : Graph} {sem : Semantics τ}
  {st st' st'' : State τ} {m : VReg → Int64} {new new' : List (Inst τ)} {n : NodeId} {e : Edge}
  {x y : Int64}

/-- Between two states the instructions `new` were selected. Their immediates fit, and run on `m` they
change no register that there was. -/
structure Selected (sem : Semantics τ) (m : VReg → Int64) (st st' : State τ)
    (new : List (Inst τ)) : Prop where
  out : st'.out.toList = st.out.toList ++ new
  fits : ∀ i ∈ new, sem.Fits i.op
  size : st.func.vregs.size ≤ st'.func.vregs.size
  kept : ∀ v < st.func.vregs.size, runInsts sem.meaning new m v = m v

theorem Selected.refl (st : State τ) : Selected sem m st st [] where
  out := (List.append_nil _).symm
  fits _ hi := absurd hi List.not_mem_nil
  size := le_rfl
  kept _ _ := rfl

theorem Selected.trans (h : Selected sem m st st' new)
    (h' : Selected sem (runInsts sem.meaning new m) st' st'' new') :
    Selected sem m st st'' (new ++ new') where
  out := by rw [h'.out, h.out, List.append_assoc]
  fits i hi := (List.mem_append.mp hi).elim (h.fits i) (h'.fits i)
  size := h.size.trans h'.size
  kept v hv := by rw [runInsts_append, h'.kept v (hv.trans_le h.size), h.kept v hv]

def Holds (st : State τ) (m : VReg → Int64) (vs : List VReg) (ws : List Int64) : Prop :=
  vs.map m = ws ∧ ∀ v ∈ vs, v < st.func.vregs.size

theorem Holds.kept {vs : List VReg} {ws : List Int64} (h : Holds st m vs ws)
    (hsel : Selected sem m st st' new) :
    Holds st' (runInsts sem.meaning new m) vs ws := by
  refine ⟨h.1 ▸ List.map_congr_left fun v hv => hsel.kept v (h.2 v hv), fun v hv => ?_⟩
  exact (h.2 v hv).trans_le hsel.size

theorem Holds.cons {v : VReg} {vs : List VReg} {ws : List Int64} (hv : Holds st m [v] [x])
    (h : Holds st m vs ws) : Holds st m (v :: vs) (x :: ws) := by
  constructor
  · rw [List.map_cons, h.1, List.singleton_inj.mp hv.1]
  · exact List.forall_mem_cons.mpr ⟨hv.2 v (List.mem_singleton_self v), h.2⟩

end

/-- The registers hold the integers that the evaluator has computed. -/
structure Mirrors (a : Activation) (st : State τ) (m : VReg → Int64) : Prop where
  size : ∀ {k v}, st.values.get k = some v → v < st.func.vregs.size
  holds : ∀ {k v x}, st.values.get k = some v → a.value k = some (.int x) → m v = x
  truthful : a.Truthful

/-- The edge leads to the integer `x`, and to a constant or a node that has a register. -/
structure IsInteger (a : Activation) (values : SideTable (Option VReg)) (e : Edge) (x : Int64) :
    Prop where
  get : a.get e = .ok (.int x)
  supplied : ∀ k ∈ e, (∀ t, a.graph.op k ≠ .const t) → (values.get k).isSome

/-- The step loads registers with the words `ws`. -/
def Loads (sem : Semantics τ) (m : VReg → Int64) (x : SelectM τ (List VReg))
    (st : State τ) (ws : List Int64) : Prop :=
  Yields x st fun vs st' => st'.values = st.values ∧ ∃ new, Selected sem m st st' new ∧
    Holds st' (runInsts sem.meaning new m) vs ws

section

variable {isa : Isa τ} {sem : Semantics τ} {a : Activation}
  {st st' : State τ} {m : VReg → Int64} {new : List (Inst τ)} {n : NodeId} {e e' : Edge}
  {x y : Int64} {op : MachOp τ}

theorem Mirrors.kept (h : Mirrors a st m) (hvalues : st'.values = st.values)
    (hsel : Selected sem m st st' new) :
    Mirrors a st' (runInsts sem.meaning new m) where
  size hv := (h.size (hvalues ▸ hv)).trans_le hsel.size
  holds hv hx := (hsel.kept _ (h.size (hvalues ▸ hv))).trans (h.holds (hvalues ▸ hv) hx)
  truthful := h.truthful

theorem ofConst?_eq_int {t : Ty} : Value.ofConst? t = some (.int x) ↔ t = .int x x := by
  constructor
  · intro h
    cases t with
    | int lo hi =>
      obtain ⟨hbounds, hx⟩ := Option.ite_none_right_eq_some.mp h
      rw [← hbounds, Value.int.inj (Option.some.inj hx)]
    | float c | ptr _ c | fn c => cases c <;> exact nomatch h
    | _ => exact nomatch h
  · rintro rfl
    exact if_pos rfl

namespace IsInteger

theorem cases (h : IsInteger a st.values e x) (hm : Mirrors a st m) : ∃ k, e = some k ∧
    (a.graph.op k = .const (.int x x) ∨ (∀ t, a.graph.op k ≠ .const t) ∧
      ∃ v, st.values.get k = some v ∧ Holds st m [v] [x]) := by
  cases e with
  | none => exact absurd h.get Activation.get_none
  | some k =>
    refine ⟨k, rfl, ?_⟩
    by_cases hconst : ∃ t, a.graph.op k = .const t
    · obtain ⟨t, ht⟩ := hconst
      refine .inl (ht.trans (congrArg _ (ofConst?_eq_int.mp ?_)))
      cases hv : a.value k with
      | none =>
        obtain ⟨t', ht', hx⟩ := (Activation.get_of_not_value hv).mp h.get
        cases ht.symm.trans ht'
        exact hx
      | some w =>
        have hget := Except.ok.inj ((Activation.get_of_value hv).symm.trans h.get)
        obtain hnone | hw := hm.truthful k t ht
        · cases hnone.symm.trans hv
        · exact hw.symm.trans (hv.trans (congrArg _ hget))
    · have hconst : ∀ t, a.graph.op k ≠ .const t := fun t ht => hconst ⟨t, ht⟩
      obtain ⟨v, hv⟩ := Option.isSome_iff_exists.mp (h.supplied k rfl hconst)
      refine .inr ⟨hconst, v, hv, ?_, List.forall_mem_singleton.mpr (hm.size hv)⟩
      cases hval : a.value k with
      | none =>
        obtain ⟨t, ht, _⟩ := (Activation.get_of_not_value hval).mp h.get
        exact absurd ht (hconst t)
      | some w =>
        have hget := Except.ok.inj ((Activation.get_of_value hval).symm.trans h.get)
        exact congrArg (fun w => [w]) (hm.holds hv (hval.trans (congrArg _ hget)))

theorem eq_of_mem_intConst? (h : IsInteger a st.values e x) (hm : Mirrors a st m) :
    ∀ c ∈ a.graph.intConst? e, c = x := by
  intro c hc
  obtain ⟨k, rfl, hconst | ⟨hconst, -⟩⟩ := h.cases hm
  · have hop : a.graph.op? (some k) = some (.const (.int x x)) := congrArg some hconst
    rw [Graph.intConst?, hop] at hc
    exact (Option.mem_some_iff.mp ((if_pos rfl : (if x = x then some x else none) = _) ▸ hc)).symm
  · have hop : a.graph.op? (some k) = some (a.graph.op k) := rfl
    rw [Graph.intConst?, hop] at hc
    split at hc
    case h_1 lo hi ht => exact absurd (Option.some.inj ht) (hconst _)
    case h_2 ht => exact absurd (Option.some.inj ht) (hconst _)
    case h_3 => cases hc

end IsInteger

def operandOf (isa : Isa τ) (f : MachFunction τ) (v : VReg) : Operand :=
  ⟨v, isa.file.ofClass (f.classOf v)⟩

/-- The instruction that is emitted for an operation. -/
def instOf (isa : Isa τ) (f : MachFunction τ) (op : MachOp τ) (e : Edge) (ds us : List VReg) :
    Inst τ :=
  isa.constrain { op, defs := ds.map (operandOf isa f), uses := us.map (operandOf isa f), node := e }

theorem map_vreg_operandOf (f : MachFunction τ) (vs : List VReg) :
    (vs.map (operandOf isa f)).map (·.vreg) = vs := by
  rw [List.map_map]
  exact List.map_id vs

theorem run_anywhere (vs : List VReg) (st : State τ) :
    (vs.mapM (anywhere isa)).run st = .ok (vs.map (operandOf isa st.func), st) := by
  induction vs with
  | nil => rfl
  | cons v vs ih =>
    rw [List.mapM_cons, StateT.run_bind]
    change (vs.mapM (anywhere isa)).run st >>= _ = _
    rw [ih]
    rfl

theorem run_emitOp (op : MachOp τ) (e : Edge) (ds us : List VReg) (st : State τ) :
    (emitOp isa op e ds us).run st =
      .ok ((), { st with out := st.out.push (instOf isa st.func op e ds us) }) := by
  unfold emitOp
  rw [StateT.run_bind, run_anywhere]
  change (us.mapM (anywhere isa)).run st >>= _ = _
  rw [run_anywhere]
  rfl

theorem exec_eq_update (f : OpSem τ Int64) {i : Inst τ} {d : VReg} {us : List VReg}
    (hdefs : i.defs.map (·.vreg) = [d]) (huses : i.uses.map (·.vreg) = us)
    (hcopy : i.isCopy = false) : i.exec f m = Function.update m d (f i.op (us.map m) 0) := by
  obtain ⟨o, ho, rfl⟩ := List.map_eq_singleton_iff.mp hdefs
  have hinputs : i.inputs id m = us.map m := by
    rw [← huses, List.map_map]
    rfl
  rw [Inst.exec, Inst.write, ho, hinputs]
  change Function.update m o.vreg (i.output f (us.map m) 0) = _
  unfold Inst.output
  rw [hcopy]

theorem selected_push {i : Inst τ} {d : VReg} {us : List VReg} {ws : List Int64}
    (hus : Holds st m us ws) (hop : i.op = op) (hfits : sem.Fits op) (hcopy : op.isCopy = false)
    (hdefs : i.defs.map (·.vreg) = [d]) (huses : i.uses.map (·.vreg) = us)
    (hd : d = st.func.vregs.size) (hout : st'.out = st.out.push i)
    (hsize : st'.func.vregs.size = st.func.vregs.size + 1) : Selected sem m st st' [i] ∧
      Holds st' (runInsts sem.meaning [i] m) [d] [sem.meaning op ws 0] := by
  subst hop
  have hexec := exec_eq_update (m := m) sem.meaning hdefs huses hcopy
  rw [hus.1] at hexec
  refine ⟨⟨?_, List.forall_mem_singleton.mpr hfits, hsize ▸ Nat.le_succ _, fun v hv => ?_⟩, ?_, ?_⟩
  · rw [hout, Array.toList_push]
  · change i.exec _ m v = m v
    rw [hexec, Function.update_of_ne (hd ▸ hv.ne)]
  · change [i.exec _ m d] = _
    rw [hexec, Function.update_self]
  · exact List.forall_mem_singleton.mpr (hsize ▸ hd ▸ Nat.lt_succ_self _)

/-- The value of a node was computed into a register. -/
structure Computed (sem : Semantics τ) (m : VReg → Int64) (st st' : State τ)
    (new : List (Inst τ)) (n : NodeId) (x : Int64) : Prop where
  selected : Selected sem m st st' new
  holds : ∃ d, st'.values = st.values.set n (some d) ∧
    Holds st' (runInsts sem.meaning new m) [d] [x]

theorem yields_define : Yields (define a.graph n) st fun d st' => d = st.func.vregs.size ∧
    st'.func.vregs.size = st.func.vregs.size + 1 ∧ st'.out = st.out ∧
      st'.values = st.values.set n (some d) :=
  ⟨_, _, rfl, rfl, Array.size_push _, rfl, rfl⟩

theorem instOf_spec (hisa : isa.Neutral) (hfaithful : isa.Faithful sem) (f : MachFunction τ)
    {ds us : List VReg} (harity : op.HasArity ds.length us.length) :
    (instOf isa f op e ds us).op = op ∧ (instOf isa f op e ds us).defs.map (·.vreg) = ds ∧
      (instOf isa f op e ds us).uses.map (·.vreg) = us := by
  have hfits : op.HasArity (ds.map (operandOf isa f)).length (us.map (operandOf isa f)).length := by
    rwa [List.length_map, List.length_map]
  refine ⟨hfaithful.op_constrain _, ?_, ?_⟩
  · exact (hisa.defs _ hfits).trans (map_vreg_operandOf f ds)
  · exact (hisa.uses _ hfits).trans (map_vreg_operandOf f us)

theorem yields_emitOp (op : MachOp τ) (ds us : List VReg) (hisa : isa.Neutral)
    (hfaithful : isa.Faithful sem) (harity : op.HasArity ds.length us.length) :
    Yields (emitOp isa op e ds us) st fun _ st' =>
      st'.func = st.func ∧ st'.values = st.values ∧ ∃ i : Inst τ, st'.out = st.out.push i ∧
        i.op = op ∧ i.defs.map (·.vreg) = ds ∧ i.uses.map (·.vreg) = us :=
  ⟨(), _, run_emitOp op e ds us st, rfl, rfl, _, rfl, instOf_spec hisa hfaithful st.func harity⟩

theorem yields_result {us : List VReg} {ws : List Int64} (hisa : isa.Neutral)
    (hfaithful : isa.Faithful sem) (hus : Holds st m us ws) (harity : op.HasArity 1 us.length)
    (hfits : sem.Fits op) (hcopy : op.isCopy = false) :
    Yields (do emitOp isa op n [← define a.graph n] us) st fun _ st' =>
      ∃ new, Computed sem m st st' new n (sem.meaning op ws 0) := by
  refine yields_define.bind ?_
  rintro d st₁ ⟨hd, hsize, hout, hvalues⟩
  refine (yields_emitOp op [d] us hisa hfaithful harity).mono ?_
  rintro _ st₂ ⟨hfunc, hvalues₂, i, hout₂, hop, hdefs, huses⟩
  obtain ⟨hsel, hholds⟩ := selected_push hus hop hfits hcopy hdefs huses hd
    (hout₂.trans (congrArg (·.push i) hout)) ((congrArg (·.vregs.size) hfunc).trans hsize)
  exact ⟨[i], hsel, d, hvalues₂.trans hvalues, hholds⟩

theorem yields_emitSet {test : τ} {us : List VReg} {ws : List Int64} (hisa : isa.Neutral)
    (hfaithful : isa.Faithful sem) (hus : Holds st m us ws) (hfits : sem.TakesIn test) :
    Yields (emitSet isa a.graph n test us) st fun _ st' => ∃ new,
      Computed sem m st st' new n (if sem.holds test (.ofWords ws) then 1 else 0) := by
  refine yields_define.bind ?_
  rintro d st₁ ⟨hd, hsize, hout, hvalues⟩
  refine Yields.bind (P := fun os st' => st' = st₁ ∧ os = us.map (operandOf isa st₁.func))
    ⟨_, _, run_anywhere us st₁, rfl, rfl⟩ ?_
  rintro _ st₂ ⟨rfl, rfl⟩
  let i : Inst τ := { op := .setIf test, defs := [⟨d, isa.file.int⟩]
                      uses := us.map (operandOf isa st₂.func), node := some n }
  have hop : (isa.constrain i).op = .setIf test := hfaithful.op_constrain i
  have hdefs : (isa.constrain i).defs.map (·.vreg) = [d] := hisa.defs i trivial
  have huses : (isa.constrain i).uses.map (·.vreg) = us :=
    (hisa.uses i trivial).trans (map_vreg_operandOf _ us)
  refine Yields.modify ⟨[isa.constrain i], ?_⟩
  obtain ⟨hsel, hholds⟩ := selected_push hus hop (show sem.Fits (.setIf test) from hfits) rfl hdefs
    huses hd (congrArg (·.push (isa.constrain i)) hout :
      ({ st₂ with out := st₂.out.push (isa.constrain i) } : State τ).out = _) hsize
  exact ⟨hsel, d, hvalues, hholds⟩

theorem yields_loadConst (hisa : isa.Neutral) (hfaithful : isa.Faithful sem) :
    Yields (loadConst isa (.int x x) n) st fun v st' => st'.values = st.values ∧ ∃ new,
      Selected sem m st st' new ∧ Holds st' (runInsts sem.meaning new m) [v] [x] := by
  have hload : (Ty.int x x).loadOp? = some (MachOp.const (τ := τ) x, RegClass.int) := if_pos rfl
  unfold loadConst
  rw [hload]
  refine Yields.bind (P := fun v st' => v = st.func.vregs.size ∧
    st'.func.vregs.size = st.func.vregs.size + 1 ∧ st'.out = st.out ∧ st'.values = st.values)
    ⟨_, _, rfl, rfl, Array.size_push _, rfl, rfl⟩ ?_
  rintro v st₁ ⟨hv, hsize, hout, hvalues⟩
  refine (yields_emitOp (.const x) [v] [] hisa hfaithful trivial).bind ?_
  rintro _ st₂ ⟨hfunc, hvalues₂, i, hout₂, hop, hdefs, huses⟩
  have hus : Holds st m [] [] := ⟨rfl, fun v hv => absurd hv List.not_mem_nil⟩
  obtain ⟨hsel, hholds⟩ := selected_push hus hop (show sem.Fits (.const x) from trivial) rfl hdefs
    huses hv (hout₂.trans (congrArg (·.push i) hout)) ((congrArg (·.vregs.size) hfunc).trans hsize)
  exact Yields.pure ⟨hvalues₂.trans hvalues, [i], hsel, hholds⟩

theorem yields_value (hisa : isa.Neutral) (hfaithful : isa.Faithful sem) (hm : Mirrors a st m)
    (he : IsInteger a st.values e x) : Yields (value isa a.graph e) st fun v st' =>
      st'.values = st.values ∧ ∃ new, Selected sem m st st' new ∧
        Holds st' (runInsts sem.meaning new m) [v] [x] := by
  obtain ⟨k, rfl, hconst | ⟨hconst, v, hv, hholds⟩⟩ := he.cases hm
  · rw [value_of_const hconst]
    exact yields_loadConst hisa hfaithful
  · refine ⟨v, st, ?_, rfl, [], .refl st, hholds⟩
    unfold value
    dsimp only
    split
    case h_1 t ht => exact absurd ht (hconst t)
    case h_2 =>
      rw [StateT.run_bind, StateT.run_get, pure_bind, hv]
      rfl

theorem Loads.cons {z : SelectM τ VReg} {zs : SelectM τ (List VReg)} {ws : List Int64}
    (hz : Yields z st fun v st' => st'.values = st.values ∧ ∃ new,
      Selected sem m st st' new ∧ Holds st' (runInsts sem.meaning new m) [v] [x])
    (hzs : ∀ st' new, st'.values = st.values → Selected sem m st st' new →
      Loads sem (runInsts sem.meaning new m) zs st' ws) :
    Loads sem m (do let v ← z; let vs ← zs; return v :: vs) st (x :: ws) := by
  refine hz.bind ?_
  rintro v st₁ ⟨hvalues, new, hsel, hv⟩
  refine (hzs st₁ new hvalues hsel).bind ?_
  rintro vs st₂ ⟨hvalues₂, new₂, hsel₂, hvs⟩
  refine Yields.pure ⟨hvalues₂.trans hvalues, new ++ new₂, hsel.trans hsel₂, ?_⟩
  rw [runInsts_append]
  exact (hv.kept hsel₂).cons hvs

theorem loads_values {es : List Edge} {ws : List Int64} (hisa : isa.Neutral)
    (hfaithful : isa.Faithful sem) {values : SideTable (Option VReg)} (hvalues : st.values = values)
    (hm : Mirrors a st m) (hes : List.Forall₂ (IsInteger a values) es ws) :
    Loads sem m (es.mapM (value isa a.graph)) st ws := by
  induction hes generalizing st m with
  | nil => exact Yields.pure ⟨rfl, [], .refl st, rfl, fun v hv => absurd hv List.not_mem_nil⟩
  | cons he _ ih =>
    rw [List.mapM_cons]
    refine Loads.cons (yields_value hisa hfaithful hm (hvalues ▸ he)) ?_
    intro st' new hvalues' hsel
    exact ih (hvalues'.trans hvalues) (hm.kept hvalues' hsel)

theorem yields_side (hisa : isa.Neutral) (hfaithful : isa.Faithful sem) (hm : Mirrors a st m)
    {s : Side} {sides : List Side} (he : s ∈ sides → IsInteger a st.values e x) :
    Yields (if sides.contains s then some <$> value isa a.graph e else pure none) st fun o st' =>
      st'.values = st.values ∧ ∃ new, Selected sem m st st' new ∧
        (s ∈ sides → ∃ v, o = some v ∧ Holds st' (runInsts sem.meaning new m) [v] [x]) := by
  by_cases hs : s ∈ sides
  · rw [if_pos (List.contains_iff_mem.mpr hs), map_eq_pure_bind]
    refine (yields_value hisa hfaithful hm (he hs)).bind ?_
    rintro v st' ⟨hvalues, new, hsel, hholds⟩
    exact Yields.pure ⟨hvalues, new, hsel, fun _ => ⟨v, rfl, hholds⟩⟩
  · rw [if_neg fun h => hs (List.contains_iff_mem.mp h)]
    exact Yields.pure ⟨rfl, [], .refl st, fun h => absurd h hs⟩

theorem Holds.filterMap {reg : Side → Option VReg} {word : Side → Int64} {sides : List Side}
    (hreg : ∀ s ∈ sides, ∃ v, reg s = some v ∧ Holds st m [v] [word s]) :
    Holds st m (sides.filterMap reg) (sides.map word) := by
  induction sides with
  | nil => exact ⟨rfl, fun v hv => absurd hv List.not_mem_nil⟩
  | cons s sides ih =>
    obtain ⟨v, hv, hholds⟩ := hreg s List.mem_cons_self
    rw [List.filterMap_cons, hv]
    exact hholds.cons (ih fun s hs => hreg s (List.mem_cons_of_mem _ hs))

theorem loads_testOperands (hisa : isa.Neutral) (hfaithful : isa.Faithful sem) (hm : Mirrors a st m)
    {sides : List Side} (hleft : .left ∈ sides → IsInteger a st.values e x)
    (hright : .right ∈ sides → IsInteger a st.values e' y) :
    Loads sem m (testOperands isa a.graph e e' sides) st (sides.map (Side.pick x y)) := by
  refine (yields_side hisa hfaithful hm hleft).bind ?_
  rintro o st₁ ⟨hvalues, new, hsel, ho⟩
  refine (yields_side hisa hfaithful (hm.kept hvalues hsel) (hvalues ▸ hright)).bind ?_
  rintro o' st₂ ⟨hvalues₂, new₂, hsel₂, ho'⟩
  refine Yields.pure ⟨hvalues₂.trans hvalues, new ++ new₂, hsel.trans hsel₂, ?_⟩
  rw [runInsts_append]
  refine Holds.filterMap fun s hs => ?_
  cases s with
  | left =>
    obtain ⟨v, hv, hholds⟩ := ho hs
    exact ⟨v, hv, hholds.kept hsel₂⟩
  | right => exact ho' hs

theorem Loads.computed {z : SelectM τ (List VReg)} {ws : List Int64}
    {f : List VReg → SelectM τ Unit} (hz : Loads sem m z st ws)
    (hf : ∀ us st' m', us.length = ws.length → Holds st' m' us ws →
      Yields (f us) st' fun _ st'' => ∃ new, Computed sem m' st' st'' new n x) :
    Yields (z >>= f) st fun _ st' => ∃ new, Computed sem m st st' new n x := by
  refine hz.bind ?_
  rintro us st₁ ⟨hvalues, new, hsel, hus⟩
  refine (hf us st₁ _ (hus.1 ▸ (List.length_map _).symm) hus).mono ?_
  rintro _ st₂ ⟨new₂, hsel₂, d, hvalues₂, hholds⟩
  refine ⟨new ++ new₂, hsel.trans hsel₂, d, hvalues ▸ hvalues₂, ?_⟩
  rwa [runInsts_append]

theorem yields_emitValue (op : MachOp τ) {es : List Edge} {ws : List Int64} (hisa : isa.Neutral)
    (hfaithful : isa.Faithful sem) (hm : Mirrors a st m)
    (hes : List.Forall₂ (IsInteger a st.values) es ws) (harity : op.HasArity 1 ws.length)
    (hfits : sem.Fits op) (hcopy : op.isCopy = false) :
    Yields (emitValue isa a.graph n op es) st fun _ st' =>
      ∃ new, Computed sem m st st' new n (sem.meaning op ws 0) :=
  (loads_values hisa hfaithful rfl hm hes).computed fun _ _ _ hlength hus =>
    yields_result hisa hfaithful hus (hlength ▸ harity) hfits hcopy

theorem yields_selectAlu (hisa : isa.Neutral) (hfaithful : isa.Faithful sem) (hm : Mirrors a st m)
    (hx : IsInteger a st.values (a.graph.input n 1) x)
    (hy : IsInteger a st.values (a.graph.input n 2) y) (op : AluOp) :
    Yields (selectAlu isa a.graph n op) st fun _ st' =>
      ∃ new, Computed sem m st st' new n (op.eval x y) := by
  have himm {e : Edge} {z : Int64} {p : AluOp × Int64} (he : IsInteger a st.values e z)
      (hp : (a.graph.intConst? e).bind (isa.immediate? op) = some p) :
      (∀ w, p.1.eval w p.2 = op.eval w z) ∧ sem.Takes p.1 p.2 := by
    obtain ⟨c, hc, hp⟩ := Option.bind_eq_some_iff.mp hp
    obtain rfl := he.eq_of_mem_intConst? hm c hc
    exact ⟨hfaithful.eval_immediate hp, hfaithful.takes hp⟩
  unfold selectAlu
  dsimp only
  split
  case h_1 op' v hv =>
    obtain ⟨heval, htakes⟩ := himm hy hv
    rw [← heval]
    exact yields_emitValue (.aluImm op' v) hisa hfaithful hm (.cons hx .nil) ⟨rfl, rfl⟩ htakes rfl
  case h_2 =>
    split
    case h_1 op' v hv =>
      obtain ⟨hcomm, hv⟩ := Option.ite_none_right_eq_some.mp hv
      obtain ⟨heval, htakes⟩ := himm hx hv
      rw [AluOp.eval_comm hcomm, ← heval]
      exact yields_emitValue (.aluImm op' v) hisa hfaithful hm (.cons hy .nil) ⟨rfl, rfl⟩ htakes rfl
    case h_2 =>
      exact yields_emitValue (.alu op) hisa hfaithful hm (.cons hx (.cons hy .nil)) ⟨rfl, rfl⟩
        trivial rfl

theorem holds_ofWords (hfaithful : isa.Faithful sem) {op : CmpOp} {c c' : Option Int64}
    (hc : ∀ z ∈ c, z = x) (hc' : ∀ z ∈ c', z = y) : sem.holds (isa.intTest op c c').1
      (.ofWords ((isa.intTest op c c').2.map (Side.pick x y))) = op.evalInt x y := by
  refine hfaithful.holds_intTest hc hc' fun k s hs => ?_
  change (List.getD _ k (0 : Int64)).toBitVec = _
  rw [List.getD_eq_getElem?_getD, List.getElem?_map, hs]
  rfl

theorem yields_not (hisa : isa.Neutral) (hfaithful : isa.Faithful sem) (hm : Mirrors a st m)
    (hop : a.graph.op n = .not) (hx : IsInteger a st.values (a.graph.input n 1) x)
    {succs : List Nat} :
    Yields (selectNode isa a.graph succs n) st fun _ st' => ∃ new,
      Computed sem m st st' new n (if x = 0 then 1 else 0) := by
  have hholds : sem.holds (isa.intTest .eq none (some 0)).1
      (.ofWords ((isa.intTest .eq none (some 0)).2.map (Side.pick x 0))) = decide (x = 0) :=
    holds_ofWords hfaithful (fun z hz => by cases hz) (fun z hz => (Option.mem_some_iff.mp hz).symm)
  simp only [selectNode, hop]
  refine Loads.computed (loads_testOperands hisa hfaithful hm (y := 0) (fun _ => hx)
    fun h => absurd h (hisa.zero .eq)) fun us st' m' _ hus => ?_
  refine (yields_emitSet hisa hfaithful hus (hfaithful.takesIn ..)).mono fun _ st'' hnew => ?_
  simpa only [hholds, decide_eq_true_eq] using hnew

theorem yields_selectTest (hisa : isa.Neutral) (hfaithful : isa.Faithful sem) (hm : Mirrors a st m)
    {op : CmpOp} (hop : a.graph.op n = .cmp op)
    (hx : IsInteger a st.values (a.graph.input n 1) x)
    (hy : IsInteger a st.values (a.graph.input n 2) y) :
    Yields (selectTest isa a.graph (some n)) st fun p st' => st'.values = st.values ∧
      ∃ new ws, Selected sem m st st' new ∧ Holds st' (runInsts sem.meaning new m) p.2 ws ∧
        sem.TakesIn p.1 ∧ sem.holds p.1 (.ofWords ws) = op.evalInt x y := by
  have hop : a.graph.op? (some n) = some (.cmp op) := congrArg some hop
  simp only [selectTest, hop]
  refine (loads_testOperands hisa hfaithful hm (fun _ => hx) (fun _ => hy)).bind ?_
  rintro us st' ⟨hvalues, new, hsel, hus⟩
  exact Yields.pure ⟨hvalues, new, _, hsel, hus, hfaithful.takesIn ..,
    holds_ofWords hfaithful (hx.eq_of_mem_intConst? hm) (hy.eq_of_mem_intConst? hm)⟩

theorem yields_fork (hisa : isa.Neutral) (hfaithful : isa.Faithful sem) (hm : Mirrors a st m)
    {op : CmpOp} {f : NodeId} (yes no : Nat) (hfork : a.graph.op f = .fork)
    (hinput : a.graph.input f 1 = some n) (hop : a.graph.op n = .cmp op)
    (hx : IsInteger a st.values (a.graph.input n 1) x)
    (hy : IsInteger a st.values (a.graph.input n 2) y) :
    Yields (selectNode isa a.graph [yes, no] f) st fun _ st' => ∃ new i test,
      Selected sem m st st' (new ++ [i]) ∧ i.op = .branch test yes no ∧
        sem.holds test (.ofWords (i.inputs id (runInsts sem.meaning new m))) = op.evalInt x y := by
  simp only [selectNode, hfork, hinput]
  refine (yields_selectTest hisa hfaithful hm hop hx hy).bind ?_
  rintro p st₁ ⟨hvalues, new, ws, hsel, hus, htakes, hholds⟩
  refine (yields_emitOp (.branch p.1 yes no) [] p.2 hisa hfaithful trivial).mono ?_
  rintro _ st₂ ⟨hfunc, -, i, hout, hop, hdefs, huses⟩
  have hinputs : i.inputs id (runInsts sem.meaning new m) = ws := by
    rw [← hus.1, ← huses, List.map_map]
    rfl
  refine ⟨new, i, p.1, hsel.trans ⟨?_, ?_, ?_, fun v _ => ?_⟩, hop, hinputs ▸ hholds⟩
  · rw [hout, Array.toList_push]
  · exact List.forall_mem_singleton.mpr (hop ▸ (show sem.Fits (.branch p.1 yes no) from htakes))
  · rw [hfunc]
  · refine i.exec_of_forall_ne sem.meaning _ fun o ho => ?_
    rw [List.map_eq_nil_iff.mp hdefs] at ho
    exact absurd ho List.not_mem_nil

end

end Select

def Op.isOnIntegers : Op → Bool
  | .arith _ | .bit _ | .neg | .not | .cmp _ => true
  | _ => false

namespace Activation

variable {a : Activation} {n : NodeId} {e : Edge} {x y : Int64}

theorem getInt_of_get (h : a.get e = .ok (.int x)) : a.getInt e = .ok x := by
  rw [getInt, h]
  rfl

theorem pureValue_arith {op : ArithOp} (hop : a.graph.op n = .arith op)
    (hx : a.get (a.graph.input n 1) = .ok (.int x)) (hy : a.get (a.graph.input n 2) = .ok (.int y))
    (hdiv : op = .div → y ≠ 0) :
    a.pureValue n = .ok (some (.int ((AluOp.ofArith op).eval x y))) := by
  simp only [pureValue, hop, getInt_of_get hx, getInt_of_get hy]
  cases op with
  | add | sub | mul => rfl
  | div =>
    change (if y = 0 then _ else _ : Except EvalError Value) >>= _ = _
    rw [if_neg (hdiv rfl)]
    rfl

theorem pureValue_bit {op : BitOp} (hop : a.graph.op n = .bit op)
    (hx : a.get (a.graph.input n 1) = .ok (.int x))
    (hy : a.get (a.graph.input n 2) = .ok (.int y)) :
    a.pureValue n = .ok (some (.int ((AluOp.ofBit op).eval x y))) := by
  simp only [pureValue, hop, getInt_of_get hx, getInt_of_get hy, AluOp.eval_ofBit]
  rfl

theorem pureValue_neg (hop : a.graph.op n = .neg) (hx : a.get (a.graph.input n 1) = .ok (.int x)) :
    a.pureValue n = .ok (some (.int (-x))) := by
  simp only [pureValue, hop, hx]
  rfl

theorem pureValue_not (hop : a.graph.op n = .not) (hx : a.get (a.graph.input n 1) = .ok (.int x)) :
    a.pureValue n = .ok (some (.int (if x = 0 then 1 else 0))) := by
  simp only [pureValue, hop, hx]
  change Except.ok (some (boolValue !(x != 0))) = _
  by_cases h : x = 0
  · rw [h]
    rfl
  · rw [if_neg h, bne_iff_ne.mpr h]
    rfl

theorem pureValue_cmp {op : CmpOp} (hop : a.graph.op n = .cmp op)
    (hx : a.get (a.graph.input n 1) = .ok (.int x))
    (hy : a.get (a.graph.input n 2) = .ok (.int y)) :
    a.pureValue n = .ok (some (boolValue (op.evalInt x y))) := by
  simp only [pureValue, hop, hx, hy]
  rfl

theorem stepNode_eq_pureValue (h : (a.graph.op n).isOnIntegers) (call : Machine.Caller) (m : Machine) :
    Machine.stepNode call m a n = (a.pureValue n, m) := by
  unfold Machine.stepNode
  cases hop : a.graph.op n <;> rw [hop] at h <;> first | rfl | cases h

theorem isTruthy_boolValue (b : Bool) : (boolValue b).isTruthy = b := by
  cases b <;> rfl

end Activation

namespace Select

/-- An operator whose operands are integers, constant or not, and which does not divide by zero. -/
structure OnIntegers (a : Activation) (values : SideTable (Option VReg)) (n : NodeId) : Prop where
  operator : (a.graph.op n).isOnIntegers
  operands : ∀ j ∈ (a.graph.op n).reads, ∃ x, IsInteger a values (a.graph.input n j) x
  divisor : a.graph.op n = .arith .div → a.get (a.graph.input n 2) ≠ .ok (.int 0)

section

variable {τ : Type} {isa : Isa τ} {sem : Semantics τ} {a : Activation} {st st' : State τ}
  {m : VReg → Int64} {new : List (Inst τ)} {n : NodeId} {x y : Int64}

/-- A node that branches do not compare for themselves gets the value that the evaluator gives it. -/
theorem OnIntegers.yields_selectNode (hisa : isa.Neutral) (hfaithful : isa.Faithful sem)
    (hm : Mirrors a st m) (hn : OnIntegers a st.values n) (hfused : a.graph.isFused n = false)
    (succs : List Nat) : ∃ x, a.pureValue n = .ok (some (.int x)) ∧
      Yields (selectNode isa a.graph succs n) st fun _ st' =>
        ∃ new, Computed sem m st st' new n x := by
  have hoperands := hn.operands
  cases hop : a.graph.op n with
  | arith op =>
    rw [hop] at hoperands
    obtain ⟨x, hx⟩ := hoperands 1 List.mem_cons_self
    obtain ⟨y, hy⟩ := hoperands 2 (List.mem_cons_of_mem _ List.mem_cons_self)
    have hdiv : op = .div → y ≠ 0 := by
      rintro rfl rfl
      exact hn.divisor hop hy.get
    refine ⟨_, Activation.pureValue_arith hop hx.get hy.get hdiv, ?_⟩
    simp only [selectNode, hop]
    exact yields_selectAlu hisa hfaithful hm hx hy _
  | bit op =>
    rw [hop] at hoperands
    obtain ⟨x, hx⟩ := hoperands 1 List.mem_cons_self
    obtain ⟨y, hy⟩ := hoperands 2 (List.mem_cons_of_mem _ List.mem_cons_self)
    refine ⟨_, Activation.pureValue_bit hop hx.get hy.get, ?_⟩
    simp only [selectNode, hop]
    exact yields_selectAlu hisa hfaithful hm hx hy _
  | neg =>
    rw [hop] at hoperands
    obtain ⟨x, hx⟩ := hoperands 1 List.mem_cons_self
    refine ⟨_, Activation.pureValue_neg hop hx.get, ?_⟩
    simp only [selectNode, hop]
    exact yields_emitValue .neg hisa hfaithful hm (.cons hx .nil) ⟨rfl, rfl⟩ trivial rfl
  | not =>
    rw [hop] at hoperands
    obtain ⟨x, hx⟩ := hoperands 1 List.mem_cons_self
    exact ⟨_, Activation.pureValue_not hop hx.get, yields_not hisa hfaithful hm hop hx⟩
  | cmp op =>
    rw [hop] at hoperands
    obtain ⟨x, hx⟩ := hoperands 1 List.mem_cons_self
    obtain ⟨y, hy⟩ := hoperands 2 (List.mem_cons_of_mem _ List.mem_cons_self)
    refine ⟨_, Activation.pureValue_cmp hop hx.get hy.get, ?_⟩
    simp only [selectNode, hop, hfused]
    refine (yields_selectTest hisa hfaithful hm hop hx hy).bind ?_
    rintro p st₁ ⟨hvalues, new, ws, hsel, hus, htakes, hholds⟩
    refine (yields_emitSet hisa hfaithful hus htakes).mono ?_
    rintro _ st₂ ⟨new₂, hsel₂, d, hvalues₂, hd⟩
    refine ⟨new ++ new₂, hsel.trans hsel₂, d, hvalues ▸ hvalues₂, ?_⟩
    rwa [runInsts_append, ← hholds]
  | _ =>
    have h := hn.operator
    rw [hop] at h
    cases h

theorem Computed.mirrors (h : Computed sem m st st' new n x) (hm : Mirrors a st m)
    (hconst : ∀ t, a.graph.op n ≠ .const t) :
    Mirrors (a.set n (.int x)) st' (runInsts sem.meaning new m) := by
  obtain ⟨hsel, d, hvalues, hwords, hexists⟩ := h
  have hd := hexists d (List.mem_singleton_self d)
  refine ⟨fun {k v} hv => ?_, fun {k v z} hv hz => ?_,
    hm.truthful.set fun t ht => absurd ht (hconst t)⟩
  all_goals rw [hvalues, SideTable.get_set] at hv
  · split_ifs at hv
    · exact Option.some.inj hv ▸ hd
    · exact (hm.size hv).trans_le hsel.size
  · rw [Activation.value_set] at hz
    split_ifs at hv hz with hk hlt hlt
    · cases hv
      cases hz
      exact List.singleton_inj.mp hwords
    · have hnone : a.value k = none := by
        rw [Activation.value, Array.getD_eq_getD_getElem?, Array.getElem?_eq_none]
        · rfl
        · exact Nat.le_of_not_lt fun h => hlt ⟨hk, hk ▸ h⟩
      cases hnone.symm.trans hz
    · exact absurd hlt.1 hk
    · exact (hsel.kept v (hm.size hv)).trans (hm.holds hv hz)

end

/-- The instructions that are selected for an operator on integers compute what the evaluator
computes, whichever of the operands are constants, and the registers mirror the evaluator again. A
comparison that only branches read has no instructions, and every branch on a comparison goes the way
that its value tells. All immediates fit. -/
theorem integers_selected (t : Target) (other : OpSem t.isa.1 Int64) {a : Activation}
    {st : State t.isa.1} {m : VReg → Int64} {n : NodeId} (hm : Mirrors a st m)
    (hn : OnIntegers a st.values n) :
    (∀ succs, a.graph.isFused n = false → ∃ st' new x,
      (selectNode t.isa.2 a.graph succs n).run st = .ok ((), st') ∧
      Computed (t.semantics other) m st st' new n x ∧
      (∀ call k, Machine.stepNode call k a n = (.ok (some (.int x)), k)) ∧
      Mirrors (a.set n (.int x)) st' (runInsts (t.semantics other).meaning new m)) ∧
    (∀ succs, a.graph.isFused n → (selectNode t.isa.2 a.graph succs n).run st = .ok ((), st)) ∧
    ∀ f yes no, a.graph.op f = .fork → a.graph.input f 1 = some n →
      (∃ op, a.graph.op n = .cmp op) → ∃ st' new i test v,
      (selectNode t.isa.2 a.graph [yes, no] f).run st = .ok ((), st') ∧
      Selected (t.semantics other) m st st' (new ++ [i]) ∧ i.op = .branch test yes no ∧
      (∀ call k, Machine.stepNode call k a n = (.ok (some v), k)) ∧
      (t.semantics other).holds test
        (.ofWords (i.inputs id (runInsts (t.semantics other).meaning new m))) = v.isTruthy := by
  have hisa := t.neutral
  have hfaithful := t.faithful other
  have hstep (call : Machine.Caller) (k : Machine) := Activation.stepNode_eq_pureValue hn.operator call k
  refine ⟨fun succs hfused => ?_, fun succs hfused => ?_, ?_⟩
  · obtain ⟨x, hx, _, st', hrun, new, hcomputed⟩ :=
      hn.yields_selectNode hisa hfaithful hm hfused succs
    refine ⟨st', new, x, hrun, hcomputed, hx ▸ hstep, hcomputed.mirrors hm fun t ht => ?_⟩
    have h := hn.operator
    rw [ht] at h
    cases h
  · cases hop : a.graph.op n with
    | cmp op =>
      simp only [selectNode, hop, hfused]
      rfl
    | floatCmp op =>
      simp only [selectNode, hop, hfused]
      rfl
    | _ =>
      unfold Graph.isFused at hfused
      rw [hop] at hfused
      cases hfused
  · rintro f yes no hfork hinput ⟨op, hop⟩
    have hoperands := hn.operands
    rw [hop] at hoperands
    obtain ⟨x, hx⟩ := hoperands 1 List.mem_cons_self
    obtain ⟨y, hy⟩ := hoperands 2 (List.mem_cons_of_mem _ List.mem_cons_self)
    obtain ⟨_, st', hrun, new, i, test, hsel, hi, hholds⟩ :=
      yields_fork hisa hfaithful hm yes no hfork hinput hop hx hy
    exact ⟨st', new, i, test, _, hrun, hsel, hi, Activation.pureValue_cmp hop hx.get hy.get ▸ hstep,
      hholds.trans (Activation.isTruthy_boolValue _).symm⟩

/-- A parameter from which 2048 is subtracted. -/
def difference : Graph where
  nodes := #[
    { op := .start, inputs := #[] }, { op := .param 0, inputs := #[some 0] },
    { op := .const (.int 2048 2048), inputs := #[some 0] },
    { op := .arith .sub, inputs := #[none, some 1, some 2] }]

/-- On RISC-V, -2048 is added. -/
theorem integers_selected_difference :
    let a := (Activation.ofCall ⟨difference, default⟩ #[] 0).set 1 (.int 5000)
    let st : State RiscV.Test :=
      { func := { name := "difference", vregs := #[⟨.int, false⟩] }
        values := ({} : SideTable (Option VReg)).set 1 (some 0) }
    let sem := RiscV.semantics fun _ _ _ => 0
    Mirrors a st (fun _ => 5000) ∧ OnIntegers a st.values 3 ∧ a.graph.isFused 3 = false ∧
      ∃ st' new x, (selectNode RiscV.isa a.graph [] 3).run st = .ok ((), st') ∧
        Computed sem (fun _ => 5000) st st' new 3 x ∧
          ∀ call k, Machine.stepNode call k a 3 = (.ok (some (.int x)), k) := by
  intro a st sem
  have hreg {k : NodeId} {v : VReg} (h : st.values.get k = some v) : k = 1 ∧ v = 0 := by
    rw [SideTable.get_set] at h
    split_ifs at h with hk
    · exact ⟨hk.symm, (Option.some.inj h).symm⟩
    · cases h
  have hvalue {k : NodeId} {v : Value} (h : a.value k = some v) : k = 1 ∧ v = .int 5000 := by
    rw [Activation.value_set] at h
    split_ifs at h with hk
    · exact ⟨hk.1.symm, (Option.some.inj h).symm⟩
    · cases (Schedule.value_ofCall _ _ _ k).symm.trans h
  have hm : Mirrors a st fun _ => 5000 := by
    refine ⟨fun h => (hreg h).2 ▸ Nat.one_pos, fun _ h => ?_, fun n t ht => .inl ?_⟩
    · cases (hvalue h).2
      rfl
    · cases hv : a.value n with
      | none => exact hv
      | some v =>
        obtain ⟨rfl, -⟩ := hvalue hv
        cases ht
  have hn : OnIntegers a st.values 3 := by
    refine ⟨rfl, fun j hj => ?_, fun h => by cases h⟩
    have hj : j ∈ [1, 2] := hj
    obtain rfl | rfl : j = 1 ∨ j = 2 := by simpa using hj
    · exact ⟨5000, rfl, fun k hk _ => by cases hk; rfl⟩
    · exact ⟨2048, rfl, fun k hk h => by cases hk; exact absurd rfl (h _)⟩
  obtain ⟨st', new, x, hrun, hcomputed, hx, -⟩ :=
    (integers_selected ⟨.riscv64, .lp64d⟩ (fun _ _ _ => 0) hm hn).1 [] rfl
  exact ⟨hm, hn, rfl, st', new, x, hrun, hcomputed, hx⟩

end Select

end SeaNodes
