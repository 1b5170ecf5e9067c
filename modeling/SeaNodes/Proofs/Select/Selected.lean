import SeaNodes.Proofs.Select.Classes

namespace SeaNodes

variable {τ : Type} {isa : Isa τ} {g : Graph}

namespace Select

variable {B : isa.Banks} {st st' st₁ : State τ} {n : NodeId} {v : VReg} {c : RegClass} {e : Edge}
  {u : Unit}

theorem Step.lt (h : Step g B st st') (hv : v < st.func.vregs.size) :
    v < st'.func.vregs.size := (h.grows v _ ⟨hv, rfl⟩).1

theorem step_emitValue {op : MachOp τ} {inputs : List Edge} (hs : st.Sound g B)
    (h : (emitValue isa g n op inputs).run st = .ok (u, st'))
    (himm : ∀ o, op.immOp? = some o → B.hasImm o)
    (hdefs : (op.demand B.test).defs = [g.classOf n])
    (huses : (op.demand B.test).uses = inputs.map g.edgeClass) : Step g B st st' := by
  obtain ⟨vs, st₁, hvs, h⟩ := bind_eq_ok h
  obtain ⟨d, st₂, hd, h⟩ := bind_eq_ok h
  obtain ⟨hstep, hholds⟩ := step_values hs hvs
  obtain ⟨hstep', hhas⟩ := step_define (B := B) hd
  refine (hstep.trans hstep').trans (step_emitOp h himm ?_ ?_)
  · rw [hdefs]
    exact .cons hhas .nil
  · rw [huses]
    exact hstep'.holds hholds

theorem step_selectAlu {op : AluOp} (hs : st.Sound g B) (hclass : g.classOf n = .int)
    (ha : g.edgeClass (g.input n 1) = .int) (hb : g.edgeClass (g.input n 2) = .int)
    (h : (selectAlu isa g n op).run st = .ok (u, st')) : Step g B st st' := by
  have himm {e : Edge} {op' : AluOp} {x : Int64}
      (he : (g.intConst? e).bind (isa.immediate? op) = some (op', x)) :
      ∀ o, (MachOp.aluImm op' x : MachOp τ).immOp? = some o → B.hasImm o := by
    rintro o ho
    obtain ⟨y, -, hy⟩ := Option.bind_eq_some_iff.mp he
    exact Option.some.inj ho ▸ B.imm op y op' x hy
  unfold selectAlu at h
  dsimp only at h
  split at h
  · rename_i op' x hx
    exact step_emitValue hs h (himm hx) (by rw [hclass]; rfl) (by simp [ha]; rfl)
  · split at h
    · rename_i op' x hx
      have hx' : (g.intConst? (g.input n 1)).bind (isa.immediate? op) = some (op', x) := by
        split_ifs at hx
        exact hx
      exact step_emitValue hs h (himm hx') (by rw [hclass]; rfl) (by simp [hb]; rfl)
    · exact step_emitValue hs h nofun (by rw [hclass]; rfl) (by simp [ha, hb]; rfl)

theorem holds_sides {f : MachFunction τ} {pick : Side → Option VReg} (sides : List Side)
    (h : ∀ s ∈ sides, ∃ v, pick s = some v ∧ f.Has v c) :
    f.Holds (List.replicate sides.length c) (sides.filterMap pick) := by
  induction sides with
  | nil => exact .nil
  | cons s sides ih =>
    rw [List.forall_mem_cons] at h
    obtain ⟨v, hv, hhas⟩ := h.1
    rw [List.filterMap_cons_some hv]
    exact .cons hhas (ih h.2)

theorem step_testOperands {a b : Edge} {sides : List Side} {vs : List VReg} (hs : st.Sound g B)
    (ha : g.edgeClass a = c) (hb : g.edgeClass b = c)
    (h : (testOperands isa g a b sides).run st = .ok (vs, st')) :
    Step g B st st' ∧ st'.func.Holds (List.replicate sides.length c) vs := by
  have hload {s : Side} {e : Edge} {st st' : State τ} {x : Option VReg} (hs : st.Sound g B)
      (h : (if sides.contains s then some <$> value isa g e else pure none : SelectM τ _).run st =
        .ok (x, st')) :
      Step g B st st' ∧ (s ∈ sides → ∃ v, x = some v ∧ st'.func.Has v (g.edgeClass e)) := by
    split_ifs at h with hside
    · rw [map_eq_pure_bind] at h
      obtain ⟨v, st₁, hv, h⟩ := bind_eq_ok h
      obtain ⟨rfl, rfl⟩ := pure_eq_ok h
      obtain ⟨hstep, hhas⟩ := step_value hs hv
      exact ⟨hstep, fun _ => ⟨v, rfl, hhas⟩⟩
    · obtain ⟨rfl, rfl⟩ := pure_eq_ok h
      exact ⟨.refl g B st, fun hmem => absurd (List.contains_iff_mem.mpr hmem) hside⟩
  obtain ⟨x, st₁, hx, h⟩ := bind_eq_ok h
  obtain ⟨y, st₂, hy, h⟩ := bind_eq_ok h
  obtain ⟨rfl, rfl⟩ := pure_eq_ok h
  obtain ⟨hstep, hleft⟩ := hload hs hx
  obtain ⟨hstep', hright⟩ := hload (hstep.sound hs) hy
  refine ⟨hstep.trans hstep', holds_sides sides fun s hmem => ?_⟩
  cases s with
  | left =>
    obtain ⟨v, hv, hhas⟩ := hleft hmem
    exact ⟨v, hv, ha ▸ hstep'.grows v _ hhas⟩
  | right =>
    obtain ⟨v, hv, hhas⟩ := hright hmem
    exact ⟨v, hv, hb ▸ hhas⟩

theorem step_selectTest {t : τ} {vs : List VReg} (hs : st.Sound g B) (hfits : g.TestFits e)
    (h : (selectTest isa g e).run st = .ok ((t, vs), st')) :
    Step g B st st' ∧ st'.func.Holds (B.test t) vs := by
  unfold selectTest at h
  unfold Graph.TestFits at hfits
  split at h
  · rename_i op hop
    obtain ⟨vs', st₁, hvs, h⟩ := bind_eq_ok h
    obtain ⟨heq, rfl⟩ := pure_eq_ok h
    obtain ⟨rfl, rfl⟩ := Prod.mk.inj heq
    rw [hop] at hfits
    rw [B.intTest]
    exact step_testOperands hs hfits.1 hfits.2 hvs
  · rename_i op hop
    obtain ⟨vs', st₁, hvs, h⟩ := bind_eq_ok h
    obtain ⟨heq, rfl⟩ := pure_eq_ok h
    obtain ⟨rfl, rfl⟩ := Prod.mk.inj heq
    rw [hop] at hfits
    rw [B.floatTest]
    exact step_testOperands hs hfits.1 hfits.2 hvs
  · rename_i hcmp hfloat
    obtain ⟨vs', st₁, hvs, h⟩ := bind_eq_ok h
    obtain ⟨heq, rfl⟩ := pure_eq_ok h
    obtain ⟨rfl, rfl⟩ := Prod.mk.inj heq
    rw [B.intTest]
    -- a node of another operation is compared with zero, so it is an integer
    refine step_testOperands hs ?_ rfl hvs
    split at hfits
    · rename_i op hop
      exact absurd hop (hcmp op)
    · rename_i op hop
      exact absurd hop (hfloat op)
    · exact hfits

theorem step_emitSet {t : τ} {vs : List VReg} (h : (emitSet isa g n t vs).run st = .ok (u, st'))
    (hvs : st.func.Holds (B.test t) vs) : Step g B st st' := by
  obtain ⟨d, st₁, hd, h⟩ := bind_eq_ok h
  obtain ⟨us, st₂, hus, h⟩ := bind_eq_ok h
  obtain ⟨rfl, rfl⟩ := mapM_anywhere hus
  obtain ⟨hstep, hhas⟩ := step_define (B := B) hd
  have hvs' := hstep.holds hvs
  have hset : B.Encodes
      { op := .setIf t
        defs := [⟨d, isa.file.int⟩]
        uses := st₁.func.operandsFor isa vs
        node := some n } :=
    ⟨nofun, masksWithin_singleton (B.file .int), hvs'.masksWithin B⟩
  refine hstep.trans (step_emit h (MachFunction.Takes.constrain ⟨hset, fun o ho => ?_⟩))
  rcases List.mem_cons.mp ho with rfl | ho
  · exact hhas.1
  · exact hvs'.operand_lt o ho

theorem step_selectAddress {disp : Option Int64} {vs : List VReg} (hs : st.Sound g B)
    (hbase : g.edgeClass (g.input n 2) = .int) (hoffset : g.edgeClass (g.input n 3) = .int)
    (h : (selectAddress isa g n).run st = .ok ((disp, vs), st')) :
    Step g B st st' ∧ st'.func.Holds (addressClasses disp) vs := by
  obtain ⟨b, st₁, hb, h⟩ := bind_eq_ok h
  obtain ⟨hstep, hhas⟩ := step_value hs hb
  rw [hbase] at hhas
  dsimp only at h
  split at h
  · obtain ⟨heq, rfl⟩ := pure_eq_ok h
    obtain ⟨rfl, rfl⟩ := Prod.mk.inj heq
    exact ⟨hstep, .cons hhas .nil⟩
  · obtain ⟨o, st₂, ho, h⟩ := bind_eq_ok h
    obtain ⟨heq, rfl⟩ := pure_eq_ok h
    obtain ⟨rfl, rfl⟩ := Prod.mk.inj heq
    obtain ⟨hstep', hhas'⟩ := step_value (hstep.sound hs) ho
    rw [hoffset] at hhas'
    exact ⟨hstep.trans hstep', .cons (hstep'.grows b _ hhas) (.cons hhas' .nil)⟩

theorem step_call (hasCalls : Bool) (outgoing : UInt32)
    (h : (modify fun s => { s with
      func := { s.func with hasCalls, outgoing := max s.func.outgoing outgoing } } :
        SelectM τ Unit).run st = .ok (u, st')) : Step g B st st' := by
  obtain rfl := modify_eq_ok h
  refine ⟨fun _ _ h => h, fun _ => rfl, fun hs => ⟨fun b i hi => ?_, fun i hi => ?_, hs.phis,
    hs.values⟩⟩
  · have htakes := hs.insts b i hi
    exact ⟨htakes.encodes, htakes.inRange⟩
  · have htakes := hs.out i hi
    exact ⟨htakes.encodes, htakes.inRange⟩

/-- A call takes its arguments wherever the convention puts them. -/
theorem step_emitCall {op : MachOp τ} {args : List (VReg × RegClass)} {result : Option NodeId}
    (h : (emitCall isa g n op args result).run st = .ok (u, st')) (himm : op.immOp? = none)
    (hdemand : op.demand B.test = {}) (hargs : ∀ a ∈ args, a.1 < st.func.vregs.size) :
    Step g B st st' := by
  unfold emitCall at h
  dsimp only at h
  obtain ⟨u₁, st₁, hcall, h⟩ := bind_eq_ok h
  obtain ⟨uses, st₂, hloop, h⟩ := bind_eq_ok h
  have hstep := step_call (g := g) (B := B) true _ hcall
  have hloop' : Step g B st₁ st₂ ∧ ∀ o ∈ uses, o.vreg < st₂.func.vregs.size := by
    refine (forIn_induction (P := fun rest uses st => (∀ p ∈ rest, p.1 ∈ args) ∧ Step g B st₁ st ∧
      ∀ o ∈ uses, o.vreg < st.func.vregs.size) hloop ⟨fun p hp => (List.of_mem_zip hp).1,
        .refl g B st₁, by simp⟩ ?_).2
    rintro ⟨⟨v, c⟩, loc⟩ rest uses st r st' ⟨hrest, hstep₁, huses⟩ hrun
    rw [List.forall_mem_cons] at hrest
    have hv := hstep₁.lt (hstep.lt (hargs _ hrest.1))
    cases loc with
    | reg r =>
      obtain ⟨rfl, rfl⟩ := pure_eq_ok hrun
      refine ⟨_, rfl, hrest.2, hstep₁, fun o ho => ?_⟩
      rcases Array.mem_push.mp ho with ho | rfl
      · exact huses o ho
      · exact hv
    | stack o =>
      obtain ⟨u₂, st₃, hemit, hrun⟩ := bind_eq_ok hrun
      obtain ⟨rfl, rfl⟩ := pure_eq_ok hrun
      have hstep₂ : Step g B st st₃ := by
        refine step_emit hemit ⟨⟨nofun, masksWithin_nil, masksWithin_singleton (B.file c)⟩, ?_⟩
        intro o ho
        rw [List.mem_singleton.mp ho]
        exact hv
      exact ⟨_, rfl, hrest.2, hstep₁.trans hstep₂, fun o ho => hstep₂.lt (huses o ho)⟩
  have hlast {st₃ : State τ} {ds : List Operand} (hstep' : Step g B st₂ st₃)
      (hds : ∀ o ∈ ds, o.vreg < st₃.func.vregs.size)
      (h : (emit ⟨op, ds, uses.toList, isa.conv.clobbers, none, some n⟩).run st₃ = .ok (u, st')) :
      Step g B st st' := by
    refine ((hstep.trans hloop'.1).trans hstep').trans (step_emit h ⟨⟨?_, ?_, ?_⟩, ?_⟩)
    · rw [himm]
      exact nofun
    · rw [hdemand]
      exact masksWithin_nil
    · rw [hdemand]
      exact masksWithin_nil
    · intro o ho
      rcases List.mem_append.mp ho with ho | ho
      · exact hds o ho
      · exact hstep'.lt (hloop'.2 o (Array.mem_toList_iff.mp ho))
  cases result with
  | none => exact hlast (.refl g B _) (by simp) h
  | some r =>
    obtain ⟨d, st₃, hd, h⟩ := bind_eq_ok h
    obtain ⟨hstep', hhas⟩ := step_define (B := B) hd
    exact hlast hstep' (by simpa using hhas.1) h

theorem step_selectCall (hs : st.Sound g B) (h : (selectCall isa g n).run st = .ok (u, st')) :
    Step g B st st' := by
  unfold selectCall at h
  split at h
  · obtain ⟨args, st₁, hargs, h⟩ := bind_eq_ok h
    obtain ⟨hstep, hholds⟩ := step_mapM Prod.fst g.edgeClass hs
      (fun e _ st a st' hs h => by
        obtain ⟨v, st₁, hv, h⟩ := bind_eq_ok h
        obtain ⟨rfl, rfl⟩ := pure_eq_ok h
        exact step_value hs hv) hargs
    refine hstep.trans (step_emitCall h rfl rfl fun a ha => ?_)
    exact hholds.lt _ (List.mem_map_of_mem ha)
  · exact nomatch h

theorem step_selectAlloc (hs : st.Sound g B) (h : (selectAlloc isa g n).run st = .ok (u, st')) :
    Step g B st st' := by
  obtain ⟨one, st₁, hone, h⟩ := bind_eq_ok h
  obtain ⟨size, st₂, hsize, h⟩ := bind_eq_ok h
  obtain ⟨hstep, hhas⟩ := step_loadConst (g := g) (B := B) hone
  obtain ⟨hstep', hhas'⟩ := step_value (hstep.sound hs) hsize
  refine (hstep.trans hstep').trans (step_emitCall h rfl rfl ?_)
  simpa using ⟨hstep'.lt hhas.1, hhas'.1⟩

theorem step_selectReturn (hs : st.Sound g B) (h : (selectReturn isa g n).run st = .ok (u, st')) :
    Step g B st st' := by
  have hlast {st₁ : State τ} {us : List Operand} (hus : ∀ o ∈ us, o.vreg < st₁.func.vregs.size)
      (h : (emit { op := .ret, uses := us, node := some n }).run st₁ = .ok (u, st')) :
      Step g B st₁ st' :=
    step_emit h ⟨⟨nofun, masksWithin_nil, masksWithin_nil⟩, hus⟩
  unfold selectReturn at h
  split at h
  · obtain ⟨r, st₁, hr, h⟩ := bind_eq_ok h
    obtain ⟨hstep, hhas⟩ := step_value hs hr
    exact hstep.trans (hlast (by simpa using hhas.1) h)
  · exact hlast (by simp) h

/-- The instructions of a node keep to the banks if it and its operands are of the classes that its
operation demands. -/
theorem step_selectNode {succs : List Nat} (hs : st.Sound g B) (hfit : g.ClassesFit n)
    (h : (selectNode isa g succs n).run st = .ok (u, st')) : Step g B st st' := by
  unfold selectNode at h
  unfold Graph.ClassesFit at hfit
  dsimp only at h hfit
  rcases hop : g.op n
  all_goals
    rw [hop] at h hfit
    dsimp only at h hfit
  case phi =>
    split_ifs at h
    · obtain ⟨d, st₁, hd, h⟩ := bind_eq_ok h
      obtain ⟨-, rfl⟩ := pure_eq_ok h
      exact (step_define hd).1
    · obtain ⟨-, rfl⟩ := pure_eq_ok h
      exact .refl g B _
  case cast =>
    obtain ⟨v, st₁, hv, h⟩ := bind_eq_ok h
    obtain ⟨hstep, hhas⟩ := step_value hs hv
    exact hstep.trans (step_bind (hfit ▸ hhas) h)
  case arith op => exact step_selectAlu hs hfit.1 hfit.2.1 hfit.2.2 h
  case bit op => exact step_selectAlu hs hfit.1 hfit.2.1 hfit.2.2 h
  case floatArith op =>
    exact step_emitValue hs h nofun (by rw [hfit.1]; rfl) (by simp [hfit.2.1, hfit.2.2]; rfl)
  case neg =>
    exact step_emitValue hs h nofun (by rw [hfit.1]; rfl) (by simp [hfit.2]; rfl)
  case toFloat =>
    exact step_emitValue hs h nofun (by rw [hfit.1]; rfl) (by simp [hfit.2]; rfl)
  case not =>
    obtain ⟨vs, st₁, hvs, h⟩ := bind_eq_ok h
    obtain ⟨hstep, hholds⟩ := step_testOperands hs hfit rfl hvs
    exact hstep.trans (step_emitSet h (by rwa [B.intTest]))
  case cmp | floatCmp =>
    split_ifs at h
    · obtain ⟨⟨t, vs⟩, st₁, hvs, h⟩ := bind_eq_ok h
      obtain ⟨hstep, hholds⟩ := step_selectTest hs hfit hvs
      exact hstep.trans (step_emitSet h hholds)
    · obtain ⟨-, rfl⟩ := pure_eq_ok h
      exact .refl g B _
  case load =>
    obtain ⟨⟨disp, vs⟩, st₁, hvs, h⟩ := bind_eq_ok h
    obtain ⟨d, st₂, hd, h⟩ := bind_eq_ok h
    obtain ⟨hstep, hholds⟩ := step_selectAddress hs hfit.1 hfit.2 hvs
    obtain ⟨hstep', hhas⟩ := step_define (B := B) hd
    exact (hstep.trans hstep').trans
      (step_emitOp h nofun (.cons hhas .nil) (hstep'.holds hholds))
  case store =>
    obtain ⟨⟨disp, vs⟩, st₁, hvs, h⟩ := bind_eq_ok h
    obtain ⟨v, st₂, hv, h⟩ := bind_eq_ok h
    obtain ⟨st₃, st₄, hget, h⟩ := bind_eq_ok h
    obtain ⟨rfl, rfl⟩ := Prod.mk.inj (Except.ok.inj hget)
    obtain ⟨hstep, hholds⟩ := step_selectAddress hs hfit.1 hfit.2 hvs
    obtain ⟨hstep', hhas⟩ := step_value (hstep.sound hs) hv
    exact (hstep.trans hstep').trans (step_emitOp h nofun .nil
      (List.rel_append (hstep'.holds hholds) (.cons ⟨hhas.1, rfl⟩ .nil)))
  case fork =>
    split at h
    · obtain ⟨⟨t, vs⟩, st₁, hvs, h⟩ := bind_eq_ok h
      obtain ⟨hstep, hholds⟩ := step_selectTest hs hfit hvs
      exact hstep.trans (step_emitOp h nofun .nil hholds)
    · exact nomatch h
  case ret => exact step_selectReturn hs h
  case call => exact step_selectCall hs h
  case alloc => exact step_selectAlloc hs h
  all_goals
    obtain ⟨-, rfl⟩ := pure_eq_ok h
    exact .refl g B _

theorem step_loadParams {stack : Array (NodeId × UInt32)} (h : (do
      for (n, o) in stack do
        let d ← define g n
        emitOp isa (.loadParam (g.classOf n) o) n [d] [] : SelectM τ Unit).run st = .ok (u, st')) :
    Step g B st st' := by
  obtain ⟨_, st₂, hloop, h⟩ := bind_eq_ok h
  obtain ⟨-, rfl⟩ := pure_eq_ok h
  rw [← Array.forIn_toList] at hloop
  refine forIn_induction (P := fun _ _ st₁ => Step g B st st₁) hloop (.refl g B st) ?_
  rintro ⟨n, o⟩ rest acc st₁ r st₂ hstep hrun
  obtain ⟨d, st₃, hd, hrun⟩ := bind_eq_ok hrun
  obtain ⟨u, st₄, hemit, hrun⟩ := bind_eq_ok hrun
  obtain ⟨rfl, rfl⟩ := pure_eq_ok hrun
  obtain ⟨hstep', hhas⟩ := step_define (B := B) hd
  refine ⟨_, rfl, (hstep.trans hstep').trans
    (step_emitOp hemit (fun _ h => ?_) (.cons hhas .nil) .nil)⟩
  cases h

theorem step_selectParams {params : List Ty}
    (h : (selectParams isa g params).run st = .ok (u, st')) : Step g B st st' := by
  unfold selectParams at h
  dsimp only at h
  obtain ⟨⟨defs, stack⟩, st₁, hloop, h⟩ := bind_eq_ok h
  have hloop' : Step g B st st₁ ∧ ∀ o ∈ defs, o.vreg < st₁.func.vregs.size := by
    refine forIn_induction (P := fun _ acc st₁ => Step g B st st₁ ∧
      ∀ o ∈ acc.1, o.vreg < st₁.func.vregs.size) hloop ⟨.refl g B st, by simp⟩ ?_
    rintro ⟨i, n⟩ rest ⟨defs, stack⟩ st₁ r st₂ ⟨hstep, hdefs⟩ hrun
    dsimp only at hrun
    split at hrun
    · obtain ⟨d, st₃, hd, hrun⟩ := bind_eq_ok hrun
      obtain ⟨rfl, rfl⟩ := pure_eq_ok hrun
      obtain ⟨hstep', hhas⟩ := step_define (B := B) hd
      refine ⟨_, rfl, hstep.trans hstep', fun o ho => ?_⟩
      rcases Array.mem_push.mp ho with ho | rfl
      · exact hstep'.lt (hdefs o ho)
      · exact hhas.1
    · obtain ⟨rfl, rfl⟩ := pure_eq_ok hrun
      exact ⟨_, rfl, hstep, hdefs⟩
    · obtain ⟨rfl, rfl⟩ := pure_eq_ok hrun
      exact ⟨_, rfl, hstep, hdefs⟩
  obtain ⟨hstep, hdefs⟩ := hloop'
  split_ifs at h
  · obtain ⟨u₁, st₂, hemit, h⟩ := bind_eq_ok h
    refine (hstep.trans (step_emit hemit
      ⟨⟨(fun _ h => by cases h), masksWithin_nil, masksWithin_nil⟩,
      ?_⟩)).trans (step_loadParams h)
    intro o ho
    exact hdefs o (by simpa [Inst.operands] using ho)
  · exact hstep.trans (step_loadParams h)

theorem step_place {put : List (Inst τ) → MachBlock τ → MachBlock τ} {b : Nat}
    (h : (place put b).run st = .ok (u, st'))
    (hphis : ∀ is blk, (put is blk).phis = blk.phis)
    (hpreds : ∀ is blk, (put is blk).preds = blk.preds)
    (hinsts : ∀ is blk, ∀ i ∈ (put is blk).insts, i ∈ is ∨ i ∈ blk.insts) : Step g B st st' := by
  obtain rfl := modify_eq_ok h
  have hblock (c : Nat) := st.func.block_modifyBlock b c (put st.out.toList)
  refine ⟨fun _ _ h => h, fun c => ?_, fun hs => ⟨fun c i hi => ?_, fun i hi => ?_, fun c p hp => ?_,
    hs.values⟩⟩
  · rw [hblock]
    split_ifs
    · exact hpreds _ _
    · rfl
  · -- an instruction of a block was in it before, or comes from the output
    have htakes : st.func.Takes B i := by
      rw [hblock] at hi
      split_ifs at hi
      · rcases hinsts _ _ i hi with hi | hi
        · exact hs.out i (Array.mem_toList_iff.mp hi)
        · exact hs.insts c i hi
      · exact hs.insts c i hi
    exact ⟨htakes.encodes, htakes.inRange⟩
  · exact absurd hi (Array.not_mem_empty i)
  · rw [hblock] at hp ⊢
    split_ifs at hp ⊢
    · rw [hphis] at hp
      rw [hpreds]
      exact hs.phis c p hp
    · exact hs.phis c p hp

theorem step_placeAtEnd {b : Nat}
    (h : (place (fun is blk => blk.insertAtEnd is) b).run st = .ok (u, st')) : Step g B st st' := by
  refine step_place h (fun is blk => ?_) (fun is blk => ?_) fun is blk i hi => ?_
  · unfold MachBlock.insertAtEnd
    split
    · split <;> rfl
    · rfl
  · unfold MachBlock.insertAtEnd
    split
    · split <;> rfl
    · rfl
  · unfold MachBlock.insertAtEnd at hi
    split at hi
    · rename_i last hlast
      have hmem : last ∈ blk.insts := List.mem_of_getLast? hlast
      split at hi
      · simp only [List.mem_append, List.mem_singleton] at hi
        rcases hi with (hi | hi) | rfl
        · exact .inr (List.dropLast_subset _ hi)
        · exact .inl hi
        · exact .inr hmem
      · exact (List.mem_append.mp hi).symm
    · exact .inl hi

theorem step_blockNodes {s : Schedule} {b : BlockId} {i : Nat} (hs : st.Sound g B)
    (hfit : ∀ n ∈ s.nodes b, g.ClassesFit n) (h : (do
      let succs := ((← get).func.block i).succs
      (s.nodes b).forM (selectNode isa g succs)
      match (s.cfg.block b).terminator, succs with
      | none, t :: _ => emit { op := .jump t }
      | _, _ => pure ()
      place (fun insts b => { b with insts }) i : SelectM τ Unit).run st = .ok (u, st')) :
    Step g B st st' := by
  obtain ⟨st₀, st₁, hget, h⟩ := bind_eq_ok h
  obtain ⟨rfl, rfl⟩ := Prod.mk.inj (Except.ok.inj hget)
  obtain ⟨u₁, st₁, hforM, h⟩ := bind_eq_ok h
  have hstep := step_forM (s.nodes b) hs
    (fun n hn _ _ _ hs h => step_selectNode hs (hfit n hn) h) hforM
  have hplace {st st' : State τ}
      (h : (place (fun is blk => { blk with insts := is }) i).run st = .ok (u, st')) :
      Step g B st st' :=
    step_place h (fun _ _ => rfl) (fun _ _ => rfl) fun _ _ _ hi => .inl hi
  dsimp only at h
  split at h
  · obtain ⟨u₂, st₂, hemit, h⟩ := bind_eq_ok h
    have hjump : Step g B st₁ st₂ :=
      step_emit hemit ⟨⟨(fun _ h => by cases h), masksWithin_nil, masksWithin_nil⟩,
        fun _ h => by cases h⟩
    exact (hstep.trans hjump).trans (hplace h)
  · exact hstep.trans (hplace h)

theorem step_selectBlock {s : Schedule} {params : List Ty} {b : BlockId} {i : Nat}
    (hs : st.Sound g B) (hfit : ∀ n ∈ s.nodes b, g.ClassesFit n)
    (h : (selectBlock isa g s params b i).run st = .ok (u, st')) : Step g B st st' := by
  unfold selectBlock at h
  split_ifs at h
  · obtain ⟨u₁, st₁, hparams, h⟩ := bind_eq_ok h
    have hstep := step_selectParams (g := g) (B := B) hparams
    exact hstep.trans (step_blockNodes (hstep.sound hs) hfit h)
  · exact step_blockNodes hs hfit h

/-- A phi gets one argument for each predecessor. -/
theorem step_selectPhi {i : Nat} (hs : st.Sound g B)
    (h : (selectPhi isa g i n).run st = .ok (u, st')) : Step g B st st' := by
  unfold selectPhi at h
  obtain ⟨st₀, st₁, hget, h⟩ := bind_eq_ok h
  obtain ⟨rfl, rfl⟩ := Prod.mk.inj (Except.ok.inj hget)
  obtain ⟨args, st₂, hloop, h⟩ := bind_eq_ok h
  have hargs : Step g B st st₂ ∧ args.size = (st.func.block i).preds.length ∧
      ∀ a ∈ args, a < st₂.func.vregs.size := by
    have := forIn_induction (P := fun rest acc st₁ => Step g B st st₁ ∧
      acc.size + rest.length = (st.func.block i).preds.length ∧
        ∀ a ∈ acc, a < st₁.func.vregs.size) hloop ⟨.refl g B st, by simp, by simp⟩ ?_
    · simpa using this
    rintro ⟨p, k⟩ rest acc st₁ r st₂ ⟨hstep, hsize, hacc⟩ hrun
    dsimp only at hrun
    split at hrun
    · exact nomatch hrun
    · obtain ⟨v, st₃, hv, hrun⟩ := bind_eq_ok hrun
      obtain ⟨u₁, st₄, hplace, hrun⟩ := bind_eq_ok hrun
      obtain ⟨rfl, rfl⟩ := pure_eq_ok hrun
      obtain ⟨hstep₁, hhas⟩ := step_value (hstep.sound hs) hv
      have hstep₂ := step_placeAtEnd (g := g) (B := B) hplace
      refine ⟨_, rfl, (hstep.trans hstep₁).trans hstep₂, ?_, fun a ha => ?_⟩
      · rw [List.length_cons] at hsize
        rw [Array.size_push]
        omega
      · rcases Array.mem_push.mp ha with ha | rfl
        · exact hstep₂.lt (hstep₁.lt (hacc a ha))
        · exact hstep₂.lt hhas.1
  obtain ⟨hstep, hsize, hlt⟩ := hargs
  obtain ⟨st₃, st₄, hget, h⟩ := bind_eq_ok h
  obtain ⟨rfl, rfl⟩ := Prod.mk.inj (Except.ok.inj hget)
  split at h
  · rename_i dst hdst
    obtain rfl := modify_eq_ok h
    have hblock (c : Nat) := st₂.func.block_modifyBlock i c
      fun b => { b with phis := b.phis ++ [⟨dst, args.toList, some n⟩] }
    refine hstep.trans ⟨fun _ _ h => h, fun c => ?_, fun hs => ⟨fun c j hj => ?_, fun j hj => ?_,
      fun c p hp => ?_, hs.values⟩⟩
    · rw [hblock]
      split_ifs <;> rfl
    · rw [hblock] at hj
      have htakes := hs.insts c j (by split_ifs at hj <;> exact hj)
      exact ⟨htakes.encodes, htakes.inRange⟩
    · exact ⟨(hs.out j hj).encodes, (hs.out j hj).inRange⟩
    · rw [hblock] at hp ⊢
      split_ifs at hp ⊢ with hc
      · rcases List.mem_append.mp hp with hp | hp
        · exact hs.phis c p hp
        · rw [List.mem_singleton.mp hp, ← hc.1]
          refine ⟨?_, (hs.values n dst hdst).1, fun a ha => hlt a (Array.mem_toList_iff.mp ha)⟩
          exact hsize.trans (congrArg List.length (hstep.preds i)).symm
      · exact hs.phis c p hp
  · exact nomatch h

theorem step_selectAll {s : Schedule} {params : List Ty} (hs : st.Sound g B)
    (hfit : ∀ b ∈ s.layout, ∀ n ∈ s.nodes b, g.ClassesFit n)
    (h : (selectAll isa g s params).run st = .ok (u, st')) : Step g B st st' := by
  obtain ⟨u₁, st₁, hblocks, h⟩ := bind_eq_ok h
  have hstep := step_forM s.layout.zipIdx hs (fun ⟨b, i⟩ hb _ _ _ hs h =>
    step_selectBlock hs (hfit b (List.fst_mem_of_mem_zipIdx hb)) h) hblocks
  refine hstep.trans (step_forM s.layout.zipIdx (hstep.sound hs) (fun ⟨b, i⟩ _ _ _ _ hs h => ?_) h)
  exact step_forM (valuePhis g s b) hs (fun n _ _ _ _ hs h => step_selectPhi hs h) h

theorem block_outline (s : Schedule) (name : String) (b : Nat) :
    (({ name, blocks := outline s } : MachFunction τ).block b).insts = [] ∧
      (({ name, blocks := outline s } : MachFunction τ).block b).phis = [] := by
  rw [MachFunction.block, Array.getD_eq_getD_getElem?]
  rcases hb : (outline s : Array (MachBlock τ))[b]? with _ | blk
  · exact ⟨rfl, rfl⟩
  · obtain ⟨c, -, rfl⟩ := List.mem_map.mp (List.mem_toArray.mp (Array.mem_of_getElem? hb))
    exact ⟨rfl, rfl⟩

theorem sound_outline (s : Schedule) (name : String) :
    State.Sound { func := { name, blocks := outline s } } g B := by
  refine ⟨fun b i hi => ?_, fun i hi => absurd hi (Array.not_mem_empty i), fun b p hp => ?_,
    fun n v hv => nomatch hv⟩
  · rw [(block_outline s name b).1] at hi
    exact absurd hi List.not_mem_nil
  · rw [(block_outline s name b).2] at hp
    exact absurd hp List.not_mem_nil

end Select

/-- A schedule whose nodes and operands are of the classes that are demanded is selected with
operands in the banks of the target. -/
theorem Isa.encodable_select {sig : Signature} {s : Schedule} {f : MachFunction τ} (B : isa.Banks)
    (h : isa.select sig g s = .ok f) (hfit : ∀ b ∈ s.layout, ∀ n ∈ s.nodes b, g.ClassesFit n) :
    f.Encodable B ∧ f.PhisReady := by
  obtain ⟨⟨u, st⟩, hrun, h⟩ := Except.bind_eq_ok h
  obtain rfl := Except.ok.inj h
  have hs := (Select.step_selectAll (Select.sound_outline (B := B) s sig.name) hfit hrun).sound
    (Select.sound_outline s sig.name)
  have htakes (i : Inst τ) (hi : i ∈ st.func.insts) : st.func.Takes B i := by
    obtain ⟨b, hb⟩ := MachFunction.mem_insts_iff.mp hi
    exact hs.insts b i hb
  exact ⟨⟨fun i hi => (htakes i hi).encodes, fun i hi => (htakes i hi).inRange⟩,
    ⟨fun b p hp => (hs.phis b p hp).1, fun b p hp => (hs.phis b p hp).2⟩⟩

end SeaNodes
