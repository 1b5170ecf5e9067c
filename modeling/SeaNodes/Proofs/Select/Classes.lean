import SeaNodes.Proofs.Registers.Drafting
import SeaNodes.Select.Function

namespace SeaNodes

variable {τ : Type} {isa : Isa τ} {g : Graph}

/-- The class of the register that holds the value behind an edge. -/
def Graph.edgeClass (g : Graph) (e : Edge) : RegClass :=
  match e with
  | none => .int
  | some n =>
    match g.op n with
    | .const t => if t.isFloat then .float else .int
    | _ => g.classOf n

/-- The operands of a test are of the class that it takes them for; a value by itself is tested as
an integer. -/
def Graph.TestFits (g : Graph) (e : Edge) : Prop :=
  match g.op? e with
  | some (.cmp _) => g.edgeClass (g.inputOf e 1) = .int ∧ g.edgeClass (g.inputOf e 2) = .int
  | some (.floatCmp _) =>
    g.edgeClass (g.inputOf e 1) = .float ∧ g.edgeClass (g.inputOf e 2) = .float
  | _ => g.edgeClass e = .int

def Graph.ClassesFit (g : Graph) (n : NodeId) : Prop :=
  let operand (i : Nat) (c : RegClass) : Prop := g.edgeClass (g.input n i) = c
  match g.op n with
  | .arith _ | .bit _ => g.classOf n = .int ∧ operand 1 .int ∧ operand 2 .int
  | .floatArith _ => g.classOf n = .float ∧ operand 1 .float ∧ operand 2 .float
  | .neg => g.classOf n = .int ∧ operand 1 .int
  | .toFloat => g.classOf n = .float ∧ operand 1 .int
  | .not => operand 1 .int
  | .cmp _ | .floatCmp _ => g.TestFits (some n)
  | .load | .store => operand 2 .int ∧ operand 3 .int
  | .cast => operand 1 (g.classOf n)
  | .fork => g.TestFits (g.input n 1)
  | _ => True

theorem Ty.class_of_loadOp? {t : Ty} {op : MachOp τ} {c : RegClass} (h : t.loadOp? = some (op, c)) :
    c = (if t.isFloat then .float else .int) := by
  unfold loadOp? at h
  split at h
  · split_ifs at h
    exact (Prod.mk.inj (Option.some.inj h)).2.symm
  · exact (Prod.mk.inj (Option.some.inj h)).2.symm
  · split_ifs at h <;> exact (Prod.mk.inj (Option.some.inj h)).2.symm
  · exact nomatch h

theorem Graph.edgeClass_of_not_const {n : NodeId} (h : ∀ t, g.op n ≠ .const t) :
    g.edgeClass (some n) = g.classOf n := by
  unfold edgeClass
  dsimp only
  split
  · rename_i t ht
    exact absurd ht (h t)
  · rfl

theorem Ty.demand_of_loadOp? {t : Ty} {op : MachOp τ} {c : RegClass} (test : τ → List RegClass)
    (h : t.loadOp? = some (op, c)) :
    (op.demand test).defs = [c] ∧ (op.demand test).uses = [] ∧ op.immOp? = none := by
  unfold loadOp? at h
  split at h
  · split_ifs at h
    cases h
    exact ⟨rfl, rfl, rfl⟩
  · cases h
    exact ⟨rfl, rfl, rfl⟩
  · split_ifs at h <;> cases h <;> exact ⟨rfl, rfl, rfl⟩
  · exact nomatch h

namespace MachFunction

variable {f : MachFunction τ} {v : VReg} {c : RegClass}

def Has (f : MachFunction τ) (v : VReg) (c : RegClass) : Prop :=
  v < f.vregs.size ∧ f.classOf v = c

/-- Registers of the given classes. -/
def Holds (f : MachFunction τ) (cs : List RegClass) (vs : List VReg) : Prop :=
  List.Forall₂ (fun c v => f.Has v c) cs vs

/-- The instruction keeps to the banks and has registers of the function. -/
structure Takes (f : MachFunction τ) (B : isa.Banks) (i : Inst τ) : Prop where
  encodes : B.Encodes i
  inRange : ∀ o ∈ i.operands, o.vreg < f.vregs.size

theorem has_newVReg (f : MachFunction τ) (info : VRegInfo) :
    (f.newVReg info).2.Has (f.newVReg info).1 info.cls := by
  simp [newVReg, Has, classOf]

theorem Has.newVReg (h : f.Has v c) (info : VRegInfo) : (f.newVReg info).2.Has v c := by
  obtain ⟨hlt, hc⟩ := h
  refine ⟨?_, ?_⟩
  · rw [MachFunction.newVReg, Array.size_push]
    exact Nat.lt_succ_of_lt hlt
  · rw [← hc, MachFunction.newVReg, MachFunction.classOf, MachFunction.classOf,
      (Extends.push f.vregs info).getD hlt]

def operandsFor (f : MachFunction τ) (isa : Isa τ) (vs : List VReg) : List Operand :=
  vs.map fun v => ⟨v, isa.file.ofClass (f.classOf v)⟩

theorem Holds.masksWithin {cs : List RegClass} {vs : List VReg} (h : f.Holds cs vs)
    (B : isa.Banks) : MasksWithin B.bank cs (f.operandsFor isa vs) := by
  intro k c hk
  obtain ⟨hlt, rfl⟩ := List.getElem?_eq_some_iff.mp hk
  have hlt' : k < vs.length := h.length_eq ▸ hlt
  have hclass : f.classOf vs[k] = cs[k] := (h.get hlt hlt').2
  refine ⟨⟨vs[k], isa.file.ofClass (f.classOf vs[k])⟩, ?_, ?_⟩
  · rw [operandsFor, List.getElem?_map, List.getElem?_eq_getElem hlt']
    rfl
  · rw [hclass]
    exact B.file _

theorem Holds.lt {cs : List RegClass} {vs : List VReg} (h : f.Holds cs vs) :
    ∀ v ∈ vs, v < f.vregs.size := by
  induction h with
  | nil => exact fun v hv => absurd hv List.not_mem_nil
  | cons hhas _ ih => exact List.forall_mem_cons.mpr ⟨hhas.1, ih⟩

theorem Holds.operand_lt {cs : List RegClass} {vs : List VReg} (h : f.Holds cs vs) :
    ∀ o ∈ f.operandsFor isa vs, o.vreg < f.vregs.size := by
  intro o ho
  obtain ⟨v, hv, rfl⟩ := List.mem_map.mp ho
  exact h.lt v hv

theorem Takes.constrain {B : isa.Banks} {i : Inst τ} (h : f.Takes B i) :
    f.Takes B (isa.constrain i) where
  encodes := B.constrain i h.encodes
  inRange := by
    intro o ho
    obtain ⟨o', ho', hv⟩ := B.constrain_vreg i o ho
    exact hv ▸ h.inRange o' ho'

end MachFunction

namespace Select

theorem bind_eq_ok {α β : Type} {x : SelectM τ α} {f : α → SelectM τ β} {st st' : State τ} {b : β}
    (h : (x >>= f).run st = .ok (b, st')) :
    ∃ a st₁, x.run st = .ok (a, st₁) ∧ (f a).run st₁ = .ok (b, st') := by
  rw [StateT.run_bind] at h
  obtain ⟨⟨a, st₁⟩, hx, hf⟩ := Except.bind_eq_ok h
  exact ⟨a, st₁, hx, hf⟩

theorem pure_eq_ok {α : Type} {a b : α} {st st' : State τ}
    (h : (pure a : SelectM τ α).run st = .ok (b, st')) : a = b ∧ st = st' :=
  Prod.mk.inj (Except.ok.inj h)

theorem modify_eq_ok {f : State τ → State τ} {st st' : State τ} {u : Unit}
    (h : (modify f : SelectM τ Unit).run st = .ok (u, st')) : f st = st' :=
  (Prod.mk.inj (Except.ok.inj h)).2

/-- What was selected so far keeps to the banks. -/
structure State.Sound (st : State τ) (g : Graph) (B : isa.Banks) : Prop where
  insts : ∀ b, ∀ i ∈ (st.func.block b).insts, st.func.Takes B i
  out : ∀ i ∈ st.out, st.func.Takes B i
  phis : ∀ b, ∀ p ∈ (st.func.block b).phis, p.args.length = (st.func.block b).preds.length ∧
    p.dst < st.func.vregs.size ∧ ∀ a ∈ p.args, a < st.func.vregs.size
  values : ∀ n v, st.values.get n = some v → st.func.Has v (g.classOf n)

/-- A step keeps the registers and the edges between blocks, and does no harm. -/
structure Step (g : Graph) (B : isa.Banks) (st st' : State τ) : Prop where
  grows : ∀ v c, st.func.Has v c → st'.func.Has v c
  preds : ∀ b, (st'.func.block b).preds = (st.func.block b).preds
  sound : st.Sound g B → st'.Sound g B

variable {B : isa.Banks} {st st' st₁ : State τ} {n : NodeId} {v : VReg} {c : RegClass} {e : Edge}
  {u : Unit}

theorem Step.refl (g : Graph) (B : isa.Banks) (st : State τ) : Step g B st st :=
  ⟨fun _ _ h => h, fun _ => rfl, fun h => h⟩

theorem Step.trans {st'' : State τ} (h : Step g B st st') (h' : Step g B st' st'') :
    Step g B st st'' :=
  ⟨fun v c hv => h'.grows v c (h.grows v c hv), fun b => (h'.preds b).trans (h.preds b),
    fun hs => h'.sound (h.sound hs)⟩

theorem Step.holds (h : Step g B st st') {cs : List RegClass} {vs : List VReg}
    (hvs : st.func.Holds cs vs) : st'.func.Holds cs vs :=
  hvs.imp fun c v => h.grows v c

theorem step_forM {α : Type} {f : α → SelectM τ Unit} (xs : List α) (hs : st.Sound g B)
    (h : ∀ x ∈ xs, ∀ st st' u, st.Sound g B → (f x).run st = .ok (u, st') → Step g B st st')
    (hrun : (xs.forM f).run st = .ok (u, st')) : Step g B st st' := by
  induction xs generalizing st with
  | nil =>
    obtain ⟨-, rfl⟩ := pure_eq_ok hrun
    exact .refl g B st
  | cons x xs ih =>
    obtain ⟨u₁, st₁, hx, hxs⟩ := bind_eq_ok hrun
    rw [List.forall_mem_cons] at h
    have hstep := h.1 st st₁ u₁ hs hx
    exact hstep.trans (ih (hstep.sound hs) h.2 hxs)

theorem forIn_induction {α β : Type} {f : α → β → SelectM τ (ForInStep β)}
    {P : List α → β → State τ → Prop} {xs : List α} {b b' : β}
    (hrun : (forIn xs b f).run st = .ok (b', st')) (hP : P xs b st)
    (hstep : ∀ x xs b st r st', P (x :: xs) b st → (f x b).run st = .ok (r, st') →
      ∃ b', r = .yield b' ∧ P xs b' st') : P [] b' st' := by
  induction xs generalizing b st with
  | nil =>
    obtain ⟨rfl, rfl⟩ := pure_eq_ok hrun
    exact hP
  | cons x xs ih =>
    rw [List.forIn_cons] at hrun
    obtain ⟨r, st₁, hx, hrun⟩ := bind_eq_ok hrun
    obtain ⟨b₁, rfl, hP₁⟩ := hstep x xs b st r st₁ hP hx
    exact ih hrun hP₁

theorem step_emit {i : Inst τ} (h : (emit i).run st = .ok (u, st')) (hi : st.func.Takes B i) :
    Step g B st st' := by
  obtain rfl := modify_eq_ok h
  refine ⟨fun _ _ h => h, fun _ => rfl, fun hs => ⟨hs.insts, fun j hj => ?_, hs.phis, hs.values⟩⟩
  rcases Array.mem_push.mp hj with hj | rfl
  · exact hs.out j hj
  · exact hi

theorem step_fresh (h : (fresh c).run st = .ok (v, st')) :
    Step g B st st' ∧ st'.func.Has v c := by
  obtain ⟨rfl, rfl⟩ := Prod.mk.inj (Except.ok.inj h)
  have hlt (w : VReg) (hw : w < st.func.vregs.size) : w < (st.func.vregs.push ⟨c, false⟩).size :=
    (Array.size_push _).symm ▸ Nat.lt_succ_of_lt hw
  refine ⟨⟨fun w d hw => hw.newVReg _, fun _ => rfl, fun hs => ⟨fun b i hi => ?_, fun i hi => ?_,
    fun b p hp => ?_, fun n w hw => (hs.values n w hw).newVReg _⟩⟩, st.func.has_newVReg _⟩
  · have htakes := hs.insts b i hi
    exact ⟨htakes.encodes, fun o ho => hlt o.vreg (htakes.inRange o ho)⟩
  · have htakes := hs.out i hi
    exact ⟨htakes.encodes, fun o ho => hlt o.vreg (htakes.inRange o ho)⟩
  · obtain ⟨harity, hdst, hargs⟩ := hs.phis b p hp
    exact ⟨harity, hlt p.dst hdst, fun a ha => hlt a (hargs a ha)⟩

theorem step_bind (hv : st.func.Has v (g.classOf n))
    (h : (Select.bind n v).run st = .ok (u, st')) : Step g B st st' := by
  obtain rfl := modify_eq_ok h
  refine ⟨fun _ _ h => h, fun _ => rfl, fun hs => ⟨hs.insts, hs.out, hs.phis, fun m w hw => ?_⟩⟩
  rw [SideTable.get_set] at hw
  split_ifs at hw with hm
  · rw [← hm, ← Option.some.inj hw]
    exact hv
  · exact hs.values m w hw

theorem step_define (h : (define g n).run st = .ok (v, st')) :
    Step g B st st' ∧ st'.func.Has v (g.classOf n) := by
  obtain ⟨w, st₁, hfresh, h⟩ := bind_eq_ok h
  obtain ⟨u, st₂, hbind, h⟩ := bind_eq_ok h
  obtain ⟨rfl, rfl⟩ := pure_eq_ok h
  obtain ⟨hstep, hw⟩ := step_fresh (g := g) (B := B) hfresh
  have hstep' := step_bind (B := B) hw hbind
  exact ⟨hstep.trans hstep', hstep'.grows w _ hw⟩

theorem mapM_anywhere {vs : List VReg} {os : List Operand}
    (h : (vs.mapM (anywhere isa)).run st = .ok (os, st')) :
    os = st.func.operandsFor isa vs ∧ st = st' := by
  induction vs generalizing os with
  | nil =>
    obtain ⟨rfl, rfl⟩ := pure_eq_ok h
    exact ⟨rfl, rfl⟩
  | cons v vs ih =>
    rw [List.mapM_cons] at h
    obtain ⟨o, st₁, ho, h⟩ := bind_eq_ok h
    obtain ⟨rfl, rfl⟩ := Prod.mk.inj (Except.ok.inj ho)
    obtain ⟨os, st₂, hos, h⟩ := bind_eq_ok h
    obtain ⟨rfl, rfl⟩ := pure_eq_ok h
    obtain ⟨rfl, rfl⟩ := ih hos
    exact ⟨rfl, rfl⟩

theorem step_emitOp {op : MachOp τ} {defs uses : List VReg}
    (h : (emitOp isa op e defs uses).run st = .ok (u, st'))
    (himm : ∀ o, op.immOp? = some o → B.hasImm o)
    (hdefs : st.func.Holds (op.demand B.test).defs defs)
    (huses : st.func.Holds (op.demand B.test).uses uses) : Step g B st st' := by
  obtain ⟨ds, st₁, hds, h⟩ := bind_eq_ok h
  obtain ⟨us, st₂, hus, h⟩ := bind_eq_ok h
  obtain ⟨rfl, rfl⟩ := mapM_anywhere hds
  obtain ⟨rfl, rfl⟩ := mapM_anywhere hus
  refine step_emit h (MachFunction.Takes.constrain
    ⟨⟨himm, hdefs.masksWithin B, huses.masksWithin B⟩, fun o ho => ?_⟩)
  rcases List.mem_append.mp ho with ho | ho
  · exact hdefs.operand_lt o ho
  · exact huses.operand_lt o ho

theorem step_loadConst {t : Ty} (h : (loadConst isa t n).run st = .ok (v, st')) :
    Step g B st st' ∧ st'.func.Has v (if t.isFloat then .float else .int) := by
  unfold loadConst at h
  split at h
  · rename_i op c hop
    obtain ⟨w, st₁, hfresh, h⟩ := bind_eq_ok h
    obtain ⟨u, st₂, hemit, h⟩ := bind_eq_ok h
    obtain ⟨rfl, rfl⟩ := pure_eq_ok h
    obtain ⟨hstep, hw⟩ := step_fresh (g := g) (B := B) hfresh
    have hload := Ty.demand_of_loadOp? B.test hop
    have hstep' : Step g B st₁ st₂ := by
      refine step_emitOp hemit ?_ ?_ ?_
      · rw [hload.2.2]
        exact nofun
      · rw [hload.1]
        exact .cons hw .nil
      · rw [hload.2.1]
        exact .nil
    refine ⟨hstep.trans hstep', hstep'.grows w _ ?_⟩
    rwa [← Ty.class_of_loadOp? hop]
  · exact nomatch h
  · exact nomatch h

theorem step_value (hs : st.Sound g B) (h : (value isa g e).run st = .ok (v, st')) :
    Step g B st st' ∧ st'.func.Has v (g.edgeClass e) := by
  unfold value at h
  split at h
  · cases h
  · rename_i n
    split at h
    · rename_i t ht
      simp only [Graph.edgeClass, ht]
      exact step_loadConst h
    · rename_i hconst
      obtain ⟨st₁, st₂, hget, h⟩ := bind_eq_ok h
      obtain ⟨rfl, rfl⟩ := Prod.mk.inj (Except.ok.inj hget)
      split at h
      · rename_i w hw
        obtain ⟨rfl, rfl⟩ := pure_eq_ok h
        rw [Graph.edgeClass_of_not_const hconst]
        exact ⟨.refl g B _, hs.values n w hw⟩
      · cases h

theorem step_mapM {α β : Type} {f : α → SelectM τ β} (reg : β → VReg) (cls : α → RegClass)
    {xs : List α} {bs : List β} (hs : st.Sound g B)
    (h : ∀ x ∈ xs, ∀ st b st', st.Sound g B → (f x).run st = .ok (b, st') →
      Step g B st st' ∧ st'.func.Has (reg b) (cls x))
    (hrun : (xs.mapM f).run st = .ok (bs, st')) :
    Step g B st st' ∧ st'.func.Holds (xs.map cls) (bs.map reg) := by
  induction xs generalizing st bs with
  | nil =>
    obtain ⟨rfl, rfl⟩ := pure_eq_ok hrun
    exact ⟨.refl g B st, .nil⟩
  | cons x xs ih =>
    rw [List.mapM_cons] at hrun
    obtain ⟨b, st₁, hb, hrun⟩ := bind_eq_ok hrun
    obtain ⟨bs, st₂, hbs, hrun⟩ := bind_eq_ok hrun
    obtain ⟨rfl, rfl⟩ := pure_eq_ok hrun
    rw [List.forall_mem_cons] at h
    obtain ⟨hstep, hhas⟩ := h.1 st b st₁ hs hb
    obtain ⟨hstep', hholds⟩ := ih (hstep.sound hs) h.2 hbs
    exact ⟨hstep.trans hstep', .cons (hstep'.grows _ _ hhas) hholds⟩

theorem step_values {es : List Edge} {vs : List VReg} (hs : st.Sound g B)
    (h : (es.mapM (value isa g)).run st = .ok (vs, st')) :
    Step g B st st' ∧ st'.func.Holds (es.map g.edgeClass) vs := by
  have := step_mapM id g.edgeClass hs (fun e _ st v st' hs h => step_value hs h) h
  rwa [List.map_id] at this

end Select

end SeaNodes
