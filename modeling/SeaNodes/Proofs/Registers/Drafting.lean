import SeaNodes.Code.Encoded
import SeaNodes.Proofs.Isa.Banks
import SeaNodes.Proofs.Registers.SpillMeaning
import SeaNodes.Registers.Allocate

namespace SeaNodes

variable {τ : Type} {isa : Isa τ}

theorem MasksWithin.congr {bank : RegClass → RegMask} {classes : List RegClass}
    {os os' : List Operand} (h : MasksWithin bank classes os)
    (hmasks : os'.map (·.mask) = os.map (·.mask)) : MasksWithin bank classes os' := by
  intro k c hk
  obtain ⟨o, ho, hwithin⟩ := h k c hk
  have hget : (os'.map (·.mask))[k]? = some o.mask := by
    rw [hmasks, List.getElem?_map, ho]
    rfl
  rw [List.getElem?_map, Option.map_eq_some_iff] at hget
  obtain ⟨o', ho', hmask⟩ := hget
  exact ⟨o', ho', hmask ▸ hwithin⟩

theorem masksWithin_singleton {bank : RegClass → RegMask} {c : RegClass} {v : VReg} {m : RegMask}
    (h : m.Within (bank c)) : MasksWithin bank [c] [⟨v, m⟩] := by
  rintro (_ | k) d hk
  · exact ⟨_, rfl, Option.some.inj hk ▸ h⟩
  · exact nomatch hk

theorem masksWithin_nil {bank : RegClass → RegMask} {os : List Operand} :
    MasksWithin bank [] os := fun _ _ h => nomatch h

namespace Isa.Banks

variable (B : isa.Banks) {i j : Inst τ}

def Encodes (i : Inst τ) : Prop := i.Encodable B.bank B.test B.hasImm

variable {B}

theorem Encodes.congr (h : B.Encodes i) (hop : j.op = i.op)
    (hdefs : j.defs.map (·.mask) = i.defs.map (·.mask))
    (huses : j.uses.map (·.mask) = i.uses.map (·.mask)) : B.Encodes j where
  imm := by
    rw [hop]
    exact h.imm
  defs := by
    rw [hop]
    exact h.defs.congr hdefs
  uses := by
    rw [hop]
    exact h.uses.congr huses

theorem encodes_ofCopy (B : isa.Banks) (c : RegClass) (node : Edge) (d s : VReg) :
    B.Encodes (.ofCopy isa.file c node d s) :=
  ⟨nofun, masksWithin_singleton (B.file c), masksWithin_singleton (B.file c)⟩

end Isa.Banks

theorem Isolated.masks {mk : RegClass → VReg → VReg → Inst τ}
    {moves : RegClass → Nat → Operand → Prop} {k : Nat} {vs vs' : Array VRegInfo}
    {os : List Operand} {us : List (List (Inst τ) × Operand)}
    (h : Isolated mk moves k vs os us vs') :
    (us.map (·.2)).map (·.mask) = os.map (·.mask) := by
  induction h with
  | nil => rfl
  | keep _ _ ih => exact List.cons_eq_cons.mpr ⟨rfl, ih⟩
  | move _ _ ih => exact List.cons_eq_cons.mpr ⟨rfl, ih⟩

namespace Inst

variable {file : RegFile} {slots : SlotMap} {node : Edge} {vs vs' : Array VRegInfo} {i : Inst τ}
  {seg : List (Inst τ)}

theorem masks_of_reloadUses (os : List Operand) {os' : List Operand} {r r' : Reloads τ}
    (hrun : ((os.mapM (reloadUse file slots node)).run r).run vs = ((os', r'), vs')) :
    os'.map (·.mask) = os.map (·.mask) := by
  induction os generalizing r vs os' with
  | nil =>
    obtain ⟨⟨rfl, rfl⟩, rfl⟩ := (Prod.mk.inj hrun).imp_left Prod.mk.inj
    rfl
  | cons o os ih =>
    rw [List.mapM_cons] at hrun
    rcases hone : ((reloadUse file slots node o).run r).run vs with ⟨⟨o₁, r₁⟩, vs₁⟩
    simp only [StateT.run_bind, hone] at hrun
    obtain ⟨⟨rfl, rfl⟩, rfl⟩ := (Prod.mk.inj hrun).imp_left Prod.mk.inj
    have hmask : o₁.mask = o.mask := by
      rcases reloadUse_cases hone with ⟨-, rfl, -⟩ | ⟨σ, t, -, -, rfl, -⟩ | ⟨σ, c, info, -, rfl, -⟩
        <;> rfl
    exact List.cons_eq_cons.mpr ⟨hmask, ih rfl⟩

theorem encodes_of_isolate {B : isa.Banks} (h : (i.isolate isa.file).run vs = (seg, vs'))
    (hi : B.Encodes i) : ∀ x ∈ seg, B.Encodes x := by
  intro x hx
  rcases hc : i.isCopy with _ | _
  case true =>
    rw [isolate_run_copy isa.file i hc] at h
    rw [← (Prod.mk.inj h).1, List.mem_singleton] at hx
    exact hx ▸ hi
  case false =>
    obtain ⟨us, ds, vs₁, hu, hd, rfl⟩ := isolate_run isa.file i hc h
    rw [List.mem_append, List.mem_cons] at hx
    rcases hx with hx | rfl | hx
    · obtain ⟨c, t, o, -, rfl, -⟩ := hu.copies hx
      exact B.encodes_ofCopy c _ t o.vreg
    · exact hi.congr rfl hd.masks hu.masks
    · obtain ⟨c, t, o, -, rfl, -⟩ := hd.copies hx
      exact B.encodes_ofCopy c _ o.vreg t

theorem encodes_of_throughSlots {B : isa.Banks}
    (h : (i.throughSlots isa.file slots).run vs = (seg, vs')) (hi : B.Encodes i) :
    ∀ x ∈ seg, B.Encodes x := by
  intro x hx
  rcases hc : i.isSlotCopy slots with _ | _
  case true =>
    rw [throughSlots_run_slotCopy isa.file slots i hc] at h
    rw [← (Prod.mk.inj h).1] at hx
    exact absurd hx List.not_mem_nil
  case false =>
    obtain ⟨uses, r, ds, vs₁, huses, hdefs, rfl⟩ := throughSlots_loops isa.file slots i hc h
    rw [List.mem_append, List.mem_cons] at hx
    rcases hx with hx | rfl | hx
    · refine reloadUses_induction (P := fun r _ => ∀ x ∈ r.insts.toList, B.Encodes x) ?_ i.uses huses
        (by simp) x hx
      intro r vs v σ c info hr _ _ x hx
      rw [Array.toList_push, List.mem_append, List.mem_singleton] at hx
      rcases hx with hx | rfl
      · exact hr x hx
      · exact ⟨nofun, masksWithin_singleton (B.file c), masksWithin_nil⟩
    · exact hi.congr rfl hdefs.masks (masks_of_reloadUses i.uses huses)
    · obtain ⟨c, t, o, -, rfl, -⟩ := hdefs.copies hx
      exact ⟨nofun, masksWithin_nil, masksWithin_singleton (B.file c)⟩

end Inst

namespace MachFunction

variable {f g : MachFunction τ} {B : isa.Banks}

/-- The instructions keep to the banks and use registers of the function. -/
structure Encodable (f : MachFunction τ) (B : isa.Banks) : Prop where
  insts : ∀ i ∈ f.insts, B.Encodes i
  inRange : f.InRange

/-- The phis fit the edges and use registers of the function. -/
structure PhisReady (f : MachFunction τ) : Prop where
  arity : ∀ b, ∀ p ∈ (f.block b).phis, p.args.length = (f.block b).preds.length
  inRange : ∀ b, ∀ p ∈ (f.block b).phis, p.dst < f.vregs.size ∧ ∀ a ∈ p.args, a < f.vregs.size

theorem Encodable.rewritten {rewrite : Inst τ → FreshM (List (Inst τ))}
    {taken : Nat → Array VRegInfo} (h : f.Encodable B) (R : f.RewrittenTo rewrite g taken)
    (hr : FreshRewriting rewrite)
    (hseg : ∀ {vs i seg vs'}, (rewrite i).run vs = (seg, vs') → B.Encodes i →
      ∀ x ∈ seg, B.Encodes x) : g.Encodable B := by
  refine ⟨fun x hx => ?_, R.inRange hr h.inRange⟩
  obtain ⟨b, pre, post, hsplit⟩ := exists_split hx
  obtain ⟨isA, i, isB, outA, outB, segA, segB, vs₁, vs₂, S, -, -⟩ := R.locate hsplit
  have hi : i ∈ f.insts := mem_insts (b := b) (by simp [S.source])
  exact hseg S.run (h.insts i hi) x (by simp)

theorem Encodable.legalize (h : f.Encodable B) (hp : f.PhisReady) :
    ∃ g, f.legalize isa.file = (.ok (), g) ∧ g.Encodable B ∧ ∀ b, (g.block b).phis = [] := by
  obtain ⟨body, closing, ts, l, taken, hin, -, L, R, hrun⟩ :=
    exists_legalize_of_arity hp.arity isa.file
  have hl : l.Encodable B := by
    refine ⟨fun i hi => ?_, L.inRange_of_phis h.inRange hp.inRange hin⟩
    obtain ⟨b, hb⟩ := mem_insts_iff.mp hi
    rcases L.mem_insts hin hb with ⟨p, -, rfl⟩ | hb | ⟨p, -, a, -, rfl⟩
    · exact B.encodes_ofCopy p.cls _ _ _
    · exact h.insts i (mem_insts hb)
    · exact B.encodes_ofCopy p.cls _ _ _
  refine ⟨_, hrun, hl.rewritten R (Inst.freshRewriting_isolate isa.file)
    fun hrun hi => Inst.encodes_of_isolate hrun hi, fun b => ?_⟩
  rw [R.frame b]
  exact (L.phis b).trans (if_neg List.not_mem_nil)

theorem Encodable.allocateRounds {cfg : AllocConfig} (k : Nat) (p : Progress)
    {a : Allocation} (h : f.Encodable B) (hphis : ∀ b, (f.block b).phis = [])
    (hrun : allocateRounds isa.file cfg k p f = (.ok a, g)) :
    g.Encodable B ∧ (∀ b, (g.block b).phis = []) ∧ g.verify isa.file a.regs = .ok () := by
  induction k generalizing p f with
  | zero => cases (Prod.mk.inj hrun).1
  | succ k ih =>
    rw [MachFunction.allocateRounds] at hrun
    dsimp only at hrun
    split at hrun
    · obtain ⟨hok, rfl⟩ := Prod.mk.inj hrun
      rcases hverify : f.verify isa.file ((f.ranges isa.file cfg).2.assign isa.file f.vregs
        (f.ranges isa.file cfg).2.color) with e | u
      · rw [hverify] at hok
        cases hok
      · rw [hverify] at hok
        obtain rfl := Except.ok.inj hok
        exact ⟨h, hphis, hverify⟩
    · split at hrun
      · cases (Prod.mk.inj hrun).1
      · rename_i victims _
        obtain ⟨taken, R⟩ := f.exists_rewrittenTo
          (·.throughSlots isa.file ((f.ranges isa.file cfg).2.slotMap f.spillSlots victims))
        have hspill := h.rewritten R (Inst.freshRewriting_throughSlots isa.file _)
          fun hrun hi => Inst.encodes_of_throughSlots hrun hi
        refine ih (f := f.spillRanges isa.file cfg victims) _ ⟨hspill.insts, hspill.inRange⟩
          (fun b => ?_) hrun
        exact (congrArg MachBlock.phis (R.frame b)).trans (hphis b)

theorem Encodable.allocate {cfg : AllocConfig} {a : Allocation} (h : f.Encodable B)
    (hp : f.PhisReady) (hrun : f.allocate isa.file cfg = (.ok a, g)) :
    g.Encodable B ∧ (∀ b, (g.block b).phis = []) ∧ g.verify isa.file a.regs = .ok () := by
  obtain ⟨l, hl, hready, hphis⟩ := h.legalize hp
  rw [MachFunction.allocate, hl] at hrun
  exact hready.allocateRounds _ _ hphis hrun

end MachFunction

theorem MasksWithin.inBanks {bank : RegClass → RegMask} {classes : List RegClass}
    {os : List Operand} {reg : Operand → Reg} (h : MasksWithin bank classes os)
    (hreg : ∀ o ∈ os, o.mask.contains (reg o)) : InBanks bank classes (os.map reg) := by
  intro k c hk
  obtain ⟨o, ho, hwithin⟩ := h k c hk
  rw [List.getD_eq_getElem?_getD, List.getElem?_map, ho]
  exact hwithin _ (hreg o (List.mem_of_getElem? ho))

namespace Allocated

variable {a : Allocated τ} {B : isa.Banks}

theorem operandRegs_eq (hsize : a.func.vregs.size ≤ a.regs.size) {i : Inst τ}
    (hi : ∀ o ∈ i.operands, o.vreg < a.func.vregs.size) :
    a.operandRegs i = .ok
      { defs := i.defs.map fun o => a.regs.getD o.vreg 0
        uses := i.uses.map fun o => a.regs.getD o.vreg 0 } := by
  have hget (o : Operand) (ho : o ∈ i.operands) :
      a.regs[o.vreg]? = some (a.regs.getD o.vreg 0) := by
    have hlt : o.vreg < a.regs.size := (hi o ho).trans_le hsize
    rw [Array.getElem?_eq_getElem hlt, Array.getD, dif_pos hlt]
    rfl
  rw [operandRegs, Except.mapM_eq_map (r := fun o => a.regs.getD o.vreg 0) i.defs,
    Except.mapM_eq_map (r := fun o => a.regs.getD o.vreg 0) i.uses]
  · rfl
  · intro o ho
    rw [hget o (List.mem_append_right _ ho)]
  · intro o ho
    rw [hget o (List.mem_append_left _ ho)]

theorem exists_instPieces (hsize : a.func.vregs.size ≤ a.regs.size) {i : Inst τ}
    (hi : ∀ o ∈ i.operands, o.vreg < a.func.vregs.size) (hencodes : B.Encodes i)
    (hfits : i.Fits (a.regs.getD · 0)) (s : Surroundings) :
    ∃ pieces, a.instPieces isa s i = .ok pieces := by
  rw [instPieces, operandRegs_eq hsize hi]
  change ∃ pieces, (if (i.isCopy && _) = true then pure [] else isa.expand s i.op _) = .ok pieces
  split
  · exact ⟨[], rfl⟩
  · exact B.expand s i.op _ hencodes.imm
      (hencodes.defs.inBanks fun o ho => hfits.inMask o (List.mem_append_left _ ho))
      (hencodes.uses.inBanks fun o ho => hfits.inMask o (List.mem_append_right _ ho))

theorem exists_draft (h : a.func.Encodable B) (hphis : ∀ b, (a.func.block b).phis = [])
    (hverify : a.func.verify isa.file a.regs = .ok ()) (names : Array String) :
    ∃ d, a.draft isa names = .ok d := by
  obtain ⟨hsize, hassigned⟩ := (a.func.verify_eq_ok_iff isa.file a.regs).mp hverify
  refine Except.exists_bind (Except.exists_mapM _ fun ⟨b, k⟩ hbk => ?_) fun _ => ⟨_, rfl⟩
  have hb : b ∈ a.func.blocks.toList := List.fst_mem_of_mem_zipIdx hbk
  have hnone : b.phis = [] := by
    obtain ⟨j, hj, rfl⟩ := List.getElem_of_mem hb
    rw [Array.getElem_toList, ← MachFunction.block_eq_getElem (by simpa using hj)]
    exact hphis j
  have hinsts : ∃ pieces, b.insts.mapM (a.instPieces isa
      { frame := a.frame, names, block := k, blockCount := a.func.blocks.size }) = .ok pieces := by
    refine Except.exists_mapM b.insts fun i hi => ?_
    have hmem : i ∈ a.func.insts := List.mem_flatMap.mpr ⟨b, hb, hi⟩
    exact exists_instPieces hsize (h.inRange i hmem) (h.insts i hmem) (hassigned.fits i hmem) _
  change ∃ pieces, (if (!b.phis.isEmpty) = true then _ else _) = Except.ok pieces
  rw [if_neg (by simp [hnone])]
  exact Except.exists_bind hinsts fun _ => ⟨_, rfl⟩

end Allocated

end SeaNodes
