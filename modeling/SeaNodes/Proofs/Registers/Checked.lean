import SeaNodes.Proofs.Registers.Execution
import SeaNodes.Proofs.Registers.Liveness
import SeaNodes.Registers.Check

namespace SeaNodes

section

variable {τ σ : Type}

def walkInsts (visit : Inst τ → BitSet → σ → σ) (out : BitSet) : List (Inst τ) → σ → σ
  | [], s => s
  | i :: is, s => visit i (liveThrough is out) (walkInsts visit out is s)

theorem MachBlock.walk_eq (b : MachBlock τ) (out : BitSet) (visit : Inst τ → BitSet → σ → σ)
    (s : σ) : b.walk out visit s = walkInsts visit out b.insts s := by
  have h (is : List (Inst τ)) :
      is.foldr (fun i p => (i.liveBefore p.1, visit i p.1 p.2)) (out, s) =
        (liveThrough is out, walkInsts visit out is s) := by
    induction is with
    | nil => rfl
    | cons i is ih =>
      rw [List.foldr_cons, ih]
      rfl
  rw [walk, h]

theorem Liveness.walk_eq (l : Liveness) (f : MachFunction τ) (visit : Inst τ → BitSet → σ → σ)
    (s : σ) : l.walk f visit s = (List.range f.blocks.size).foldl
      (fun s b => walkInsts visit (l.atEnd b) (f.block b).insts s) s := by
  simp only [walk, MachBlock.walk_eq, atEnd]

section FirstFlaw

variable {ε : Type} (test : Inst τ → BitSet → Option ε)
  {visit : Inst τ → BitSet → Option ε → Option ε}
  (hv : ∀ i after found, visit i after found = none ↔ found = none ∧ test i after = none)

include hv

theorem walkInsts_eq_none (out : BitSet) (is : List (Inst τ)) (found : Option ε) :
    walkInsts visit out is found = none ↔ found = none ∧
      ∀ pre i post, is = pre ++ i :: post → test i (liveThrough post out) = none := by
  induction is with
  | nil => simp [walkInsts]
  | cons j is ih =>
    rw [walkInsts, hv, ih, and_assoc]
    refine and_congr_right fun _ => ?_
    constructor
    · rintro ⟨hrest, hj⟩ pre i post h
      rcases List.cons_eq_append_iff.mp h with ⟨rfl, hi⟩ | ⟨pre', rfl, hi⟩
      · rw [List.cons.injEq] at hi
        rw [hi.1, hi.2]
        exact hj
      · exact hrest pre' i post hi
    · intro h
      exact ⟨fun pre i post hi => h (j :: pre) i post (by rw [hi]; rfl), h [] j is rfl⟩

theorem Liveness.walk_eq_none (l : Liveness) (f : MachFunction τ) :
    l.walk f visit none = none ↔ ∀ b < f.blocks.size, ∀ pre i post,
      (f.block b).insts = pre ++ i :: post → test i (liveThrough post (l.atEnd b)) = none := by
  have h (bs : List Nat) (found : Option ε) :
      bs.foldl (fun s b => walkInsts visit (l.atEnd b) (f.block b).insts s) found = none ↔
        found = none ∧ ∀ b ∈ bs, ∀ pre i post, (f.block b).insts = pre ++ i :: post →
          test i (liveThrough post (l.atEnd b)) = none := by
    induction bs generalizing found with
    | nil => simp
    | cons b bs ih =>
      rw [List.foldl_cons, ih, walkInsts_eq_none test hv, List.forall_mem_cons, and_assoc]
  rw [Liveness.walk_eq, h]
  simp

end FirstFlaw

namespace Inst

/-- The operands are in registers they may be in, and the ends of a tie are in one. -/
structure Fits (reg : VReg → Reg) (i : Inst τ) : Prop where
  inMask : ∀ o ∈ i.operands, o.mask.contains (reg o.vreg)
  tied : ∀ d u, i.tie? = some (d, u) → reg d = reg u

/-- The instruction leaves alone what is live after it. -/
structure Spares (reg : VReg → Reg) (i : Inst τ) (live : VReg → Prop) : Prop where
  apart : (i.defs.map (reg ·.vreg)).Nodup
  kept : ∀ d ∈ i.defs, ∀ v, live v → v ≠ d.vreg → some v ≠ i.source? → reg v ≠ reg d.vreg
  across : ∀ v, live v → i.defines v = false → i.kill.contains (reg v) = false

variable {file : RegFile} {regs : Array Reg} {i : Inst τ}

theorem operandFlaw?_eq_none :
    i.operandFlaw? file regs = none ↔ i.Fits (regs.getD · 0) := by
  simp only [operandFlaw?, Option.or_eq_none_iff, List.findSome?_eq_none_iff, ite_eq_left_iff,
    reduceCtorEq, imp_false, Decidable.not_not]
  constructor
  · rintro ⟨hm, ht⟩
    refine ⟨hm, fun d u h => ?_⟩
    by_contra hne
    simp [-Array.getD_eq_getD_getElem?, h, hne] at ht
  · intro h
    refine ⟨h.inMask, ?_⟩
    rcases hi : i.tie? with _ | ⟨d, u⟩
    · rfl
    · simp only [Option.bind_eq_bind, Option.bind_some]
      rw [if_pos (h.tied d u hi)]

/-- Registers of masks have numbers that the set of written registers can hold. -/
theorem defFlaw?_eq_none {after : List VReg} {written : RegMask} {ds : List Operand}
    (hr : ∀ d ∈ ds, regs.getD d.vreg 0 < 128) :
    i.defFlaw? file regs after written ds = none ↔
      ((∀ d ∈ ds, written.contains (regs.getD d.vreg 0) = false) ∧
        (ds.map (fun d => regs.getD d.vreg 0)).Nodup) ∧
      ∀ d ∈ ds, ∀ v ∈ after, v ≠ d.vreg → some v ≠ i.source? →
        regs.getD v 0 ≠ regs.getD d.vreg 0 := by
  induction ds generalizing written with
  | nil => simp [defFlaw?]
  | cons d ds ih =>
    rw [List.forall_mem_cons] at hr
    rw [defFlaw?]
    split_ifs with hw
    · simp [-Array.getD_eq_getD_getElem?, hw]
    · have hclash : (after.find? fun v =>
          v != d.vreg && some v != i.source? && regs.getD v 0 == regs.getD d.vreg 0) = none ↔
          ∀ v ∈ after, v ≠ d.vreg → some v ≠ i.source? → regs.getD v 0 ≠ regs.getD d.vreg 0 := by
        simp [-Array.getD_eq_getD_getElem?, List.find?_eq_none]
      dsimp only
      split
      · rename_i v hf
        have : ¬ ∀ v ∈ after, v ≠ d.vreg → some v ≠ i.source? →
            regs.getD v 0 ≠ regs.getD d.vreg 0 := by
          rw [← hclash, hf]
          exact Option.some_ne_none v
        simp only [reduceCtorEq, List.forall_mem_cons, this, false_and, and_false]
      · rename_i hf
        rw [ih hr.2]
        simp only [List.forall_mem_cons, List.map_cons, List.nodup_cons, List.mem_map, not_exists,
          not_and, Bool.not_eq_true, RegMask.contains_insert, Bool.or_eq_false_iff,
          Bool.and_eq_false_iff, decide_eq_false_iff_not] at hw hr ⊢
        rw [and_iff_right (hclash.mp hf), and_iff_right hw]
        refine and_congr_left fun _ => ?_
        constructor
        · rintro ⟨h, hn⟩
          exact ⟨fun o ho => (h o ho).1, fun o ho he =>
            ((h o ho).2.resolve_right (not_not_intro (hr.2 o ho))) he.symm, hn⟩
        · rintro ⟨h, hne, hn⟩
          exact ⟨fun o ho => ⟨h o ho, .inl fun he => hne o ho he.symm⟩, hn⟩

theorem killFlaw?_eq_none {after : List VReg} :
    i.killFlaw? file regs after = none ↔
      ∀ v ∈ after, i.defines v = false → i.kill.contains (regs.getD v 0) = false := by
  rw [killFlaw?]
  split_ifs with hk
  · simp only [RegMask.isEmpty_iff.mp hk, implies_true]
  · simp [-Array.getD_eq_getD_getElem?, List.find?_eq_none]

theorem liveFlaw?_eq_none {after : BitSet} {live : VReg → Prop} (hf : i.Fits (regs.getD · 0))
    (hl : ∀ v, after.contains v ↔ live v) :
    i.liveFlaw? file regs after = none ↔ i.Spares (regs.getD · 0) live := by
  have hr : ∀ d ∈ i.defs, regs.getD d.vreg 0 < 128 := fun d hd =>
    RegMask.lt_of_contains (hf.inMask d (List.mem_append_left _ hd))
  simp only [liveFlaw?, Option.or_eq_none_iff, defFlaw?_eq_none hr, killFlaw?_eq_none,
    BitSet.mem_toList, hl, RegMask.contains_empty, implies_true, true_and]
  exact ⟨fun h => ⟨h.1.1, h.1.2, h.2⟩, fun h => ⟨⟨h.apart, h.kept⟩, h.across⟩⟩

end Inst

namespace MachFunction

/-- Every instruction fits the assignment and leaves alone what is live after it. -/
structure Assigned (f : MachFunction τ) (reg : VReg → Reg) : Prop where
  fits : ∀ i ∈ f.insts, i.Fits reg
  spares : ∀ b < f.blocks.size, ∀ pre i post, (f.block b).insts = pre ++ i :: post →
    i.Spares reg (f.LiveFrom · post b)

/-- The check accepts exactly the right assignments. -/
theorem verify_eq_ok_iff (f : MachFunction τ) (file : RegFile) (regs : Array Reg) :
    f.verify file regs = .ok () ↔
      f.vregs.size ≤ regs.size ∧ f.Assigned (regs.getD · 0) := by
  have hflaw : f.verify file regs = .ok () ↔ f.flaw? file regs = none := by
    rw [verify]
    rcases f.flaw? file regs with _ | ⟨node, flaw⟩ <;> simp
  rw [hflaw, flaw?]
  split_ifs with hsize
  · simp [hsize]
  · have halone : (f.insts.findSome? fun i => (i.operandFlaw? file regs).map (i.node, ·)) = none ↔
        ∀ i ∈ f.insts, i.Fits (regs.getD · 0) := by
      simp only [List.findSome?_eq_none_iff, Option.map_eq_none_iff, Inst.operandFlaw?_eq_none]
    dsimp only
    split
    · rename_i flaw hf
      have : ¬ ∀ i ∈ f.insts, i.Fits (regs.getD · 0) := by
        rw [← halone, hf]
        exact Option.some_ne_none flaw
      simp only [reduceCtorEq, false_iff]
      exact fun h => this h.2.fits
    · rename_i hf
      rw [Liveness.walk_eq_none (fun i after => (i.liveFlaw? file regs after).map (i.node, ·))
        (by rintro i after (_ | flaw) <;> simp)]
      have hfits := halone.mp hf
      have hone (b : Nat) (pre : List (Inst τ)) (i : Inst τ) (post : List (Inst τ))
          (h : (f.block b).insts = pre ++ i :: post) :
          (i.liveFlaw? file regs (liveThrough post ((Liveness.ofFunction f).atEnd b))).map
            (i.node, ·) = none ↔ i.Spares (regs.getD · 0) (f.LiveFrom · post b) := by
        rw [Option.map_eq_none_iff]
        apply Inst.liveFlaw?_eq_none
        · exact hfits i (mem_insts (b := b) (by rw [h]; simp))
        · exact fun v => Liveness.contains_liveThrough_iff f v post b
      constructor
      · intro h
        exact ⟨Nat.le_of_not_lt hsize, hfits, fun b hb pre i post hs =>
          (hone b pre i post hs).mp (h b hb pre i post hs)⟩
      · intro h b hb pre i post hs
        exact (hone b pre i post hs).mpr (h.2.spares b hb pre i post hs)

end MachFunction

end

section

variable {τ α : Type} {f : MachFunction τ} {reg : VReg → Reg}

/-- The live registers before `rest`, the rest of block `b`, have the values of their cells. -/
def MachFunction.Agree (f : MachFunction τ) (reg : VReg → Reg) (rest : List (Inst τ)) (b : Nat)
    (s : VReg → α) (m : Reg → α) : Prop :=
  ∀ v, f.LiveFrom v rest b → s v = m (reg v)

/-- Every copy has one def and one use. -/
def MachFunction.PlainCopies (f : MachFunction τ) : Prop :=
  ∀ i ∈ f.insts, i.isCopy → ∃ d u, i.defs = [d] ∧ i.uses = [u]

theorem MachFunction.Agree.inputs {i : Inst τ} {rest : List (Inst τ)} {b : Nat} {s : VReg → α}
    {m : Reg → α} (h : f.Agree reg (i :: rest) b s m) : i.inputs id s = i.inputs reg m :=
  List.map_congr_left fun o ho => h o.vreg (.use ⟨o, ho, rfl⟩)

/-- One instruction keeps the agreement. -/
theorem MachFunction.Agree.step {i : Inst τ} {rest : List (Inst τ)} {b : Nat} {s : VReg → α}
    {m : Reg → α} (h : f.Agree reg (i :: rest) b s m) (hs : i.Spares reg (f.LiveFrom · rest b))
    (hcopy : i.isCopy → ∃ d u, i.defs = [d] ∧ i.uses = [u]) (sem : OpSem τ α) (noise : Reg → α) :
    f.Agree reg rest b (i.exec sem s) (i.execAt sem reg noise m) := by
  intro v hv
  have hin : i.inputs id s = i.inputs reg m := h.inputs
  have hcells : (i.defs.map (id ·.vreg)).Nodup := by
    apply List.Nodup.of_map reg
    rw [List.map_map]
    exact hs.apart
  by_cases hd : ∃ o ∈ i.defs, o.vreg = v
  · obtain ⟨o, ho, rfl⟩ := hd
    obtain ⟨k, hk, rfl⟩ := List.getElem_of_mem ho
    have h1 := Inst.write_getElem sem id i (i.inputs id s) s hcells hk
    have h2 := Inst.write_getElem sem reg i (i.inputs reg m) (i.clobber noise m) hs.apart hk
    rw [Inst.exec, Inst.execAt, h2, ← hin]
    exact h1
  · push Not at hd
    have hsm : s v = m (reg v) := h v (.skip hd hv)
    rw [Inst.exec_of_forall_ne sem i s hd]
    by_cases hsrc : some v = i.source?
    · -- the source of a copy may share its register with the target, which gets the same value
      have hc : i.isCopy := by
        by_contra hc
        simp [Inst.source?, hc] at hsrc
      obtain ⟨d, u, hds, hus⟩ := hcopy hc
      have hvu : v = u.vreg := by simpa [Inst.source?, hc, hus] using hsrc
      by_cases hr : reg v = reg d.vreg
      · have hk : 0 < i.defs.length := by simp [hds]
        have h2 := Inst.write_getElem sem reg i (i.inputs reg m) (i.clobber noise m) hs.apart hk
        simp only [hds, List.getElem_cons_zero] at h2
        rw [Inst.execAt, hr, h2, hsm, hvu]
        simp [Inst.output, Inst.inputs, hc, hus]
      · have hk := hs.across v hv (by simpa [Inst.defines] using hd)
        rw [Inst.execAt, Inst.write_of_forall_ne sem reg i _ _ (by simpa [hds] using Ne.symm hr)]
        simp [Inst.clobber, hk, hsm]
    · have hk := hs.across v hv (by simpa [Inst.defines] using hd)
      have hne : ∀ o ∈ i.defs, reg o.vreg ≠ reg v := fun o ho =>
        (hs.kept o ho v hv (hd o ho).symm hsrc).symm
      rw [Inst.execAt, Inst.write_of_forall_ne sem reg i _ _ hne]
      simp [Inst.clobber, hk, hsm]

theorem MachFunction.Agree.block (ha : f.Assigned reg) (hcopy : f.PlainCopies) (sem : OpSem τ α)
    (noise : Nat → Reg → α) {b : Nat} (hb : b < f.blocks.size) (pre rest : List (Inst τ))
    (hsplit : (f.block b).insts = pre ++ rest) (n : Nat) (s : VReg → α) (m : Reg → α)
    (h : f.Agree reg rest b s m) :
    traceInsts sem rest s = traceAssigned sem reg noise n rest m ∧
      f.Agree reg [] b (runInsts sem rest s) (runAssigned sem reg noise n rest m) := by
  induction rest generalizing pre n s m with
  | nil => exact ⟨rfl, h⟩
  | cons i rest ih =>
    have hi : i ∈ f.insts := mem_insts (b := b) (by rw [hsplit]; simp)
    have hstep := h.step (ha.spares b hb pre i rest hsplit) (hcopy i hi) sem (noise n)
    obtain ⟨htrace, hend⟩ := ih (pre ++ [i]) (by simpa using hsplit) (n + 1) _ _ hstep
    refine ⟨?_, hend⟩
    rw [traceInsts, traceAssigned, h.inputs, htrace]

theorem MachFunction.Agree.path (ha : f.Assigned reg) (hcopy : f.PlainCopies) (sem : OpSem τ α)
    (noise : Nat → Reg → α) (path : List Nat) (b n : Nat) (hpath : f.IsPath (b :: path))
    (s : VReg → α) (m : Reg → α) (h : f.Agree reg (f.block b).insts b s m) :
    traceInsts sem (f.code (b :: path)) s =
      traceAssigned sem reg noise n (f.code (b :: path)) m := by
  induction path generalizing b n s m with
  | nil =>
    have hb := hpath.1 b (List.mem_singleton_self b)
    simpa [code] using (Agree.block ha hcopy sem noise hb [] _ rfl n s m h).1
  | cons t path ih =>
    obtain ⟨hin, hchain⟩ := hpath
    rw [List.isChain_cons_cons] at hchain
    obtain ⟨htrace, hend⟩ :=
      Agree.block ha hcopy sem noise (hin b List.mem_cons_self) [] _ rfl n s m h
    have hcode : f.code (b :: t :: path) = (f.block b).insts ++ f.code (t :: path) := rfl
    rw [hcode, traceInsts_append, traceAssigned_append, htrace]
    congr 1
    apply ih t _ ⟨fun c hc => hin c (List.mem_cons_of_mem b hc), hchain.2⟩
    exact fun v hv => hend v (.leave hchain.1 hv)

/-- The check is sound. Code without phis whose assignment is accepted reads the same values from
the assigned registers as from the virtual ones, along every path from block `b`, whatever the
operations compute and whatever the killed registers are left with, if the registers that are live
into `b` start out with the same values. -/
theorem run_eq_of_verify (f : MachFunction τ) (file : RegFile) (regs : Array Reg)
    (hphi : ∀ b, (f.block b).phis = []) (hcopy : f.PlainCopies)
    (hv : f.verify file regs = .ok ()) (sem : OpSem τ α) (noise : Nat → Reg → α) (b : Nat)
    (path : List Nat) (hpath : f.IsPath (b :: path)) (s : VReg → α) (m : Reg → α)
    (hsm : ∀ v, f.LiveInto v b → s v = m (regs.getD v 0)) :
    f.run sem none (b :: path) s =
      some (traceAssigned sem (regs.getD · 0) noise 0 (f.code (b :: path)) m) := by
  have ha := ((f.verify_eq_ok_iff file regs).mp hv).2
  rw [f.run_eq_traceInsts hphi]
  exact congrArg some (MachFunction.Agree.path ha hcopy sem noise path b 0 hpath s m hsm)

/-- Counts in a loop that kills register 3, and ends with a copy whose source stays live. -/
def countingLoop : MachFunction Unit where
  name := "count"
  vregs := #[{ cls := .int }, { cls := .int }, { cls := .int }]
  blocks := #[
    { insts := [
        { op := .const 1, defs := [⟨0, .range 0 4⟩] },
        { op := .copy .int, defs := [⟨1, .range 0 4⟩], uses := [⟨0, .range 0 4⟩] }]
      succs := [1] },
    { insts := [
        { op := .alu .add, defs := [⟨1, .range 0 4⟩], uses := [⟨1, .range 0 4⟩, ⟨0, .range 0 4⟩]
          kill := .single 3, tied := some 0 }]
      preds := [0, 1], succs := [1, 2] },
    { insts := [
        { op := .copy .int, defs := [⟨2, .range 0 4⟩], uses := [⟨1, .range 0 4⟩] },
        { op := .ret, uses := [⟨1, .range 0 4⟩, ⟨2, .range 0 4⟩] }]
      preds := [1] }]

theorem run_eq_of_verify_countingLoop :
    countingLoop.verify fourRegisters #[0, 1, 1] = .ok () ∧
    countingLoop.run (fun _ vals k => vals.sum + k + 1) none [0, 1, 1, 2] (fun _ => 0) =
      some (traceAssigned (fun _ vals k => vals.sum + k + 1) (#[0, 1, 1].getD · 0)
        (fun n r => 100 * n + r) 0 (countingLoop.code [0, 1, 1, 2]) fun _ => 0) := by
  have hv : countingLoop.verify fourRegisters #[0, 1, 1] = .ok () := by decide +kernel
  refine ⟨hv, run_eq_of_verify countingLoop fourRegisters _ ?_ ?_ hv _ _ 0 [1, 1, 2] ?_ _ _ ?_⟩
  · rintro (_ | _ | _ | b)
    · rfl
    · rfl
    · rfl
    · rw [MachFunction.block_of_size_le (by simp [countingLoop])]
      rfl
  · intro i hi hc
    simp only [MachFunction.insts, countingLoop] at hi
    fin_cases hi <;> first | exact ⟨_, _, rfl, rfl⟩ | exact absurd hc (by decide)
  · exact ⟨by decide, by decide⟩
  · exact fun _ _ => rfl

end

end SeaNodes
