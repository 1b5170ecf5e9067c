import SeaNodes.Proofs.Registers.Isolation
import SeaNodes.Proofs.Registers.PhiLowering

namespace SeaNodes

variable {τ α : Type}

namespace MachFunction

variable {file : RegFile} {f g : MachFunction τ} {taken : Nat → Array VRegInfo}

/-- Where an instruction of the result that is no copy stems from. -/
structure IsolatedAt (f : MachFunction τ) (file : RegFile) (g : MachFunction τ)
    (taken : Nat → Array VRegInfo) (b : Nat) (pre : List (Inst τ)) (i : Inst τ)
    (post : List (Inst τ)) (isA : List (Inst τ)) (i₀ : Inst τ) (isB outA outB : List (Inst τ))
    (us ds : List (List (Inst τ) × Operand)) (vs₁ vs₂ vs₃ : Array VRegInfo) : Prop where
  segment : f.Segment (·.isolate file) g taken b isA i₀ isB outA
    (us.flatMap (·.1) ++ i :: ds.flatMap (·.1)) outB vs₁ vs₃
  uses : Isolated (i₀.copyIn file) (i₀.MovesUse file) 0 vs₁ i₀.uses us vs₂
  defs : Isolated (i₀.copyOut file) (Inst.MovesDef file) 0 vs₂ i₀.defs ds vs₃
  inst : i = { i₀ with uses := us.map (·.2), defs := ds.map (·.2) }
  pre_eq : pre = outA ++ us.flatMap (·.1)
  post_eq : post = ds.flatMap (·.1) ++ outB

theorem exists_isolatedAt (R : f.RewrittenTo (·.isolate file) g taken) {b : Nat}
    {pre post : List (Inst τ)} {i : Inst τ} (hi : (g.block b).insts = pre ++ i :: post)
    (hc : i.isCopy = false) : ∃ isA i₀ isB outA outB us ds vs₁ vs₂ vs₃,
      f.IsolatedAt file g taken b pre i post isA i₀ isB outA outB us ds vs₁ vs₂ vs₃ := by
  obtain ⟨isA, i₀, isB, outA, outB, segA, segB, vs₁, vs₃, S, rfl, rfl⟩ := R.locate hi
  have hrun := S.run
  rcases hc₀ : i₀.isCopy with _ | _
  case true =>
    rw [Inst.isolate_run_copy file i₀ hc₀] at hrun
    obtain ⟨hseg, -⟩ := Prod.mk.inj hrun
    have hmem : i ∈ [i₀] := by simp [hseg]
    rw [← List.mem_singleton.mp hmem, hc] at hc₀
    exact absurd hc₀ Bool.false_ne_true
  case false =>
    obtain ⟨us, ds, vs₂, hu, hd, hseg⟩ := Inst.isolate_run file i₀ hc₀ hrun
    have hcopy (x : Inst τ) (hx : x ∈ us.flatMap (·.1)) : x.isCopy = true := by
      obtain ⟨c, t, o, -, rfl, -⟩ := hu.copies hx
      rfl
    have hcopy' (x : Inst τ) (hx : x ∈ ds.flatMap (·.1)) : x.isCopy = true := by
      obtain ⟨c, t, o, -, rfl, -⟩ := hd.copies hx
      rfl
    obtain ⟨rfl, hinst, rfl⟩ := append_cons_inj_of_forall hcopy hcopy' (by simp [hc]) hseg
    exact ⟨isA, i₀, isB, outA, outB, us, ds, vs₁, vs₂, vs₃, S, hu, hd, hinst, rfl, rfl⟩

section

variable {b : Nat} {pre post isA isB outA outB : List (Inst τ)} {i i₀ : Inst τ}
  {us ds : List (List (Inst τ) × Operand)} {vs₁ vs₂ vs₃ : Array VRegInfo}

theorem IsolatedAt.old
    (L : f.IsolatedAt file g taken b pre i post isA i₀ isB outA outB us ds vs₁ vs₂ vs₃)
    (R : f.RewrittenTo (·.isolate file) g taken) (hf : f.InRange) {v : VReg} (hv : i₀.Mentions v) :
    v < vs₁.size := by
  have hi₀ : i₀ ∈ (f.block b).insts := by simp [L.segment.source]
  have hext := L.segment.extends R (Inst.freshRewriting_isolate file)
  exact (hf.lt hi₀ hv).trans_le hext.size_le

/-- A tied or restricted use is a register that links a copy before the instruction to it. -/
theorem IsolatedAt.link_use
    (L : f.IsolatedAt file g taken b pre i post isA i₀ isB outA outB us ds vs₁ vs₂ vs₃)
    (R : f.RewrittenTo (·.isolate file) g taken) (hf : f.InRange) {k : Nat} {o : Operand}
    (ho : i.uses[k]? = some o) (hk : i.MovesUse file (g.classOf o.vreg) k o) :
    vs₁.size ≤ o.vreg ∧ o.vreg < vs₂.size ∧
      ∃ a j m, us.flatMap (·.1) = a ++ j :: m ∧ g.Link b (outA ++ a) j m i post o.vreg := by
  have hr := Inst.freshRewriting_isolate (τ := τ) file
  have hinst := L.inst
  subst hinst
  rw [List.getElem?_map, Option.map_eq_some_iff] at ho
  obtain ⟨p, hp, rfl⟩ := ho
  obtain ⟨usA, usB, rfl, rfl⟩ := exists_append_cons_of_getElem? hp
  have hread {o : Operand} (ho : o ∈ i₀.uses) : o.vreg < vs₁.size :=
    L.old R hf (Inst.Reads.mentions ⟨o, ho, rfl⟩)
  have hwrite {o : Operand} (ho : o ∈ i₀.defs) : o.vreg < vs₁.size :=
    L.old R hf (Inst.Writes.mentions ⟨o, ho, rfl⟩)
  obtain ⟨o, ho, ⟨rfl, hkeep⟩ | ⟨c, t, rfl, hlo, hhi, hothers⟩⟩ :=
    L.uses.moved (i₀.mentions_copyIn file) fun o ho => hread ho
  · have hgrow : Extends vs₂ g.vregs := (L.defs.grows.trans
      (L.segment.after.grows hr)).trans (R.taken_extends hr (b + 1))
    rw [Nat.zero_add, ← hgrow.classIn ((hread ho).trans_le L.uses.grows.size_le)] at hkeep
    exact absurd hk hkeep
  · have S := L.segment
    have hcut : (usA ++ ([i₀.copyIn file c t o.vreg], { o with vreg := t }) :: usB).flatMap (·.1) =
        usA.flatMap (·.1) ++ i₀.copyIn file c t o.vreg :: usB.flatMap (·.1) := by simp
    rw [hcut, List.append_assoc, List.cons_append] at S
    refine ⟨hlo, hhi, _, _, _, hcut, ?_⟩
    rw [L.post_eq]
    apply S.link R hr hf hlo (hhi.trans_le L.defs.grows.size_le)
    · exact Inst.writes_ofCopy file |>.mpr rfl
    · exact fun h => Nat.ne_of_lt ((hread ho).trans_le hlo) ((Inst.reads_ofCopy file).mp h)
    · exact ⟨{ o with vreg := t }, by simp, rfl⟩
    · rintro ⟨a, ha, hav⟩
      rcases L.defs.operands ha with ha | ⟨hlo', -⟩
      · exact Nat.ne_of_lt ((hwrite ha).trans_le hlo) hav
      · exact absurd hhi (Nat.not_lt.mpr (hav ▸ hlo'))
    · intro x hx hv
      rcases List.mem_append.mp hx with hx | hx
      · exact hothers x hx hv
      · rcases L.defs.mentions (i₀.mentions_copyOut file) hx hv with ⟨a, ha, hav⟩ | ⟨hle, -⟩
        · exact Nat.ne_of_lt ((hwrite ha).trans_le hlo) hav
        · exact absurd hhi (Nat.not_lt.mpr hle)

/-- A restricted def is a register that links the instruction to a copy after it. -/
theorem IsolatedAt.link_def
    (L : f.IsolatedAt file g taken b pre i post isA i₀ isB outA outB us ds vs₁ vs₂ vs₃)
    (R : f.RewrittenTo (·.isolate file) g taken) (hf : f.InRange) {o : Operand}
    (ho : o ∈ i.defs) (hm : o.mask ≠ file.ofClass (g.classOf o.vreg)) :
    ∃ m j z, ds.flatMap (·.1) = m ++ j :: z ∧ g.Link b pre i m j (z ++ outB) o.vreg := by
  have hr := Inst.freshRewriting_isolate (τ := τ) file
  have hinst := L.inst
  subst hinst
  obtain ⟨p, hp, rfl⟩ := List.mem_map.mp ho
  obtain ⟨dsA, dsB, rfl⟩ := List.append_of_mem hp
  have hle := L.uses.grows.size_le
  have hread {o : Operand} (ho : o ∈ i₀.uses) : o.vreg < vs₂.size :=
    (L.old R hf (Inst.Reads.mentions ⟨o, ho, rfl⟩)).trans_le hle
  have hwrite {o : Operand} (ho : o ∈ i₀.defs) : o.vreg < vs₂.size :=
    (L.old R hf (Inst.Writes.mentions ⟨o, ho, rfl⟩)).trans_le hle
  obtain ⟨o, hmem, ⟨rfl, hkeep⟩ | ⟨c, t, rfl, hlo, hhi, hothers⟩⟩ :=
    L.defs.moved (i₀.mentions_copyOut file) fun o ho => hwrite ho
  · have hgrow : Extends vs₃ g.vregs :=
      (L.segment.after.grows hr).trans (R.taken_extends hr (b + 1))
    rw [← hgrow.classIn ((hwrite hmem).trans_le L.defs.grows.size_le)] at hkeep
    exact absurd hm hkeep
  · have S := L.segment
    have hcut : (dsA ++ ([i₀.copyOut file c t o.vreg], { o with vreg := t }) :: dsB).flatMap (·.1) =
        dsA.flatMap (·.1) ++ i₀.copyOut file c t o.vreg :: dsB.flatMap (·.1) := by simp
    rw [hcut] at S
    refine ⟨_, _, _, hcut, ?_⟩
    rw [L.pre_eq]
    apply S.link R hr hf (hle.trans hlo) hhi
    · exact ⟨{ o with vreg := t }, by simp, rfl⟩
    · rintro ⟨a, ha, hav⟩
      rcases L.uses.operands ha with ha | ⟨-, hlt⟩
      · exact Nat.ne_of_lt ((hread ha).trans_le hlo) hav
      · exact absurd (hav ▸ hlt) (Nat.not_lt.mpr hlo)
    · exact Inst.reads_ofCopy file |>.mpr rfl
    · exact fun h => Nat.ne_of_lt ((hwrite hmem).trans_le hlo) ((Inst.writes_ofCopy file).mp h)
    · intro x hx hv
      rw [List.append_assoc] at hx
      rcases List.mem_append.mp hx with hx | hx
      · rcases L.uses.mentions (i₀.mentions_copyIn file) hx hv with ⟨a, ha, hav⟩ | ⟨-, hlt⟩
        · exact Nat.ne_of_lt ((hread ha).trans_le hlo) hav
        · exact absurd hlt (Nat.not_lt.mpr hlo)
      · exact hothers x hx hv

end

end MachFunction

namespace MachFunction

def definitions (f : MachFunction τ) : List VReg :=
  f.blocks.toList.flatMap fun b => b.phis.map (·.dst) ++ b.insts.flatMap (·.defs.map (·.vreg))

/-- Every register is defined once, and phis fit the edges between blocks. -/
structure Strict (f : MachFunction τ) : Prop where
  inRange : f.InRange
  phisFit : f.PhisFit
  once : f.definitions.Nodup

theorem Strict.nodup_defs {f : MachFunction τ} (hf : f.Strict) {i : Inst τ} (hi : i ∈ f.insts) :
    (i.defs.map (·.vreg)).Nodup := by
  obtain ⟨b, hb, hib⟩ := List.mem_flatMap.mp hi
  have hblock := (List.nodup_flatMap.mp hf.once).1 b hb
  exact (List.nodup_flatMap.mp (List.nodup_append.mp hblock).2.1).1 i hib

def CopiedIn (f : MachFunction τ) (b : Nat) (pre : List (Inst τ)) (i : Inst τ)
    (post : List (Inst τ)) (v : VReg) : Prop :=
  ∃ a j m, pre = a ++ j :: m ∧ j.isCopy ∧ (∀ x ∈ m, x.isCopy) ∧ f.Link b a j m i post v

def CopiedOut (f : MachFunction τ) (b : Nat) (pre : List (Inst τ)) (i : Inst τ)
    (post : List (Inst τ)) (v : VReg) : Prop :=
  ∃ m j z, post = m ++ j :: z ∧ j.isCopy ∧ (∀ x ∈ m, x.isCopy) ∧ f.Link b pre i m j z v

/-- There are no phis, and tied uses and restricted operands are registers of their own. -/
structure Legal (file : RegFile) (f : MachFunction τ) : Prop where
  phis : ∀ b, (f.block b).phis = []
  uses : ∀ b pre i post, (f.block b).insts = pre ++ i :: post → i.isCopy = false → ∀ k o,
    i.uses[k]? = some o → i.tied = some k ∨ o.mask ≠ file.ofClass (f.classOf o.vreg) →
    f.CopiedIn b pre i post o.vreg
  defs : ∀ b pre i post, (f.block b).insts = pre ++ i :: post → i.isCopy = false → ∀ o ∈ i.defs,
    o.mask ≠ file.ofClass (f.classOf o.vreg) → f.CopiedOut b pre i post o.vreg

section

variable {file : RegFile} {f g h : MachFunction τ} {taken : Nat → Array VRegInfo}
  {body closing : Nat → List (Inst τ)} {ts : List PhiSite}

theorem legal_of_isolate (R : f.RewrittenTo (·.isolate file) g taken) (hf : f.InRange)
    (hphis : ∀ b, (f.block b).phis = []) : g.Legal file where
  phis b := by
    rw [R.frame b]
    exact hphis b
  uses b pre i post hi hc k o ho hk := by
    obtain ⟨isA, i₀, isB, outA, outB, us, ds, vs₁, vs₂, vs₃, L⟩ := exists_isolatedAt R hi hc
    obtain ⟨-, -, a, j, m, hcut, hlink⟩ := L.link_use R hf ho hk
    have hcopy (x : Inst τ) (hx : x ∈ us.flatMap (·.1)) : x.isCopy := by
      obtain ⟨c, t, o, -, rfl, -⟩ := L.uses.copies hx
      rfl
    rw [hcut] at hcopy
    refine ⟨outA ++ a, j, m, ?_, hcopy j (by simp), fun x hx => hcopy x (by simp [hx]), hlink⟩
    rw [L.pre_eq, hcut, List.append_assoc]
  defs b pre i post hi hc o ho hm := by
    obtain ⟨isA, i₀, isB, outA, outB, us, ds, vs₁, vs₂, vs₃, L⟩ := exists_isolatedAt R hi hc
    obtain ⟨m, j, z, hcut, hlink⟩ := L.link_def R hf ho hm
    have hcopy (x : Inst τ) (hx : x ∈ ds.flatMap (·.1)) : x.isCopy := by
      obtain ⟨c, t, o, -, rfl, -⟩ := L.defs.copies hx
      rfl
    rw [hcut] at hcopy
    refine ⟨m, j, z ++ outB, ?_, hcopy j (by simp), fun x hx => hcopy x (by simp [hx]), hlink⟩
    rw [L.post_eq, hcut, List.append_assoc, List.cons_append]

theorem Lowering.inRange_of_phis (L : Lowering file f g body closing [] [] ts ts) (hf : f.InRange)
    (hphis : ∀ b, ∀ p ∈ (f.block b).phis, p.dst < f.vregs.size ∧ ∀ a ∈ p.args, a < f.vregs.size)
    (hin : ∀ c < f.blocks.size, (f.block c).insts = body c ++ closing c) : g.InRange := by
  intro i hi o ho
  obtain ⟨c, hc⟩ := mem_insts_iff.mp hi
  have hle := L.grows.size_le
  have hphi (p : PhiSite) (hp : p ∈ ts) := hphis p.block _ (L.mem_phis hp)
  rcases L.mem_insts hin hc with ⟨p, hp, rfl⟩ | hc | ⟨p, hp, a, ha, rfl⟩
  · rcases (Inst.mentions_ofCopy file).mp ⟨o, ho, rfl⟩ with hv | hv
    · exact hv ▸ (hphi p hp).1.trans_le hle
    · exact hv ▸ (L.temps p hp).2
  · exact (hf i (MachFunction.mem_insts hc) o ho).trans_le hle
  · rcases (Inst.mentions_ofCopy file).mp ⟨o, ho, rfl⟩ with hv | hv
    · exact hv ▸ (L.temps p hp).2
    · exact hv ▸ ((hphi p hp).2 a ha).trans_le hle

theorem Lowering.inRange (L : Lowering file f g body closing [] [] ts ts) (hf : f.Strict)
    (hin : ∀ c < f.blocks.size, (f.block c).insts = body c ++ closing c) : g.InRange :=
  L.inRange_of_phis hf.inRange (fun _ _ => hf.phisFit.lt) hin

theorem Lowering.nodup_defs (L : Lowering file f g body closing [] [] ts ts) (hf : f.Strict)
    (hin : ∀ c < f.blocks.size, (f.block c).insts = body c ++ closing c) {i : Inst τ}
    (hi : i ∈ g.insts) : (i.defs.map (·.vreg)).Nodup := by
  obtain ⟨c, hc⟩ := mem_insts_iff.mp hi
  rcases L.mem_insts hin hc with ⟨p, hp, rfl⟩ | hc | ⟨p, hp, a, ha, rfl⟩
  · exact List.nodup_singleton _
  · exact hf.nodup_defs (MachFunction.mem_insts hc)
  · exact List.nodup_singleton _

theorem exists_legalize_of_arity
    (harity : ∀ b, ∀ p ∈ (f.block b).phis, p.args.length = (f.block b).preds.length)
    (file : RegFile) :
    ∃ body closing ts h taken, (∀ c < f.blocks.size, (f.block c).insts = body c ++ closing c) ∧
      (∀ c < f.blocks.size, Ends (body c) (closing c)) ∧
      Lowering file f h body closing [] [] ts ts ∧
      h.RewrittenTo (·.isolate file) (h.rewriteInsts (·.isolate file)) taken ∧
      f.legalize file = (.ok (), h.rewriteInsts (·.isolate file)) := by
  choose body closing hin hends using fun c => exists_ends (f.block c).insts
  obtain ⟨ts, h, hrun, L⟩ := (Lowering.initial file fun c _ => hin c).lowerAllPhis
    (fun c _ => hends c) harity List.nodup_range (by simp)
  obtain ⟨taken, R⟩ := h.exists_rewrittenTo (·.isolate file)
  exact ⟨body, closing, ts, h, taken, fun c _ => hin c, fun c _ => hends c, L, R,
    by rw [legalize, hrun]⟩

theorem exists_legalize (hf : f.PhisFit) (file : RegFile) :
    ∃ body closing ts h taken, (∀ c < f.blocks.size, (f.block c).insts = body c ++ closing c) ∧
      (∀ c < f.blocks.size, Ends (body c) (closing c)) ∧
      Lowering file f h body closing [] [] ts ts ∧
      h.RewrittenTo (·.isolate file) (h.rewriteInsts (·.isolate file)) taken ∧
      f.legalize file = (.ok (), h.rewriteInsts (·.isolate file)) :=
  exists_legalize_of_arity (fun _ p hp => hf.arity _ (mem_blocks hp) p hp) file

end

end MachFunction

/-- Legal form keeps the meaning of the code. If no instruction that ends a block writes a register
that a phi takes over from it, making a strict function legal succeeds, and along every path from a
block without phis the old instructions read the same values in the same order, whatever the
operations compute and whatever the new registers start out with. The result is legal. -/
theorem run_legalize (f : MachFunction τ) (file : RegFile) (hf : f.Strict)
    (hends : f.EndsSparePhis) :
    ∃ g, f.legalize file = (.ok (), g) ∧ g.Legal file ∧
      ∀ {α : Type} (sem : OpSem τ α) (b : Nat) (path : List Nat) (s s' : VReg → α),
        f.IsPath (b :: path) → (f.block b).phis = [] → (∀ v, v < f.vregs.size → s' v = s v) →
        f.run sem none (b :: path) s =
          some (traceWhere (Inst.original f.vregs.size) sem (g.code (b :: path)) s') := by
  obtain ⟨body, closing, ts, h, taken, hin, hcut, L, R, hrun⟩ :=
    MachFunction.exists_legalize hf.phisFit file
  have hrange := L.inRange hf hin
  have hphis (b : Nat) : (h.block b).phis = [] := (L.phis b).trans (if_neg List.not_mem_nil)
  refine ⟨_, hrun, MachFunction.legal_of_isolate R hrange hphis, ?_⟩
  intro α sem b path s s' hpath hb hs
  -- what ends a block is as it was, so it writes nothing that a phi takes over
  have hspare : ∀ c < f.blocks.size, ∀ i ∈ closing c, ∀ t, ∀ p ∈ (f.block t).phis, ∀ a,
      (c, a) ∈ (f.block t).preds.zip p.args → ¬ i.Writes a := by
    intro c hc i hi t p hp a ha
    rcases (hcut c hc).closing with hz | ⟨j, hz, hj⟩
    · simp [hz] at hi
    · rw [hz, List.mem_singleton] at hi
      have ha' := (List.of_mem_zip ha).2
      refine hends c hc i ?_ (hi ▸ hj) _ (MachFunction.mem_blocks hp) p hp a ha' ha
      simp [hin c hc, hz, hi]
  have hnone (p : PhiSite) (hp : p ∈ ts) : p.block ≠ b := by
    rintro rfl
    exact absurd (L.mem_phis hp) (by simp [hb])
  have hready : f.Ready ts none b s s' := ⟨hs, fun p hp he => absurd he (hnone p hp)⟩
  have hisolate := MachFunction.traceWhere_isolate R hrange (fun i hi => L.nodup_defs hf hin hi)
    L.grows.size_le sem (b :: path) (s := s') fun _ _ => rfl
  rw [L.run_eq hf.phisFit hf.inRange hin hspare sem path hpath hready, hisolate]

/-- A loop whose phis exchange their values, with an addition in place that may only take its second
operand from register 3. -/
def swapLoop : MachFunction Unit where
  name := "swap"
  vregs := Array.replicate 5 { cls := .int }
  blocks := #[
    { insts := [
        { op := .const 1, defs := [⟨0, .range 0 4⟩] },
        { op := .const 2, defs := [⟨1, .range 0 4⟩] },
        { op := .jump 1 }]
      succs := [1] },
    { phis := [{ dst := 2, args := [0, 3] }, { dst := 3, args := [1, 2] }]
      insts := [
        { op := .alu .add, defs := [⟨4, .range 0 4⟩], uses := [⟨2, .range 0 4⟩, ⟨3, .single 3⟩]
          tied := some 0 },
        { op := .branch () 1 2, uses := [⟨4, .range 0 4⟩] }]
      preds := [0, 1], succs := [1, 2] },
    { insts := [{ op := .ret, uses := [⟨4, .single 0⟩] }]
      preds := [1] }]

theorem run_legalize_swapLoop :
    swapLoop.Strict ∧ swapLoop.EndsSparePhis ∧
    ∃ g, swapLoop.legalize fourRegisters = (.ok (), g) ∧ g.Legal fourRegisters ∧
      swapLoop.run (fun _ vals k => vals.sum + k + 1) none [0, 1, 1, 1, 2] (fun v => v) =
        some (traceWhere (Inst.original 5) (fun _ vals k => vals.sum + k + 1)
          (g.code [0, 1, 1, 1, 2]) fun v => if v < 5 then v else 0) := by
  have hf : swapLoop.Strict := ⟨by decide, ⟨by decide, by decide, by decide, by decide⟩, by decide⟩
  have hends : swapLoop.EndsSparePhis := by
    unfold MachFunction.EndsSparePhis
    decide
  obtain ⟨g, hrun, hlegal, hmeaning⟩ := run_legalize swapLoop fourRegisters hf hends
  refine ⟨hf, hends, g, hrun, hlegal, hmeaning _ 0 [1, 1, 1, 2] _ _ ?_ rfl ?_⟩
  · exact ⟨by decide, by decide⟩
  · exact fun v hv => if_pos hv

/-- A jump that writes the register which the phi behind it reads. -/
def writingJump : MachFunction Unit where
  name := "late"
  vregs := Array.replicate 3 { cls := .int }
  blocks := #[
    { insts := [
        { op := .const 1, defs := [⟨2, .range 0 4⟩] },
        { op := .jump 1, defs := [⟨0, .range 0 4⟩] }]
      succs := [1] },
    { phis := [{ dst := 1, args := [0] }]
      insts := [{ op := .ret, uses := [⟨1, .range 0 4⟩] }]
      preds := [0] }]

/-- The copy for the phi stands before the jump, so it misses what the jump writes: a strict
function with one terminator a block, at its end, can read other values in legal form. -/
theorem run_writingJump_ne :
    writingJump.Strict ∧
    (∀ B ∈ writingJump.blocks.toList, ∀ i ∈ B.insts.dropLast, i.op.isTerminator = false) ∧
    (writingJump.legalize fourRegisters).1 = .ok () ∧
    writingJump.run (fun _ vals _ => vals.sum + 1) none [0, 1] (fun _ => 0) ≠
      some (traceWhere (Inst.original 3) (fun _ vals _ => vals.sum + 1)
        ((writingJump.legalize fourRegisters).2.code [0, 1]) fun _ => 0) := by
  have hf : writingJump.Strict :=
    ⟨by decide, ⟨by decide, by decide, by decide, by decide⟩, by decide⟩
  exact ⟨hf, by decide, by decide +kernel, by decide +kernel⟩

end SeaNodes
