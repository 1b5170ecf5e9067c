import SeaNodes.Proofs.Registers.Definitions
import SeaNodes.Proofs.Registers.SpillCode
import SeaNodes.Proofs.Registers.Coloring

namespace SeaNodes

variable {τ : Type}

namespace MachFunction

def NoSelfReads (f : MachFunction τ) : Prop :=
  ∀ i ∈ f.insts, ∀ d ∈ i.defs, ∀ u ∈ i.uses, u.vreg ≠ d.vreg

theorem Ssa.noSelfReads {f : MachFunction τ} (h : f.Ssa) : f.NoSelfReads :=
  fun _ hi d hd u hu he => h.not_reads hi ⟨d, hd, rfl⟩ ⟨u, hu, he⟩

/-- No copy is tied, and no instruction reads what it writes. -/
structure PlainTies (f : MachFunction τ) : Prop where
  copies : ∀ i ∈ f.insts, i.isCopy → i.tied = none
  apart : ∀ i ∈ f.insts, ∀ d ∈ i.defs, ∀ u ∈ i.uses, u.vreg ≠ d.vreg

section

variable {file : RegFile} {f g h : MachFunction τ} {taken : Nat → Array VRegInfo}
  {body closing : Nat → List (Inst τ)} {ts : List PhiSite}

/-- An instruction that is no copy is an old one, and around it stand the old ones and copies. -/
theorem Lowering.split (L : Lowering file f h body closing [] [] ts ts)
    (hin : ∀ c < f.blocks.size, (f.block c).insts = body c ++ closing c) {b : Nat}
    {pre post : List (Inst τ)} {i : Inst τ} (hi : (h.block b).insts = pre ++ i :: post)
    (hc : i.isCopy = false) : ∃ pre' post', (f.block b).insts = pre' ++ i :: post' ∧
      ∀ x ∈ pre ++ post, x ∈ pre' ++ post' ∨ (∃ p ∈ ts, x = p.head file) ∨
        ∃ p ∈ ts, ∃ a, x = .ofCopy file p.cls p.phi.node p.temp a := by
  have hb : b < f.blocks.size := L.size ▸ lt_of_mem_insts (i := i) (by simp [hi])
  have hhead {x : Inst τ} (hx : x ∈ (ts.filter (·.block == b)).map (·.head file)) :
      ∃ p ∈ ts, x = p.head file := by
    obtain ⟨p, hp, rfl⟩ := List.mem_map.mp hx
    exact ⟨p, (List.mem_filter.mp hp).1, rfl⟩
  have htail {x : Inst τ} (hx : x ∈ ts.flatMap (·.tails file f b)) :
      ∃ p ∈ ts, ∃ a, x = .ofCopy file p.cls p.phi.node p.temp a := by
    obtain ⟨p, hp, hx⟩ := List.mem_flatMap.mp hx
    obtain ⟨a, -, rfl⟩ := PhiSite.mem_tails.mp hx
    exact ⟨p, hp, a, rfl⟩
  rw [L.insts b hb, List.append_assoc, List.append_assoc] at hi
  rw [hin b hb]
  -- heads and copies into phis are copies, so the instruction is in the body or the end
  rcases append_cons_eq_append hi.symm with ⟨q, hq, -⟩ | ⟨pre₁, rfl, hi₁⟩
  · obtain ⟨p, -, rfl⟩ := hhead (hq ▸ (by simp : i ∈ pre ++ i :: q))
    exact absurd (hc : true = false) Bool.noConfusion
  rcases append_cons_eq_append hi₁.symm with ⟨q, hq, rfl⟩ | ⟨pre₂, rfl, hi₂⟩
  · refine ⟨pre₁, q ++ closing b, by rw [hq]; simp, fun x hx => ?_⟩
    simp only [List.mem_append] at hx ⊢
    rcases hx with (hx | hx) | hx | hx | hx
    · exact .inr (.inl (hhead hx))
    · exact .inl (.inl hx)
    · exact .inl (.inr (.inl hx))
    · exact .inr (.inr (htail hx))
    · exact .inl (.inr (.inr hx))
  rcases append_cons_eq_append hi₂.symm with ⟨q, hq, -⟩ | ⟨pre₃, rfl, hi₃⟩
  · obtain ⟨p, -, a, rfl⟩ := htail (hq ▸ (by simp : i ∈ pre₂ ++ i :: q))
    exact absurd (hc : true = false) Bool.noConfusion
  · refine ⟨body b ++ pre₃, post, by rw [hi₃]; simp, fun x hx => ?_⟩
    simp only [List.mem_append] at hx ⊢
    rcases hx with (hx | hx | hx | hx) | hx
    · exact .inr (.inl (hhead hx))
    · exact .inl (.inl (.inl hx))
    · exact .inr (.inr (htail hx))
    · exact .inl (.inl (.inr hx))
    · exact .inl (.inr hx)

theorem Lowering.mem_insts_of_tie? (L : Lowering file f h body closing [] [] ts ts)
    (hin : ∀ c < f.blocks.size, (f.block c).insts = body c ++ closing c) {i : Inst τ}
    (hi : i ∈ h.insts) {d u : VReg} (ht : i.tie? = some (d, u)) : i ∈ f.insts := by
  obtain ⟨b, hb⟩ := mem_insts_iff.mp hi
  rcases L.mem_insts hin hb with ⟨p, -, rfl⟩ | hb | ⟨p, -, a, -, rfl⟩
  · cases ht
  · exact MachFunction.mem_insts hb
  · cases ht

theorem mem_of_isolate (R : h.RewrittenTo (·.isolate file) g taken) {i : Inst τ}
    (hi : i ∈ g.insts) : (i ∈ h.insts ∧ i.isCopy) ∨ (∃ c node t s, i = .ofCopy file c node t s) ∨
      ∃ i₀ ∈ h.insts, ∃ (us ds : List (List (Inst τ) × Operand)) (vs vs' : _), i₀.isCopy = false ∧
        i = { i₀ with uses := us.map (·.2), defs := ds.map (·.2) } ∧ Extends h.vregs vs ∧
        Isolated (i₀.copyOut file) (Inst.MovesDef file) 0 vs i₀.defs ds vs' := by
  obtain ⟨b, pre, post, hsplit⟩ := exists_split hi
  obtain ⟨isA, i₀, isB, outA, outB, segA, segB, vs₁, vs₂, S, -, -⟩ := R.locate hsplit
  have hmem : i ∈ segA ++ i :: segB := by simp
  have hi₀ : i₀ ∈ h.insts := mem_insts (b := b) (by simp [S.source])
  have hext := S.extends R (Inst.freshRewriting_isolate file)
  have hrun := S.run
  rcases hc₀ : i₀.isCopy with _ | _
  case true =>
    rw [Inst.isolate_run_copy file i₀ hc₀] at hrun
    rw [← (Prod.mk.inj hrun).1, List.mem_singleton] at hmem
    exact .inl ⟨hmem ▸ hi₀, hmem ▸ hc₀⟩
  case false =>
    obtain ⟨us, ds, vs, hu, hd, hseg⟩ := Inst.isolate_run file i₀ hc₀ hrun
    rw [hseg, List.mem_append, List.mem_cons] at hmem
    rcases hmem with hmem | hmem | hmem
    · obtain ⟨c, t, o, -, rfl, -⟩ := hu.copies hmem
      exact .inr (.inl ⟨c, _, t, o.vreg, rfl⟩)
    · exact .inr (.inr ⟨i₀, hi₀, us, ds, vs, vs₂, hc₀, hmem, hext.trans hu.grows, hd⟩)
    · obtain ⟨c, t, o, -, rfl, -⟩ := hd.copies hmem
      exact .inr (.inl ⟨c, _, o.vreg, t, rfl⟩)

theorem mem_insts_of_isolate (R : h.RewrittenTo (·.isolate file) g taken) {i : Inst τ}
    (hi : i ∈ g.insts) (hc : i.isCopy) {d u : VReg} (ht : i.tie? = some (d, u)) : i ∈ h.insts := by
  rcases mem_of_isolate R hi with ⟨hi, -⟩ | ⟨c, node, t, s, rfl⟩ |
    ⟨i₀, -, us, ds, vs, vs', hc₀, rfl, -⟩
  · exact hi
  · cases ht
  · exact absurd (hc₀.symm.trans hc) Bool.false_ne_true

theorem nodup_defs_of_isolate (R : h.RewrittenTo (·.isolate file) g taken) (hr : h.InRange)
    (hh : ∀ i ∈ h.insts, (i.defs.map (·.vreg)).Nodup) {i : Inst τ} (hi : i ∈ g.insts) :
    (i.defs.map (·.vreg)).Nodup := by
  rcases mem_of_isolate R hi with ⟨hi, -⟩ | ⟨c, node, t, s, rfl⟩ |
    ⟨i₀, hi₀, us, ds, vs, vs', -, rfl, hext, hd⟩
  · exact hh i hi
  · exact List.nodup_singleton _
  · have hlt (o : Operand) (ho : o ∈ i₀.defs) : o.vreg < vs.size :=
      (hr i₀ hi₀ o (List.mem_append_left _ ho)).trans_le hext.size_le
    exact hd.nodup hlt (hh i₀ hi₀)

section

variable {b : Nat} {pre post isA isB outA outB : List (Inst τ)} {i i₀ : Inst τ}
  {us ds : List (List (Inst τ) × Operand)} {vs₁ vs₂ vs₃ : Array VRegInfo} {d : VReg}

/-- The first def of an instruction was moved to a new register, or is an old one that no copy after
the instruction writes. -/
theorem IsolatedAt.head_def
    (L : h.IsolatedAt file g taken b pre i post isA i₀ isB outA outB us ds vs₁ vs₂ vs₃)
    (hn : (i₀.defs.map (·.vreg)).Nodup) {o : Operand} (ho : i.defs.head? = some o) :
    (vs₂.size ≤ o.vreg ∧ o.vreg < vs₃.size) ∨
      (i₀.Writes o.vreg ∧ ∀ x ∈ ds.flatMap (·.1), ¬ x.Writes o.vreg) := by
  rw [L.inst] at ho
  rcases L.defs.head ho with ⟨os, ds', hos, rfl, -, hrest⟩ | ⟨a, os, -, -, hlo, hhi⟩
  · rw [hos, List.map_cons, List.nodup_cons] at hn
    refine .inr ⟨⟨o, by simp [hos], rfl⟩, fun x hx hw => ?_⟩
    obtain ⟨c, t, a, ha, rfl, -⟩ := hrest.copies (by simpa using hx)
    exact hn.1 (List.mem_map.mpr ⟨a, ha, (Inst.writes_ofCopy file).mp hw⟩)
  · exact .inl ⟨hlo, hhi⟩

theorem IsolatedAt.reads
    (L : h.IsolatedAt file g taken b pre i post isA i₀ isB outA outB us ds vs₁ vs₂ vs₃)
    {x : Inst τ} (hx : x = i ∨ x ∈ us.flatMap (·.1)) {v : VReg} (hv : x.Reads v) :
    i₀.Reads v ∨ (vs₁.size ≤ v ∧ v < vs₂.size) := by
  rcases hx with rfl | hx
  · rw [L.inst] at hv
    obtain ⟨o, ho, rfl⟩ := hv
    exact (L.uses.operands ho).imp_left fun ho => ⟨o, ho, rfl⟩
  · obtain ⟨c, t, o, ho, rfl, -⟩ := L.uses.copies hx
    exact .inl ⟨o, ho, (Inst.reads_ofCopy file).mp hv⟩

/-- What a tied instruction reads of old registers it does not write, so a register that it writes
first is not read on the way from the copies. -/
theorem IsolatedAt.not_reads
    (L : h.IsolatedAt file g taken b pre i post isA i₀ isB outA outB us ds vs₁ vs₂ vs₃)
    (R : h.RewrittenTo (·.isolate file) g taken) (hr : h.InRange)
    (hp : ∀ d ∈ i₀.defs, ∀ u ∈ i₀.uses, u.vreg ≠ d.vreg)
    (hd : (vs₂.size ≤ d ∧ d < vs₃.size) ∨ i₀.Writes d) {x : Inst τ}
    (hx : x = i ∨ x ∈ us.flatMap (·.1)) : ¬ x.Reads d := by
  intro hv
  rcases L.reads hx hv with hread | ⟨hlo, hhi⟩
  · rcases hd with ⟨hlo, -⟩ | ⟨o, ho, rfl⟩
    · have hlt := (L.old R hr hread.mentions).trans_le L.uses.grows.size_le
      exact absurd hlt (Nat.not_lt.mpr hlo)
    · obtain ⟨a, ha, hav⟩ := hread
      exact hp o ho a ha hav
  · rcases hd with ⟨hlo', -⟩ | hw
    · exact absurd hhi (Nat.not_lt.mpr hlo')
    · exact absurd (L.old R hr hw.mentions) (Nat.not_lt.mpr hlo)

/-- A register that the instruction writes first is written nowhere else. -/
theorem IsolatedAt.once
    (A : h.IsolatedAt file g taken b pre i post isA i₀ isB outA outB us ds vs₁ vs₂ vs₃)
    (hf : f.Strict) (L : Lowering file f h body closing [] [] ts ts)
    (hin : ∀ c < f.blocks.size, (f.block c).insts = body c ++ closing c)
    (R : h.RewrittenTo (·.isolate file) g taken) (hc : i₀.isCopy = false)
    (hd : (vs₂.size ≤ d ∧ d < vs₃.size) ∨
      (i₀.Writes d ∧ ∀ x ∈ ds.flatMap (·.1), ¬ x.Writes d)) :
    (∀ x ∈ pre ++ post, ¬ x.Writes d) ∧ ∀ c, c ≠ b → ∀ x ∈ (g.block c).insts, ¬ x.Writes d := by
  have hr := Inst.freshRewriting_isolate (τ := τ) file
  have hrange := L.inRange hf hin
  have hbefore (x : Inst τ) (hx : x ∈ us.flatMap (·.1)) : ¬ x.Writes d := by
    intro hw
    obtain ⟨c, t, o, -, rfl, hlo, hhi⟩ := A.uses.copies hx
    rw [Inst.copyIn, Inst.writes_ofCopy] at hw
    rcases hd with ⟨hge, -⟩ | ⟨hold, -⟩
    · exact absurd (hw ▸ hhi) (Nat.not_lt.mpr hge)
    · exact absurd (A.old R hrange hold.mentions) (Nat.not_lt.mpr (hw ▸ hlo))
  obtain ⟨hafter, hout, helse⟩ : (∀ x ∈ ds.flatMap (·.1), ¬ x.Writes d) ∧
      (∀ x ∈ outA ++ outB, ¬ x.Writes d) ∧
      ∀ c, c ≠ b → ∀ x ∈ (g.block c).insts, ¬ x.Writes d := by
    rcases hd with ⟨hlo, hhi⟩ | ⟨hold, hafter⟩
    · have hge := A.uses.grows.size_le.trans hlo
      obtain ⟨hout, helse⟩ := A.segment.fresh R hr hrange hge hhi
      refine ⟨fun x hx hw => ?_, fun x hx hw => hout x hx hw.mentions,
        fun c hcb x hx hw => helse c hcb x hx hw.mentions⟩
      obtain ⟨c, t, o, ho, rfl, -⟩ := A.defs.copies hx
      rw [Inst.copyOut, Inst.writes_ofCopy] at hw
      have hlt := A.old R hrange (Inst.Writes.mentions ⟨o, ho, hw⟩)
      exact absurd hlt (Nat.not_lt.mpr hge)
    · obtain ⟨pre', post', hsplit, -⟩ := L.split hin A.segment.source hc
      have hlt := hf.inRange.lt (b := b) (by simp [hsplit]) hold.mentions
      have honce := L.writtenOnce hin hf.once hlt
      have hlt := hrange.lt (b := b) (by simp [A.segment.source]) hold.mentions
      exact ⟨hafter, A.segment.writes R hr hlt (honce.not_writes A.segment.source hold),
        fun c hcb => R.avoids hr hr.writes hlt
          (honce.not_writes_elsewhere A.segment.source hold hcb)⟩
  rw [List.forall_mem_append] at hout
  simp only [A.pre_eq, A.post_eq, List.forall_mem_append]
  exact ⟨⟨⟨hout.1, hbefore⟩, hafter, hout.2⟩, helse⟩

end

theorem Strict.tiedAt_legalize (hf : f.Strict) (hp : f.NoSelfReads)
    (L : Lowering file f h body closing [] [] ts ts)
    (hin : ∀ c < f.blocks.size, (f.block c).insts = body c ++ closing c)
    (R : h.RewrittenTo (·.isolate file) g taken) {b : Nat} {pre post : List (Inst τ)} {i : Inst τ}
    {d u : VReg} (hi : (g.block b).insts = pre ++ i :: post) (hc : i.isCopy = false)
    (ht : i.tie? = some (d, u)) : ∃ a j m, pre = a ++ j :: m ∧ g.TiedAt b a j m i post d u := by
  have hrange := L.inRange hf hin
  have hwrites := Inst.writes_of_tie? ht
  simp only [Inst.tie?, Option.bind_eq_bind, Option.bind_eq_some_iff, Option.pure_def,
    Option.some.injEq, Prod.mk.injEq] at ht
  obtain ⟨o, ho, k, hk, o', ho', rfl, rfl⟩ := ht
  obtain ⟨isA, i₀, isB, outA, outB, us, ds, vs₁, vs₂, vs₃, A⟩ := exists_isolatedAt R hi hc
  obtain ⟨-, -, a, j, m, hcut, hlink⟩ := A.link_use R hrange ho' (.inl hk)
  have hi₀ : i₀ ∈ h.insts := mem_insts (b := b) (by simp [A.segment.source])
  have hc₀ : i₀.isCopy = false := by
    rw [A.inst] at hc
    exact hc
  have hdef := A.head_def (L.nodup_defs hf hin hi₀) ho
  have hnot {x : Inst τ} (hx : x = i ∨ x ∈ us.flatMap (·.1)) : ¬ x.Reads o.vreg := by
    obtain ⟨pre', post', hsplit, -⟩ := L.split hin A.segment.source hc₀
    have hold : i₀ ∈ f.insts := MachFunction.mem_insts (b := b) (by simp [hsplit])
    exact A.not_reads R hrange (hp i₀ hold) (hdef.imp_right And.left) hx
  obtain ⟨honce, helse⟩ := A.once hf L hin R hc₀ hdef
  have hj : j.tie? = none ∧ ∀ v, j.Writes v → v = o'.vreg := by
    obtain ⟨c, t, o₁, -, rfl, -⟩ := A.uses.copies (x := j) (by simp [hcut])
    have hwritten := hlink.written
    simp only [Inst.copyIn, Inst.writes_ofCopy] at hwritten ⊢
    exact ⟨rfl, fun v hv => hv.symm.trans hwritten⟩
  have hpre : pre = outA ++ a ++ j :: m := by rw [A.pre_eq, hcut, List.append_assoc]
  exact ⟨outA ++ a, j, m, hpre, hlink, hj.1, hj.2, hwrites, hnot (.inl rfl),
    fun x hx => hnot (.inr (by simp [hcut, hx])), hpre ▸ honce, helse⟩

theorem Strict.tidy_legalize (hf : f.Strict) (hp : f.NoSelfReads) (file : RegFile) :
    ∃ g, f.legalize file = (.ok (), g) ∧ g.name = f.name ∧ g.Tidy := by
  obtain ⟨body, closing, ts, h, taken, hin, -, L, R, hrun⟩ := exists_legalize hf.phisFit file
  have hrange := L.inRange hf hin
  exact ⟨_, hrun, L.name, R.inRange (Inst.freshRewriting_isolate file) hrange,
    fun i hi => nodup_defs_of_isolate R hrange (fun _ => L.nodup_defs hf hin) hi,
    fun b pre i post d u hi hc ht => hf.tiedAt_legalize hp L hin R hi hc ht⟩

theorem PlainTies.untiedCopies (hp : f.PlainTies) (hf : f.Strict) (file : RegFile) :
    (f.legalize file).2.UntiedCopies := by
  obtain ⟨body, closing, ts, h, taken, hin, -, L, R, hrun⟩ := exists_legalize hf.phisFit file
  rw [hrun]
  intro i hi hc
  rcases ht : i.tie? with _ | ⟨d, u⟩
  · rfl
  · have hold := L.mem_insts_of_tie? hin (mem_insts_of_isolate R hi hc ht) ht
    exact absurd (hp.copies i hold hc) (Inst.tied_ne_none ht)

end

end MachFunction

namespace MachFunction

/-- Sends the ranges of `victims` through new slots of the frame. -/
def spillRanges (g : MachFunction τ) (file : RegFile) (cfg : AllocConfig) (victims : List VReg) :
    MachFunction τ :=
  { g.spill file ((g.ranges file cfg).2.slotMap g.spillSlots victims) with
    spillSlots := g.spillSlots + victims.length.toUInt32 }

/-- The functions that the rounds of allocation color: the legal form of `f`, and whatever spilling
makes of one of them. -/
inductive Round (file : RegFile) (cfg : AllocConfig) (f : MachFunction τ) : MachFunction τ → Prop
  | legal {g : MachFunction τ} : f.legalize file = (.ok (), g) → Round file cfg f g
  | spill {g : MachFunction τ} {victims : List VReg} : Round file cfg f g →
    (g.ranges file cfg).2.victims (g.ranges file cfg).2.color = .ok victims →
    Round file cfg f (g.spillRanges file cfg victims)

variable {file : RegFile} {cfg : AllocConfig} {f g : MachFunction τ}

theorem exists_rewrittenTo_spillRanges (g : MachFunction τ) (file : RegFile) (cfg : AllocConfig)
    (victims : List VReg) : ∃ taken, g.RewrittenTo
      (·.throughSlots file ((g.ranges file cfg).2.slotMap g.spillSlots victims))
      (g.spillRanges file cfg victims) taken := by
  obtain ⟨taken, R⟩ := g.exists_rewrittenTo
    (·.throughSlots file ((g.ranges file cfg).2.slotMap g.spillSlots victims))
  exact ⟨taken, R.first, R.last, R.block, R.frame⟩

theorem Tidy.spillRanges (hg : g.Tidy) (file : RegFile) (cfg : AllocConfig) (victims : List VReg) :
    (g.spillRanges file cfg victims).Tidy := by
  obtain ⟨taken, R⟩ := g.exists_rewrittenTo_spillRanges file cfg victims
  exact hg.spilled R

theorem UntiedCopies.spillRanges (hg : g.UntiedCopies) (file : RegFile) (cfg : AllocConfig)
    (victims : List VReg) : (g.spillRanges file cfg victims).UntiedCopies := by
  obtain ⟨taken, R⟩ := g.exists_rewrittenTo_spillRanges file cfg victims
  exact hg.spilled R

theorem Round.tidy (hf : f.Strict) (hp : f.PlainTies) (h : f.Round file cfg g) :
    g.name = f.name ∧ g.Tidy ∧ g.UntiedCopies := by
  induction h with
  | @legal g hg =>
    obtain ⟨g', hg', hname, htidy⟩ := hf.tidy_legalize hp.apart file
    obtain rfl : g' = g := (Prod.mk.inj (hg'.symm.trans hg)).2
    have huntied := hp.untiedCopies hf file
    rw [hg] at huntied
    exact ⟨hname, htidy, huntied⟩
  | spill _ _ ih =>
    exact ⟨ih.1, ih.2.1.spillRanges file cfg _, ih.2.2.spillRanges file cfg _⟩

theorem Round.allocateRounds (hf : f.Strict) (hp : f.PlainTies) (h : f.Round file cfg g) (k : Nat)
    (p : Progress) :
    f.Round file cfg (allocateRounds file cfg k p g).2 ∧
      ∀ e, (allocateRounds file cfg k p g).1 = .error e →
        e = f.allocFault (.noAssignment cfg.maxRounds) ∨ ∃ v, e = f.allocFault (.noVictim v) := by
  induction k generalizing p g with
  | zero =>
    refine ⟨h, fun e he => .inl ?_⟩
    rw [MachFunction.allocateRounds, allocFault, (h.tidy hf hp).1] at he
    exact (Except.error.inj he).symm
  | succ k ih =>
    obtain ⟨hname, htidy, huntied⟩ := h.tidy hf hp
    rw [MachFunction.allocateRounds]
    by_cases hc : (g.ranges file cfg).2.color.failed = []
    · have hok := htidy.verify_ok huntied file cfg hc
      simp only [hc, List.isEmpty_nil, if_true, hok]
      exact ⟨h, fun e he => nomatch he⟩
    · rw [← List.isEmpty_iff, Bool.not_eq_true] at hc
      simp only [hc, Bool.false_eq_true, if_false]
      rcases hv : (g.ranges file cfg).2.victims (g.ranges file cfg).2.color with v | victims
      · refine ⟨h, fun e he => .inr ⟨v, ?_⟩⟩
        simp only [allocFault, hname] at he
        exact (Except.error.inj he).symm
      · exact ih (h.spill hv) _

end MachFunction

/-- The check accepts what coloring finds. In a strict function let no copy be tied and no
instruction read what it writes. Whenever no range fails to get a register, in any round of
allocation, the check accepts the assignment; so allocation, which ends in such a round, fails only
for lack of a range to spill or of rounds. -/
theorem allocate_accepted (f : MachFunction τ) (file : RegFile) (cfg : AllocConfig) (hf : f.Strict)
    (hp : f.PlainTies) :
    (∀ g, f.Round file cfg g → (g.ranges file cfg).2.color.failed = [] →
      g.verify file ((g.ranges file cfg).2.assign file g.vregs (g.ranges file cfg).2.color) =
        .ok ()) ∧
    f.Round file cfg (f.allocate file cfg).2 ∧
    ∀ e, (f.allocate file cfg).1 = .error e →
      e = f.allocFault (.noAssignment cfg.maxRounds) ∨ ∃ v, e = f.allocFault (.noVictim v) := by
  refine ⟨fun g hg hc => ?_, ?_⟩
  · obtain ⟨-, htidy, huntied⟩ := hg.tidy hf hp
    exact htidy.verify_ok huntied file cfg hc
  obtain ⟨g, hg, -⟩ := hf.tidy_legalize hp.apart file
  rw [MachFunction.allocate, hg]
  exact MachFunction.Round.allocateRounds hf hp (.legal hg) cfg.maxRounds {}

theorem LiveRanges.turns_of_sorted {r : LiveRanges}
    (h : (r.roots.map r.turnKey).Pairwise fun a b => keyLe a b) : r.turns = r.roots := by
  rw [turns, List.mergeSort_of_pairwise h, List.map_map]
  exact List.map_id' _

/-- An addition in place of a value that is needed later. -/
def addInPlace : MachFunction Unit where
  name := "add"
  vregs := Array.replicate 3 { cls := .int }
  blocks := #[
    { insts := [
        { op := .const 1, defs := [⟨0, .range 0 4⟩] },
        { op := .const 2, defs := [⟨1, .range 0 4⟩] },
        { op := .alu .add, defs := [⟨2, .range 0 4⟩], uses := [⟨0, .range 0 4⟩, ⟨1, .range 0 4⟩]
          tied := some 0 },
        { op := .ret, uses := [⟨2, .range 0 4⟩, ⟨0, .range 0 4⟩] }] }]

theorem allocate_accepted_addInPlace :
    addInPlace.Strict ∧ addInPlace.PlainTies ∧
    ∃ g, addInPlace.Round fourRegisters {} g ∧ (g.ranges fourRegisters {}).2.color.failed = [] ∧
      g.verify fourRegisters ((g.ranges fourRegisters {}).2.assign fourRegisters g.vregs
        (g.ranges fourRegisters {}).2.color) = .ok () := by
  have hf : addInPlace.Strict :=
    ⟨by decide, ⟨by decide, by decide, by decide, by decide⟩, by decide⟩
  have hp : addInPlace.PlainTies := ⟨by decide, by decide⟩
  have hround : addInPlace.Round fourRegisters {} (addInPlace.legalize fourRegisters).2 :=
    .legal (Prod.ext (by decide +kernel) rfl)
  have hcolor : ((addInPlace.legalize fourRegisters).2.ranges fourRegisters {}).2.color.failed =
      [] := by
    rw [LiveRanges.color, LiveRanges.turns_of_sorted (by decide +kernel)]
    decide +kernel
  exact ⟨hf, hp, _, hround, hcolor,
    (allocate_accepted addInPlace fourRegisters {} hf hp).1 _ hround hcolor⟩

/-- Two copies of one value, both tied to it, that are needed at once. -/
def tiedCopies : MachFunction Unit where
  name := "tied"
  vregs := Array.replicate 3 { cls := .int }
  blocks := #[
    { insts := [
        { op := .const 1, defs := [⟨0, .range 0 4⟩] },
        { op := .copy .int, defs := [⟨1, .range 0 4⟩], uses := [⟨0, .range 0 4⟩], tied := some 0 },
        { op := .copy .int, defs := [⟨2, .range 0 4⟩], uses := [⟨0, .range 0 4⟩], tied := some 0 },
        { op := .ret, uses := [⟨1, .range 0 4⟩, ⟨2, .range 0 4⟩] }] }]

/-- A tied copy gets no register of its own in legal form, so the ranges of both copies are joined:
coloring succeeds, and the check rejects the assignment, although the function is strict, every
register is written before it is read, and copies have one def and one use. -/
theorem tiedCopies_rejected :
    tiedCopies.Strict ∧
    (∀ k < 4, ∀ u ∈ ((tiedCopies.block 0).insts.getD k default).uses,
      ∃ j < k, ((tiedCopies.block 0).insts.getD j default).Writes u.vreg) ∧
    (∀ i ∈ tiedCopies.insts, i.isCopy → i.defs.length = 1 ∧ i.uses.length = 1) ∧
    (∀ info ∈ tiedCopies.vregs.toList, info.unspillable = false) ∧
    ((tiedCopies.legalize fourRegisters).2.ranges fourRegisters {}).2.color.failed = [] ∧
    (tiedCopies.allocate fourRegisters {}).1 = .error (.internal .regalloc (some none)
      (.alloc "tied" (.overwritesLive 2 1 "a"))) := by
  have hf : tiedCopies.Strict :=
    ⟨by decide, ⟨by decide, by decide, by decide, by decide⟩, by decide⟩
  have herror : (tiedCopies.allocate fourRegisters {}).1.map (fun _ => ()) = .error
      (.internal .regalloc (some none) (.alloc "tied" (.overwritesLive 2 1 "a"))) := by
    decide +kernel
  refine ⟨hf, by decide, by decide, by decide, by decide +kernel, ?_⟩
  rcases hrun : (tiedCopies.allocate fourRegisters {}).1 with e | a
  · rw [hrun] at herror
    exact congrArg Except.error (Except.error.inj herror)
  · rw [hrun] at herror
    exact nomatch herror

end SeaNodes
