import SeaNodes.Proofs.Registers.Accepted
import SeaNodes.Proofs.Registers.SpillRun

namespace SeaNodes

variable {τ : Type}

namespace MachFunction

/-- Registers `d` and `u` have one definition each, that of `u` comes before those of `d`, and that
of `d` before what reads it. -/
structure CopyTie (f : MachFunction τ) (d u : VReg) : Prop where
  target : f.WrittenOnce d
  source : f.WrittenOnce u
  copied : f.DefinedBefore u (·.Writes d)
  read : f.DefinedBefore d (·.Reads d)

/-- There are no phis, and the ends of tied copies are defined in order. -/
structure CopyTies (f : MachFunction τ) : Prop where
  phis : ∀ b, (f.block b).phis = []
  ends : ∀ i ∈ f.insts, i.isCopy → ∀ d u, i.tie? = some (d, u) → f.CopyTie d u

section

variable {f : MachFunction τ} {b : Nat} {pre post : List (Inst τ)} {i : Inst τ} {d u v x y : VReg}

theorem writtenOnce_of_place (hi : (f.block b).insts = pre ++ i :: post)
    (hn : (i.defs.map (·.vreg)).Nodup) (hv : i.Writes v) (hhere : ∀ x ∈ pre ++ post, ¬ x.Writes v)
    (helse : ∀ c, c ≠ b → ∀ x ∈ (f.block c).insts, ¬ x.Writes v) : f.WrittenOnce v := by
  have hother (c : Nat) (hc : c ≠ b) : v ∉ definedIn (f.block c).insts := by
    rw [mem_definedIn]
    rintro ⟨x, hx, hxv⟩
    exact helse c hc x hx hxv
  have hnone (is : List (Inst τ)) (his : is ⊆ pre ++ post) : (definedIn is).count v = 0 := by
    rw [List.count_eq_zero, mem_definedIn]
    rintro ⟨x, hx, hxv⟩
    exact hhere x (his hx) hxv
  intro c hc
  obtain rfl : c = b := by
    by_contra hcb
    exact hother c hcb hc
  refine ⟨?_, hother⟩
  rw [hi, count_definedIn_append_cons, hnone pre (List.subset_append_left _ _),
    hnone post (List.subset_append_right _ _), List.count_eq_one_of_mem hn (List.mem_map.mpr hv)]

section

variable {a m : List (Inst τ)} {j : Inst τ} (h : f.Tidy) (T : f.TiedAt b a j m i post d u)

include h T

theorem TiedAt.target_once : f.WrittenOnce d := by
  have hi : (f.block b).insts = (a ++ j :: m) ++ i :: post := by simp [T.link.insts]
  exact writtenOnce_of_place hi (h.defs i (mem_insts (b := b) (by simp [hi]))) T.writes T.once
    T.elsewhere

theorem TiedAt.source_once : f.WrittenOnce u := by
  have hj : j ∈ f.insts := mem_insts (b := b) (by simp [T.link.insts])
  have hothers := T.link.others
  refine writtenOnce_of_place T.link.insts (h.defs j hj) T.link.written (fun x hx hw => ?_)
    fun c hc x hx hw => T.link.elsewhere c hc x hx hw.mentions
  simp only [List.mem_append, List.mem_cons] at hx hothers
  rcases hx with hx | hx | rfl | hx
  · exact hothers x (.inl (.inl hx)) hw.mentions
  · exact hothers x (.inl (.inr hx)) hw.mentions
  · exact T.link.notWritten hw
  · exact hothers x (.inr hx) hw.mentions

theorem TiedAt.definedBefore : f.DefinedBefore u (·.Writes d) := by
  have hi : (f.block b).insts = (a ++ j :: m) ++ i :: post := by simp [T.link.insts]
  intro c p x q hx hxd _
  obtain ⟨-, rfl, -⟩ := (T.target_once h).place hi T.writes hx hxd
  exact mem_definedIn.mpr ⟨j, by simp, T.link.written⟩

theorem TiedAt.not_tiedIn_source (w : VReg) : ¬ TiedIn f.insts u w := by
  rintro ⟨x, hx, ht⟩
  have hj : j ∈ f.insts := mem_insts (b := b) (by simp [T.link.insts])
  obtain rfl := (T.source_once h).eq hj hx T.link.written (Inst.writes_of_tie? ht)
  rw [T.untied] at ht
  cases ht

omit h in
theorem TiedAt.eq_of_tiedIn (hi : i.tie? = some (d, u)) {w : VReg} (hw : TiedIn f.insts w u) :
    w = d := by
  obtain ⟨x, hx, ht⟩ := hw
  obtain ⟨c, p, q, hsplit⟩ := exists_split hx
  obtain ⟨-, ⟨rfl, -⟩ | ⟨rfl, -⟩⟩ := T.link.cases hsplit (Inst.reads_of_tie? ht).mentions
  · rw [T.untied] at ht
    cases ht
  · exact (Prod.mk.inj (Option.some.inj (ht.symm.trans hi))).1

end

section

variable (h : f.Tidy) (hs : f.CopyTies)

include h hs

theorem CopyTies.once (ht : TiedIn f.insts d u) :
    f.WrittenOnce d ∧ f.WrittenOnce u ∧ f.DefinedBefore u (·.Writes d) := by
  obtain ⟨i, hi, htie⟩ := ht
  rcases hc : i.isCopy with _ | _
  · obtain ⟨b, a, j, m, post, T⟩ := h.exists_tiedAt hi hc htie
    exact ⟨T.target_once h, T.source_once h, T.definedBefore h⟩
  · have hends := hs.ends i hi hc d u htie
    exact ⟨hends.target, hends.source, hends.copied⟩

theorem CopyTies.source_unique {u' : VReg} (ht : TiedIn f.insts d u) (ht' : TiedIn f.insts d u') :
    u = u' := by
  have honce := (hs.once h ht).1
  obtain ⟨i, hi, htie⟩ := ht
  obtain ⟨i', hi', htie'⟩ := ht'
  obtain rfl := honce.eq hi hi' (Inst.writes_of_tie? htie) (Inst.writes_of_tie? htie')
  exact (Prod.mk.inj (Option.some.inj (htie.symm.trans htie'))).2

theorem CopyTies.exists_origin (hxy : TiedTogether f.insts x y) :
    ∃ z, Relation.ReflTransGen (TiedIn f.insts) x z ∧ Relation.ReflTransGen (TiedIn f.insts) y z := by
  have heqv := Relation.equivalence_join_reflTransGen (r := TiedIn f.insts)
    fun a b c hab hac => ⟨b, .refl, hs.source_unique h hab hac ▸ .refl⟩
  induction hxy with
  | rel x y ht => exact ⟨y, .single ht, .refl⟩
  | refl x => exact ⟨x, .refl, .refl⟩
  | symm x y _ ih => exact heqv.symm ih
  | trans x y z _ _ ih ih' => exact heqv.trans ih ih'

theorem CopyTies.bypassed (ht : TiedIn f.insts d u) (hb : f.Bypassed u b) : f.Bypassed d b := by
  have hphi (b : Nat) : d ∉ (f.block b).phis.map (·.dst) := by simp [hs.phis b]
  induction hb with
  | start => exact .start (hphi 0)
  | @next b t hb hinsts hsucc _ ih =>
    refine .next ih (fun hd => hinsts ?_) hsucc (hphi t)
    obtain ⟨x, hx, hxd⟩ := mem_definedIn.mp hd
    obtain ⟨p, q, hsplit⟩ := List.append_of_mem hx
    have hdef := (hs.once h ht).2.2 b p x q hsplit hxd hb
    rw [hsplit, definedIn_append]
    exact List.mem_append_left _ hdef

theorem CopyTies.undefined (hyx : Relation.ReflTransGen (TiedIn f.insts) y x)
    (hi : (f.block b).insts = pre ++ post) (hb : f.Bypassed x b) (hx : x ∉ definedIn pre) :
    f.Bypassed y b ∧ y ∉ definedIn pre := by
  induction hyx using Relation.ReflTransGen.head_induction_on with
  | refl => exact ⟨hb, hx⟩
  | @head y u ht _ ih =>
    obtain ⟨hbu, hu⟩ := ih
    refine ⟨hs.bypassed h ht hbu, fun hy => hu ?_⟩
    obtain ⟨k, hk, hky⟩ := mem_definedIn.mp hy
    obtain ⟨p, q, rfl⟩ := List.append_of_mem hk
    have hdef := (hs.once h ht).2.2 b p k (q ++ post) (by simp [hi]) hky hbu
    rw [definedIn_append]
    exact List.mem_append_left _ hdef

omit h in
theorem CopyTies.not_live (hv : f.DefinedBefore v (·.Reads v))
    (hi : (f.block b).insts = pre ++ post) (hb : f.Bypassed v b) (hpre : v ∉ definedIn pre) :
    ¬ f.LiveFrom v post b := by
  intro hlive
  induction hlive generalizing pre with
  | @use x rest b hreads => exact hpre (hv b pre x rest hi hreads hb)
  | @skip x rest b hwrites _ ih =>
    have hi' : (f.block b).insts = (pre ++ [x]) ++ rest := by simpa using hi
    refine ih hi' hb (notMem_definedIn_concat.mpr ⟨hpre, ?_⟩)
    rintro ⟨o, ho, hov⟩
    exact hwrites o ho hov
  | @leave b t hsucc _ ih =>
    have hi' : (f.block t).insts = [] ++ (f.block t).insts := rfl
    rw [List.append_nil] at hi
    exact ih hi' (.next hb (hi ▸ hpre) hsucc (by simp [hs.phis t])) List.not_mem_nil

/-- The instruction that defines a register does not write what is tied to it, and that is not live
after the instruction. -/
theorem CopyTies.not_needed (hb : f.Reached b) (hi : (f.block b).insts = pre ++ i :: post)
    (hx : i.Writes x) (hyx : Relation.TransGen (TiedIn f.insts) y x) :
    ¬ i.Writes y ∧ ¬ f.LiveFrom y post b := by
  obtain ⟨c, -, hcx⟩ := Relation.TransGen.tail'_iff.mp hyx
  obtain ⟨u, hyu, hux⟩ := Relation.TransGen.head'_iff.mp hyx
  have honce := (hs.once h hcx).2.1
  have hway := honce.bypassed hi hx hs.phis hb
  have hpre := (honce.notMem hi hx).1
  obtain ⟨hbu, hu⟩ := hs.undefined h hux hi hway hpre
  obtain ⟨hby, hy⟩ := hs.undefined h hyx.to_reflTransGen hi hway hpre
  have hnot : ¬ i.Writes y := fun hw => hu ((hs.once h hyu).2.2 b pre i post hi hw hbu)
  refine ⟨hnot, ?_⟩
  obtain ⟨k, hk, htie⟩ := hyu
  rcases hc : k.isCopy with _ | _
  case true =>
    have hi' : (f.block b).insts = (pre ++ [i]) ++ post := by simp [hi]
    exact hs.not_live (hs.ends k hk hc y u htie).read hi' hby
      (notMem_definedIn_concat.mpr ⟨hy, hnot⟩)
  case false =>
    obtain ⟨b', a, j, m, post', T⟩ := h.exists_tiedAt hk hc htie
    obtain rfl | ⟨w, hw, -⟩ := Relation.ReflTransGen.cases_head hux
    · obtain ⟨rfl, rfl, rfl, rfl⟩ := (T.source_once h).place T.link.insts T.link.written hi hx
      exact T.not_live m T.between
    · exact absurd hw (T.not_tiedIn_source h w)

/-- An instruction that is no tied copy keeps what it writes apart from everything that ties connect
with it. -/
theorem CopyTies.not_tiedTogether_of_writes (hi : (f.block b).insts = pre ++ i :: post)
    (hu : f.Untied b i) (hx : i.Writes x) (hne : y ≠ x) (hy : i.Writes y ∨ f.LiveFrom y post b) :
    ¬ TiedTogether f.insts x y := by
  intro hxy
  have hbelow : ¬ Relation.ReflTransGen (TiedIn f.insts) y x := by
    intro hyx
    rcases Relation.reflTransGen_iff_eq_or_transGen.mp hyx with heq | hyx
    · exact hne heq.symm
    · obtain ⟨hwrites, hlive⟩ := hs.not_needed h hu.1 hi hx hyx
      exact hy.elim hwrites hlive
  obtain ⟨z, hxz, hyz⟩ := hs.exists_origin h hxy
  obtain rfl | ⟨u, hxu, huz⟩ := Relation.ReflTransGen.cases_head hxz
  · exact hbelow hyz
  -- the instruction is tied, and no copy, so its source is where the chains end
  obtain ⟨k, hk, htie⟩ := hxu
  obtain rfl := (hs.once h ⟨k, hk, htie⟩).1.eq hk (mem_insts (b := b) (by simp [hi]))
    (Inst.writes_of_tie? htie) hx
  have hc : i.isCopy = false := by
    by_contra hc
    rw [hu.2 (by simpa using hc)] at htie
    cases htie
  obtain ⟨a, j, m, rfl, T⟩ := h.ties b pre i post x u hi hc htie
  obtain rfl | ⟨w, hw, -⟩ := Relation.ReflTransGen.cases_head huz
  swap
  · exact T.not_tiedIn_source h w hw
  obtain rfl | ⟨w, hyw, hwu⟩ := Relation.ReflTransGen.cases_tail hyz
  · rcases hy with hw | hlive
    · exact T.link.notWritten hw
    · obtain ⟨-, m₁, m₂, -, heq⟩ :=
        T.link.live hlive (p := a ++ j :: m ++ [i]) (by simpa using T.link.insts)
      have hlen := congrArg List.length heq
      simp at hlen
      omega
  · exact hbelow (T.eq_of_tiedIn htie hwu ▸ hyw)

theorem CopyTies.not_tiedTogether (hc : f.Clash f.Untied x y) : ¬ TiedTogether f.insts x y := by
  have hne := h.ne_of_clash hc
  cases hc with
  | live _ hu hi hd hx hl _ _ =>
    exact hs.not_tiedTogether_of_writes h hi hu ⟨_, hd, hx⟩ hne.symm (.inr hl)
  | defs _ hu hi hds ho hx hy =>
    exact hs.not_tiedTogether_of_writes h hi hu ⟨_, by simp [hds], hx⟩ hne.symm
      (.inl ⟨_, by simp [hds, ho], hy⟩)

end

end

section

variable {f g h : MachFunction τ} {file : RegFile} {slots : SlotMap} {d u v : VReg}

theorem CopyTie.rewritten {rewrite : Inst τ → FreshM (List (Inst τ))}
    {taken : Nat → Array VRegInfo} (H : f.CopyTie d u) (hr : FreshRewriting rewrite)
    (R : f.RewrittenTo rewrite g taken) (hd : d < f.vregs.size) (hu : u < f.vregs.size)
    (hkd : f.KeepsDefs rewrite d) (hku : f.KeepsDefs rewrite u) : g.CopyTie d u where
  target := hkd.writtenOnce hr R hd H.target
  source := hku.writtenOnce hr R hu H.source
  copied := hku.definedBefore hr R hu (fun hle hrun x hx hw =>
    (hr.writes hrun x hx d hw).resolve_right fun hnew =>
      absurd (hd.trans_le hle) (Nat.not_lt.mpr hnew.1)) H.copied
  read := hkd.definedBefore hr R hd (fun hle hrun x hx hw =>
    (hr.reads hrun x hx d hw).resolve_right fun hnew =>
      absurd (hd.trans_le hle) (Nat.not_lt.mpr hnew.1)) H.read

section

variable {body closing : Nat → List (Inst τ)} {ts : List PhiSite} {i : Inst τ}
  (L : Lowering file f h body closing [] [] ts ts) (hf : f.Strict)
  (hin : ∀ c < f.blocks.size, (f.block c).insts = body c ++ closing c) (hi : i ∈ f.insts)

include L hf hin hi

theorem Lowering.copied (hssa : f.Ssa) (hw : i.Writes d) (hr : i.Reads u) :
    h.DefinedBefore u (·.Writes d) := by
  obtain ⟨b, hib⟩ := mem_insts_iff.mp hi
  have hd : d < f.vregs.size := hf.inRange.lt hib hw.mentions
  have hcopied : f.DefinedBefore u (·.Writes d) := by
    intro c p x q hx hxd hb
    have hxi := (writtenOnce_of_nodup hf.once d).eq hi
      (MachFunction.mem_insts (b := c) (by simp [hx])) hw hxd
    exact hssa.definedBefore u c p x q hx (hxi ▸ hr) hb
  refine L.definedBefore hin (hf.inRange.lt hib hr.mentions) hcopied (fun p hp hpd => ?_)
    fun c _ x hx hxd _ => absurd (mem_definedIn.mpr ⟨x, hx, hxd⟩) (L.notMem_tails hd c)
  have hphi : d ∈ (f.block p.block).phis.map (·.dst) :=
    List.mem_map.mpr ⟨p.phi, L.mem_phis hp, (Inst.writes_ofCopy file).mp hpd⟩
  have hinsts : d ∈ definedIn (f.block b).insts := mem_definedIn.mpr ⟨i, hib, hw⟩
  have hb := eq_of_mem_definitions hf.once (List.mem_append_right _ hinsts)
    (List.mem_append_left _ hphi)
  exact List.disjoint_of_nodup_append (nodup_block hf.once b) (hb ▸ hphi) hinsts

theorem Lowering.copy_read (hssa : f.Ssa) (hends : ∀ c < f.blocks.size, Ends (body c) (closing c))
    (hc : i.isCopy) (hw : i.Writes d) : h.DefinedBefore d (·.Reads d) := by
  obtain ⟨b, hib⟩ := mem_insts_iff.mp hi
  have hd : d < f.vregs.size := hf.inRange.lt hib hw.mentions
  refine L.definedBefore hin hd (hssa.definedBefore d) (fun p hp hr => ?_)
    fun c hlt x hx hr hb => ?_
  · have htemp : p.temp = d := (Inst.reads_ofCopy file).mp hr
    exact absurd hd (Nat.not_lt.mpr (htemp ▸ (L.temps p hp).1))
  · obtain ⟨p, hp, hx⟩ := List.mem_flatMap.mp hx
    obtain ⟨a, ha, rfl⟩ := PhiSite.mem_tails.mp hx
    obtain rfl := (Inst.reads_ofCopy file).mp hr
    obtain ⟨k, hk⟩ := List.mem_iff_getElem?.mp ha
    rw [List.getElem?_zip_eq_some] at hk
    have hdef := (hssa.args p.block p.phi (L.mem_phis hp) k c a hk.1 hk.2).mem_definedIn hb
    rw [hin c hlt, definedIn_append, List.mem_append] at hdef
    refine hdef.resolve_right fun hclose => ?_
    obtain ⟨z, hz, hza⟩ := mem_definedIn.mp hclose
    have hzc : z ∈ (f.block c).insts := hin c hlt ▸ List.mem_append_right _ hz
    obtain rfl := (writtenOnce_of_nodup hf.once a).eq hi (MachFunction.mem_insts hzc) hw hza
    exact absurd (hc.symm.trans ((hends c hlt).isCopy_eq_false hz)) Bool.true_eq_false.mp

theorem Lowering.copyTie (hssa : f.Ssa) (hends : ∀ c < f.blocks.size, Ends (body c) (closing c))
    (hc : i.isCopy) (ht : i.tie? = some (d, u)) : h.CopyTie d u := by
  have hw := Inst.writes_of_tie? ht
  have hr := Inst.reads_of_tie? ht
  obtain ⟨b, hib⟩ := mem_insts_iff.mp hi
  exact ⟨L.writtenOnce hin hf.once (hf.inRange.lt hib hw.mentions),
    L.writtenOnce hin hf.once (hf.inRange.lt hib hr.mentions), L.copied hf hin hi hssa hw hr,
    L.copy_read hf hin hi hssa hends hc hw⟩

end

theorem Ssa.copyTies_legalize (hssa : f.Ssa) (hf : f.Strict) (file : RegFile) :
    (f.legalize file).2.CopyTies := by
  obtain ⟨body, closing, ts, h, taken, hin, hends, L, R, hrun⟩ := exists_legalize hf.phisFit file
  rw [hrun]
  refine ⟨fun b => ?_, fun i hi hc d u ht => ?_⟩
  · rw [R.frame b]
    exact (L.phis b).trans (if_neg List.not_mem_nil)
  · have hih := mem_insts_of_isolate R hi hc ht
    have hif := L.mem_insts_of_tie? hin hih ht
    have hlt {v : VReg} (hv : i.Mentions v) : v < h.vregs.size := by
      obtain ⟨o, ho, rfl⟩ := hv
      exact L.inRange hf hin i hih o ho
    exact (L.copyTie hf hin hif hssa hends hc ht).rewritten (Inst.freshRewriting_isolate file) R
      (hlt (Inst.writes_of_tie? ht).mentions) (hlt (Inst.reads_of_tie? ht).mentions)
      (h.keepsDefs_isolate file d) (h.keepsDefs_isolate file u)

theorem PlainCopies.keepsDefs_throughSlots (hcopy : f.PlainCopies) (file : RegFile)
    (hv : slots.get v = none) : f.KeepsDefs (·.throughSlots file slots) v := by
  intro i hi vs seg vs' hlt h
  rcases hc : i.isSlotCopy slots with _ | _
  case true =>
    have hop := Inst.isCopy_of_isSlotCopy hc
    obtain ⟨o, o', hd, hu⟩ := hcopy i hi hop
    have hsome := ((Inst.isSlotCopy_iff hop hd hu).mp hc).1
    have hne : o.vreg ≠ v := by
      rintro rfl
      simp [hv] at hsome
    rw [Inst.throughSlots_run_slotCopy file slots i hc] at h
    rw [← (Prod.mk.inj h).1, hd, List.map_singleton, List.count_singleton, definedIn_nil,
      List.count_nil, if_neg (by simpa using hne)]
  case false =>
    obtain ⟨uses, loads, ds, vs₁, hu, hd, rfl⟩ := Inst.throughSlots_run file slots i hc h
    have hloads : (definedIn loads).count v = 0 := by
      rw [List.count_eq_zero, mem_definedIn]
      rintro ⟨x, hx, hw⟩
      exact absurd ((hu.isLoad x hx).range hw).1 (Nat.not_le.mpr hlt)
    rw [count_definedIn_append_cons, hloads, Nat.zero_add, List.map_map]
    refine hd.count_defs (fun c k t o hmove => ?_) (hlt.trans_le hu.grows.size_le)
    have hne : o.vreg ≠ v := by
      rintro rfl
      simp [Inst.SpillsDef, hv] at hmove
    rw [List.count_singleton, if_neg (by simpa using hne)]
    rfl

theorem PlainCopies.exists_tie (hcopy : f.PlainCopies)
    (htogether : ∀ d u, TiedIn f.insts d u → slots.get d = slots.get u)
    {taken : Nat → Array VRegInfo} (R : f.RewrittenTo (·.throughSlots file slots) g taken)
    {i : Inst τ} (hi : i ∈ g.insts) (hc : i.isCopy) (ht : i.tie? = some (d, u)) :
    ∃ i₀ ∈ f.insts, i₀.isCopy ∧ i₀.tie? = some (d, u) ∧ slots.get d = none ∧
      slots.get u = none := by
  obtain ⟨b, pre, post, hsplit⟩ := exists_split hi
  obtain ⟨isA, i₀, isB, outA, outB, loads, ds, vs₁, vs₂, vs₃, L⟩ :=
    exists_spilledAt R hsplit (Inst.tied_ne_none ht)
  obtain ⟨d₀, u₀, ht₀, hd, hu⟩ := L.tie ht
  have hi₀ : i₀ ∈ f.insts := mem_insts (b := b) (by simp [L.segment.source])
  have hc₀ : i₀.isCopy := L.isCopy_eq ▸ hc
  have hslot := htogether d₀ u₀ ⟨i₀, hi₀, ht₀⟩
  have hnone : slots.get d₀ = none := by
    obtain ⟨o, o', ho, ho'⟩ := hcopy i₀ hi₀ hc₀
    obtain ⟨rfl, rfl⟩ := Inst.ends_of_tie? ho ho' ht₀
    by_contra hsome
    have hdrop := (Inst.isSlotCopy_iff hc₀ ho ho').mpr
      ⟨Option.isSome_iff_ne_none.mpr hsome, hslot⟩
    exact absurd (L.kept.symm.trans hdrop) Bool.false_ne_true
  obtain rfl : d = d₀ := hd.resolve_right fun h => by simp [hnone] at h
  obtain ⟨rfl, hnone'⟩ := hu.resolve_right fun h => by simp [← hslot, hnone] at h
  exact ⟨i₀, hi₀, hc₀, ht₀, hnone, hnone'⟩

theorem CopyTies.spilled (hs : f.CopyTies) (hr : f.InRange) (hcopy : f.PlainCopies)
    (htogether : ∀ d u, TiedIn f.insts d u → slots.get d = slots.get u)
    {taken : Nat → Array VRegInfo} (R : f.RewrittenTo (·.throughSlots file slots) g taken) :
    g.CopyTies := by
  refine ⟨fun b => ?_, fun i hi hc d u ht => ?_⟩
  · rw [R.frame b]
    exact hs.phis b
  · obtain ⟨i₀, hi₀, hc₀, ht₀, hd, hu⟩ := hcopy.exists_tie htogether R hi hc ht
    have hlt {v : VReg} (hv : i₀.Mentions v) : v < f.vregs.size := by
      obtain ⟨o, ho, rfl⟩ := hv
      exact hr i₀ hi₀ o ho
    exact (hs.ends i₀ hi₀ hc₀ d u ht₀).rewritten (Inst.freshRewriting_throughSlots file slots) R
      (hlt (Inst.writes_of_tie? ht₀).mentions) (hlt (Inst.reads_of_tie? ht₀).mentions)
      (hcopy.keepsDefs_throughSlots file hd) (hcopy.keepsDefs_throughSlots file hu)

end

end MachFunction

end SeaNodes
