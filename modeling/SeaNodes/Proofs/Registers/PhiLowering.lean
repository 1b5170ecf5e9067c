import SeaNodes.Proofs.Registers.Isolation

namespace SeaNodes

variable {τ α : Type}

/-- `z` is the instruction that ends a block, if there is one, and `a` is what comes before. -/
structure Ends (a z : List (Inst τ)) : Prop where
  closing : z = [] ∨ ∃ i, z = [i] ∧ i.op.isTerminator
  open_of_nil : z = [] → ∀ i, a.getLast? = some i → i.op.isTerminator = false

theorem exists_ends (is : List (Inst τ)) : ∃ a z, is = a ++ z ∧ Ends a z := by
  rcases List.eq_nil_or_concat is with rfl | ⟨a, i, rfl⟩
  · exact ⟨[], [], rfl, .inl rfl, by simp⟩
  · rcases hi : i.op.isTerminator with _ | _
    · refine ⟨a ++ [i], [], by simp, .inl rfl, fun _ j hj => ?_⟩
      rw [List.getLast?_concat, Option.some.injEq] at hj
      rw [← hj, hi]
    · exact ⟨a, [i], by simp, .inr ⟨i, rfl, hi⟩, by simp⟩

theorem Ends.isCopy_eq_false {a z : List (Inst τ)} (h : Ends a z) {i : Inst τ} (hi : i ∈ z) :
    i.isCopy = false := by
  rcases h.closing with rfl | ⟨j, rfl, hj⟩
  · exact absurd hi List.not_mem_nil
  · rw [List.mem_singleton.mp hi, Inst.isCopy]
    cases hop : j.op with
    | copy c =>
      rw [hop] at hj
      cases hj
    | _ => rfl

theorem Ends.insertAtEnd {a z : List (Inst τ)} (h : Ends a z) {b : MachBlock τ}
    (hb : b.insts = a ++ z) (new : List (Inst τ)) :
    b.insertAtEnd new = { b with insts := a ++ new ++ z } := by
  rcases h.closing with rfl | ⟨i, rfl, hi⟩
  · rw [List.append_nil] at hb
    rw [MachBlock.insertAtEnd, hb]
    rcases hl : a.getLast? with _ | i
    · rw [List.getLast?_eq_none_iff] at hl
      simp [hl]
    · simp [h.open_of_nil rfl i hl]
  · simp [MachBlock.insertAtEnd, hb, hi]

theorem Ends.append_left {a z : List (Inst τ)} (h : Ends a z) {new : List (Inst τ)}
    (hn : ∀ i ∈ new, i.op.isTerminator = false) : Ends (new ++ a) z := by
  refine ⟨h.closing, fun hz i hi => ?_⟩
  rw [List.getLast?_append] at hi
  rcases ha : a.getLast? with _ | j
  · rw [ha, Option.none_or] at hi
    exact hn i (List.mem_of_getLast? hi)
  · rw [ha, Option.some_or, Option.some.injEq] at hi
    exact hi ▸ h.open_of_nil hz j ha

theorem Ends.append_right {a z : List (Inst τ)} (h : Ends a z) (new : List (Inst τ))
    (hn : ∀ i ∈ new, i.op.isTerminator = false) : Ends (a ++ new) z := by
  refine ⟨h.closing, fun hz i hi => ?_⟩
  rw [List.getLast?_append] at hi
  rcases hl : new.getLast? with _ | j
  · rw [hl, Option.none_or] at hi
    exact h.open_of_nil hz i hi
  · rw [hl, Option.some_or, Option.some.injEq] at hi
    exact hi ▸ hn j (List.mem_of_getLast? hl)

theorem MachFunction.block_modifyBlock (f : MachFunction τ) (b c : Nat)
    (g : MachBlock τ → MachBlock τ) : (f.modifyBlock b g).block c =
      if b = c ∧ b < f.blocks.size then g (f.block c) else f.block c :=
  getD_modify f.blocks b c g default

@[simp] theorem MachFunction.size_modifyBlock (f : MachFunction τ) (b : Nat)
    (g : MachBlock τ → MachBlock τ) : (f.modifyBlock b g).blocks.size = f.blocks.size := by
  simp [modifyBlock]

/-- A phi of a block, with the register and the class of its copies. -/
structure PhiSite where
  block : Nat
  phi : Phi
  cls : RegClass
  temp : VReg

namespace PhiSite

/-- The copy at the start of the block. -/
def head (file : RegFile) (p : PhiSite) : Inst τ :=
  .ofCopy file p.cls p.phi.node p.phi.dst p.temp

def tails (file : RegFile) (f : MachFunction τ) (c : Nat) (p : PhiSite) : List (Inst τ) :=
  ((f.block p.block).preds.zip p.phi.args).filterMap fun (q, a) =>
    if q = c then some (.ofCopy file p.cls p.phi.node p.temp a) else none

theorem mem_tails {file : RegFile} {f : MachFunction τ} {c : Nat} {p : PhiSite} {x : Inst τ} :
    x ∈ p.tails file f c ↔ ∃ a, (c, a) ∈ (f.block p.block).preds.zip p.phi.args ∧
      x = .ofCopy file p.cls p.phi.node p.temp a := by
  simp only [tails, List.mem_filterMap, Prod.exists]
  constructor
  · rintro ⟨q, a, hqa, hx⟩
    split_ifs at hx with hq
    exact ⟨a, hq ▸ hqa, (Option.some.inj hx).symm⟩
  · rintro ⟨a, ha, rfl⟩
    exact ⟨c, a, ha, if_pos rfl⟩

end PhiSite

theorem Ends.copies {file : RegFile} {f : MachFunction τ} {hs ts : List PhiSite}
    {a z : List (Inst τ)} (he : Ends a z) (c : Nat) :
    Ends ((hs.filter (·.block == c)).map (·.head file) ++ a ++ ts.flatMap (·.tails file f c))
      z := by
  apply Ends.append_right
  · apply he.append_left
    intro i hi
    obtain ⟨p, -, rfl⟩ := List.mem_map.mp hi
    rfl
  · intro i hi
    obtain ⟨p, -, hp⟩ := List.mem_flatMap.mp hi
    obtain ⟨a, -, rfl⟩ := PhiSite.mem_tails.mp hp
    rfl

namespace MachFunction

/-- `g` is `f` with the copies into the registers of `ts` and out of the registers of `hs`; the phis
of the blocks `todo` are still there, and the blocks `headless` have no copies at their start yet.
-/
structure Lowering (file : RegFile) (f g : MachFunction τ) (body closing : Nat → List (Inst τ))
    (todo headless : List Nat) (hs ts : List PhiSite) : Prop where
  name : g.name = f.name
  size : g.blocks.size = f.blocks.size
  grows : Extends f.vregs g.vregs
  temps : ∀ p ∈ ts, f.vregs.size ≤ p.temp ∧ p.temp < g.vregs.size
  nodup : (ts.map (·.temp)).Nodup
  insts : ∀ c < f.blocks.size, (g.block c).insts = (hs.filter (·.block == c)).map (·.head file) ++
    body c ++ ts.flatMap (·.tails file f c) ++ closing c
  preds : ∀ c, (g.block c).preds = (f.block c).preds
  succs : ∀ c, (g.block c).succs = (f.block c).succs
  phis : ∀ c, (g.block c).phis = if c ∈ todo then (f.block c).phis else []
  sites : ∀ c, (hs.filter (·.block == c)).map (·.phi) =
    if c ∈ headless then [] else (f.block c).phis

def insertAll (mk : VReg → Inst τ) (places : List (Nat × VReg)) (f : MachFunction τ) :
    MachFunction τ :=
  places.foldl (fun f (q, a) => f.modifyBlock q (·.insertAtEnd [mk a])) f

theorem insertAll_frame (mk : VReg → Inst τ) (places : List (Nat × VReg)) (f : MachFunction τ) :
    (f.insertAll mk places).blocks.size = f.blocks.size ∧
      (f.insertAll mk places).vregs = f.vregs ∧ (f.insertAll mk places).name = f.name := by
  induction places generalizing f with
  | nil => exact ⟨rfl, rfl, rfl⟩
  | cons p places ih =>
    obtain ⟨h1, h2, h3⟩ := ih (f.modifyBlock p.1 (·.insertAtEnd [mk p.2]))
    exact ⟨h1.trans (size_modifyBlock ..), h2, h3⟩

theorem block_insertAll (mk : VReg → Inst τ) (hmk : ∀ a, (mk a).op.isTerminator = false)
    (places : List (Nat × VReg)) {f : MachFunction τ} {c : Nat} (hc : c < f.blocks.size)
    {a z : List (Inst τ)} (hin : (f.block c).insts = a ++ z) (he : Ends a z) :
    (f.insertAll mk places).block c = { f.block c with
      insts := a ++ (places.filterMap fun (q, x) => if q = c then some (mk x) else none) ++
        z } := by
  induction places generalizing f a with
  | nil =>
    rw [List.filterMap_nil, List.append_nil, ← hin]
    rfl
  | cons p places ih =>
    obtain ⟨q, x⟩ := p
    have hstep := f.block_modifyBlock q c (·.insertAtEnd [mk x])
    change ((f.modifyBlock q (·.insertAtEnd [mk x])).insertAll mk places).block c = _
    by_cases hq : q = c
    · subst hq
      rw [if_pos ⟨rfl, hc⟩, he.insertAtEnd hin] at hstep
      have he' := he.append_right [mk x] (by simpa using hmk x)
      rw [ih (by simpa using hc) (congrArg MachBlock.insts hstep) he', hstep]
      simp
    · rw [if_neg fun h => hq h.1] at hstep
      rw [ih (by simpa using hc) (hstep ▸ hin) he, hstep]
      simp [hq]

theorem block_insertAll_of_le (mk : VReg → Inst τ) (places : List (Nat × VReg))
    {f : MachFunction τ} {c : Nat} (hc : f.blocks.size ≤ c) :
    (f.insertAll mk places).block c = f.block c := by
  rw [block_of_size_le hc, block_of_size_le]
  exact (f.insertAll_frame mk places).1 ▸ hc

section

variable {file : RegFile} {f g : MachFunction τ} {body closing : Nat → List (Inst τ)}
  {todo headless : List Nat} {hs ts : List PhiSite}

/-- One phi: its register is new, and the copies into it are at the ends of the predecessors. -/
theorem Lowering.site (h : Lowering file f g body closing todo headless hs ts)
    (he : ∀ c < f.blocks.size, Ends (body c) (closing c)) (b : Nat) (p : Phi) (cls : RegClass) :
    Lowering file f ((g.newVReg { cls := cls }).2.insertAll (.ofCopy file cls p.node g.vregs.size)
        ((f.block b).preds.zip p.args)) body closing todo headless hs
      (ts ++ [⟨b, p, cls, g.vregs.size⟩]) := by
  obtain ⟨hsize, hvregs, hname⟩ := (g.newVReg { cls := cls }).2.insertAll_frame
    (.ofCopy file cls p.node g.vregs.size) ((f.block b).preds.zip p.args)
  have hblock (c : Nat) (hc : c < f.blocks.size) :=
    block_insertAll (.ofCopy file cls p.node g.vregs.size) (fun _ => rfl)
      ((f.block b).preds.zip p.args) (f := (g.newVReg { cls := cls }).2) (c := c)
      (h.size.symm ▸ hc) (h.insts c hc) ((he c hc).copies c)
  have hframe (c : Nat) : ∃ is, ((g.newVReg { cls := cls }).2.insertAll
      (.ofCopy file cls p.node g.vregs.size) ((f.block b).preds.zip p.args)).block c =
        { g.block c with insts := is } := by
    by_cases hc : c < f.blocks.size
    · exact ⟨_, hblock c hc⟩
    · exact ⟨(g.block c).insts, block_insertAll_of_le _ _ (h.size ▸ Nat.le_of_not_lt hc)⟩
  constructor
  case name => exact hname.trans h.name
  case size => exact hsize.trans h.size
  case grows => exact hvregs ▸ h.grows.trans (.push _ _)
  case temps =>
    intro q hq
    rw [hvregs]
    change _ ∧ _ < (g.vregs.push { cls := cls }).size
    rw [Array.size_push]
    rcases List.mem_append.mp hq with hq | hq
    · exact ⟨(h.temps q hq).1, Nat.lt_succ_of_lt (h.temps q hq).2⟩
    · rw [List.mem_singleton.mp hq]
      exact ⟨h.grows.size_le, Nat.lt_succ_self _⟩
  case nodup =>
    rw [List.map_append, List.nodup_append']
    refine ⟨h.nodup, List.nodup_singleton _, fun t ht hmem => ?_⟩
    obtain ⟨q, hq, rfl⟩ := List.mem_map.mp ht
    exact absurd (List.mem_singleton.mp hmem) (Nat.ne_of_lt (h.temps q hq).2)
  case insts =>
    intro c hc
    rw [hblock c hc]
    simp [PhiSite.tails]
  case preds =>
    intro c
    obtain ⟨is, his⟩ := hframe c
    exact his ▸ h.preds c
  case succs =>
    intro c
    obtain ⟨is, his⟩ := hframe c
    exact his ▸ h.succs c
  case phis =>
    intro c
    obtain ⟨is, his⟩ := hframe c
    exact his ▸ h.phis c
  case sites => exact h.sites

theorem lowerPhis_cons (g : MachFunction τ) (b : Nat) (preds : List Nat) (p : Phi) (ps : List Phi)
    (hp : p.args.length = preds.length) {heads : List (Inst τ)} {g' : MachFunction τ}
    (h : ((g.newVReg { cls := g.classOf p.dst }).2.insertAll
      (.ofCopy file (g.classOf p.dst) p.node g.vregs.size) (preds.zip p.args)).lowerPhis file b
        preds ps = (.ok heads, g')) : g.lowerPhis file b preds (p :: ps) =
      (.ok (.ofCopy file (g.classOf p.dst) p.node p.dst g.vregs.size :: heads), g') := by
  rw [lowerPhis, if_neg (not_not_intro hp)]
  have hcons : ∀ r : Except Fault (List (Inst τ)) × MachFunction τ, r = (.ok heads, g') →
      (r.1.map (.ofCopy file (g.classOf p.dst) p.node p.dst g.vregs.size :: ·), r.2) =
        (.ok (.ofCopy file (g.classOf p.dst) p.node p.dst g.vregs.size :: heads), g') := by
    rintro _ rfl
    rfl
  exact hcons _ h

theorem Lowering.lowerPhis (h : Lowering file f g body closing todo headless hs ts)
    (he : ∀ c < f.blocks.size, Ends (body c) (closing c)) (b : Nat) (ps : List Phi)
    (hps : ∀ p ∈ ps, p.args.length = (f.block b).preds.length) :
    ∃ sites g', g.lowerPhis file b (f.block b).preds ps = (.ok (sites.map (·.head file)), g') ∧
      sites.map (·.phi) = ps ∧ (∀ p ∈ sites, p.block = b) ∧
      Lowering file f g' body closing todo headless hs (ts ++ sites) := by
  induction ps generalizing g ts with
  | nil => exact ⟨[], g, rfl, rfl, by simp, by simpa using h⟩
  | cons p ps ih =>
    rw [List.forall_mem_cons] at hps
    obtain ⟨sites, g', hrun, hphi, hblock, h'⟩ := ih (h.site he b p (g.classOf p.dst)) hps.2
    refine ⟨⟨b, p, g.classOf p.dst, g.vregs.size⟩ :: sites, g', ?_, by simp [hphi],
      List.forall_mem_cons.mpr ⟨rfl, hblock⟩, by simpa using h'⟩
    exact lowerPhis_cons g b _ p ps hps.1 hrun

theorem Lowering.clear {b : Nat} (h : Lowering file f g body closing (b :: todo) headless hs ts)
    (hb : b ∉ todo) (hlt : b < f.blocks.size) :
    Lowering file f (g.modifyBlock b ({ · with phis := [] })) body closing todo headless hs ts := by
  have hblock (c : Nat) := g.block_modifyBlock b c ({ · with phis := [] })
  refine ⟨h.name, (size_modifyBlock ..).trans h.size, h.grows, h.temps, h.nodup, fun c hc => ?_,
    fun c => ?_, fun c => ?_, fun c => ?_, h.sites⟩
  · rw [hblock, ← h.insts c hc]
    split <;> rfl
  · rw [hblock, ← h.preds c]
    split <;> rfl
  · rw [hblock, ← h.succs c]
    split <;> rfl
  · rw [hblock]
    by_cases hc : b = c
    · subst hc
      rw [if_pos ⟨rfl, h.size ▸ hlt⟩, if_neg hb]
    · rw [if_neg fun h => hc h.1, h.phis]
      simp only [List.mem_cons, Ne.symm hc, false_or]

theorem Lowering.addHeads {b : Nat} {sites : List PhiSite}
    (h : Lowering file f g body closing todo (b :: headless) hs ts) (hb : b ∉ headless)
    (hlt : b < f.blocks.size) (hblocks : ∀ p ∈ sites, p.block = b)
    (hphi : sites.map (·.phi) = (f.block b).phis) :
    Lowering file f
      (g.modifyBlock b fun B => { B with insts := sites.map (·.head file) ++ B.insts })
      body closing todo headless (hs ++ sites) ts := by
  have hblock (c : Nat) := g.block_modifyBlock b c
    fun B => { B with insts := sites.map (·.head file) ++ B.insts }
  have hnone : hs.filter (·.block == b) = [] := by
    have hsites := h.sites b
    rw [if_pos List.mem_cons_self] at hsites
    exact List.map_eq_nil_iff.mp hsites
  have hself : (hs ++ sites).filter (·.block == b) = sites := by
    rw [List.filter_append, hnone, List.nil_append, List.filter_eq_self]
    exact fun p hp => by simpa using hblocks p hp
  have hother (c : Nat) (hc : b ≠ c) : (hs ++ sites).filter (·.block == c) =
      hs.filter (·.block == c) := by
    rw [List.filter_append, List.append_right_eq_self]
    exact List.filter_eq_nil_iff.mpr fun p hp => by simpa [hblocks p hp] using hc
  constructor
  case name => exact h.name
  case size => exact (size_modifyBlock ..).trans h.size
  case grows => exact h.grows
  case temps => exact h.temps
  case nodup => exact h.nodup
  case insts =>
    intro c hc
    rw [hblock]
    by_cases hbc : b = c
    · subst hbc
      rw [if_pos ⟨rfl, h.size ▸ hlt⟩, hself, h.insts b hc, hnone]
      simp
    · rw [if_neg fun h => hbc h.1, hother c hbc, h.insts c hc]
  case preds =>
    intro c
    rw [hblock, ← h.preds c]
    split <;> rfl
  case succs =>
    intro c
    rw [hblock, ← h.succs c]
    split <;> rfl
  case phis =>
    intro c
    rw [hblock, ← h.phis c]
    split <;> rfl
  case sites =>
    intro c
    by_cases hbc : b = c
    · subst hbc
      rw [hself, if_neg hb, hphi]
    · rw [hother c hbc, h.sites]
      simp only [List.mem_cons, Ne.symm hbc, false_or]

theorem Lowering.lowerAllPhis (he : ∀ c < f.blocks.size, Ends (body c) (closing c))
    (hps : ∀ b, ∀ p ∈ (f.block b).phis, p.args.length = (f.block b).preds.length)
    (h : Lowering file f g body closing todo todo ts ts) (hn : todo.Nodup)
    (hlt : ∀ b ∈ todo, b < f.blocks.size) :
    ∃ sites g', g.lowerAllPhis file todo = (.ok (), g') ∧
      Lowering file f g' body closing [] [] sites sites := by
  induction todo generalizing g ts with
  | nil => exact ⟨ts, g, rfl, h⟩
  | cons b todo ih =>
    rw [List.forall_mem_cons] at hlt
    rw [List.nodup_cons] at hn
    have hphis : (g.block b).phis = (f.block b).phis := (h.phis b).trans (if_pos List.mem_cons_self)
    obtain ⟨sites, g', hrun, hphi, hblocks, h'⟩ :=
      (h.clear hn.1 hlt.1).lowerPhis he b (f.block b).phis (hps b)
    obtain ⟨sites', g'', hrest, hdone⟩ :=
      ih (h'.addHeads hn.1 hlt.1 hblocks hphi) hn.2 hlt.2
    refine ⟨sites', g'', ?_, hdone⟩
    have hone : g.lowerBlockPhis file b = (.ok (), g'.modifyBlock b fun B =>
        { B with insts := sites.map (·.head file) ++ B.insts }) := by
      rw [lowerBlockPhis, h.preds, hphis]
      simp only [hrun]
    rw [MachFunction.lowerAllPhis, hone]
    exact hrest

theorem Lowering.initial (file : RegFile) {f : MachFunction τ}
    (hin : ∀ c < f.blocks.size, (f.block c).insts = body c ++ closing c) :
    Lowering file f f body closing (List.range f.blocks.size) (List.range f.blocks.size) [] [] := by
  have hout (c : Nat) (hc : c ∉ List.range f.blocks.size) : (f.block c).phis = [] := by
    rw [block_of_size_le (by simpa using hc)]
    rfl
  refine ⟨rfl, rfl, .refl _, by simp, by simp, fun c hc => by simp [hin c hc], fun _ => rfl,
    fun _ => rfl, fun c => ?_, fun c => ?_⟩
  · split_ifs with hc
    · rfl
    · exact hout c hc
  · split_ifs with hc
    · rfl
    · exact (hout c hc).symm

/-- Every instruction is a copy out of a new register, an old instruction of the block, or a copy
into a new register. -/
theorem Lowering.mem_insts (h : Lowering file f g body closing todo headless hs ts)
    (hin : ∀ c < f.blocks.size, (f.block c).insts = body c ++ closing c) {c : Nat} {i : Inst τ}
    (hi : i ∈ (g.block c).insts) : (∃ p ∈ hs, i = p.head file) ∨ i ∈ (f.block c).insts ∨
      ∃ p ∈ ts, ∃ a ∈ p.phi.args, i = .ofCopy file p.cls p.phi.node p.temp a := by
  have hc : c < f.blocks.size := h.size ▸ lt_of_mem_insts hi
  rw [h.insts c hc] at hi
  simp only [List.mem_append, List.mem_map, List.mem_flatMap] at hi
  rcases hi with ((⟨p, hp, rfl⟩ | hi) | ⟨p, hp, hi⟩) | hi
  · exact .inl ⟨p, (List.mem_filter.mp hp).1, rfl⟩
  · exact .inr (.inl (hin c hc ▸ List.mem_append_left _ hi))
  · obtain ⟨a, ha, rfl⟩ := PhiSite.mem_tails.mp hi
    exact .inr (.inr ⟨p, hp, a, (List.of_mem_zip ha).2, rfl⟩)
  · exact .inr (.inl (hin c hc ▸ List.mem_append_right _ hi))

theorem Lowering.mem_phis (h : Lowering file f g body closing todo [] hs ts) {p : PhiSite}
    (hp : p ∈ hs) : p.phi ∈ (f.block p.block).phis := by
  have hsites := h.sites p.block
  rw [if_neg List.not_mem_nil] at hsites
  rw [← hsites]
  exact List.mem_map_of_mem (List.mem_filter.mpr ⟨hp, by simp⟩)

end

end MachFunction

theorem traceInsts_congr {is : List (Inst τ)} {n : Nat}
    (his : ∀ i ∈ is, ∀ v, i.Mentions v → v < n) (sem : OpSem τ α) {s s' : VReg → α}
    (hs : ∀ v, v < n → s' v = s v) : traceInsts sem is s' = traceInsts sem is s ∧
      ∀ v, v < n → runInsts sem is s' v = runInsts sem is s v := by
  induction is generalizing s s' with
  | nil => exact ⟨rfl, hs⟩
  | cons i is ih =>
    rw [List.forall_mem_cons] at his
    have hread (v : VReg) (hv : i.Reads v) : s' v = s v := hs v (his.1 v hv.mentions)
    obtain ⟨htrace, hrun⟩ := ih his.2 fun v hv => Inst.exec_congr hread sem (hs v hv)
    refine ⟨?_, hrun⟩
    rw [traceInsts, traceInsts, htrace, Inst.inputs_congr hread]

theorem runInsts_of_forall_not_writes {is : List (Inst τ)} {v : VReg}
    (h : ∀ i ∈ is, ¬ i.Writes v) (sem : OpSem τ α) (s : VReg → α) :
    runInsts sem is s v = s v := by
  induction is generalizing s with
  | nil => rfl
  | cons i is ih =>
    rw [List.forall_mem_cons] at h
    refine (ih h.2 (i.exec sem s)).trans (Inst.exec_of_forall_ne sem i s fun o ho he => ?_)
    exact h.1 ⟨o, ho, he⟩

theorem Inst.original_of_lt {i : Inst τ} {n : Nat} (hi : ∀ v, i.Mentions v → v < n) :
    i.original n = true := by
  simp only [original, Bool.not_eq_true', Bool.and_eq_false_iff, List.any_eq_false,
    decide_eq_true_eq, Nat.not_le]
  exact .inr fun o ho => hi o.vreg ⟨o, ho, rfl⟩

def Inst.SavesOld (file : RegFile) (n : Nat) (i : Inst τ) : Prop :=
  ∃ c node t a, i = .ofCopy file c node t a ∧ n ≤ t ∧ a < n

theorem runInsts_savesOld (file : RegFile) {is : List (Inst τ)} {n : Nat}
    (his : ∀ i ∈ is, i.SavesOld file n) (sem : OpSem τ α) (s : VReg → α) {t a : VReg}
    (hta : ∃ i ∈ is, i.copy? = some (t, a))
    (huniq : ∀ i ∈ is, ∀ a', i.copy? = some (t, a') → a' = a) : runInsts sem is s t = s a := by
  induction is generalizing s with
  | nil => simp at hta
  | cons i is ih =>
    rw [List.forall_mem_cons] at his huniq
    obtain ⟨⟨c, node, t', a', rfl, ht', ha'⟩, his⟩ := his
    by_cases hrest : ∃ i ∈ is, i.copy? = some (t, a)
    · refine (ih his _ hrest huniq.2).trans (Function.update_of_ne ?_ _ _)
      obtain ⟨j, hj, hcopy⟩ := hrest
      obtain ⟨_, _, t₁, a₁, rfl, -, ha₁⟩ := his j hj
      obtain ⟨rfl, rfl⟩ := Prod.mk.inj (Option.some.inj hcopy)
      exact Nat.ne_of_lt (ha₁.trans_le ht')
    · -- the first copy is the only one to the register
      obtain ⟨rfl, rfl⟩ : t' = t ∧ a' = a := by
        obtain ⟨j, hj, hcopy⟩ := hta
        rcases List.mem_cons.mp hj with rfl | hj
        · exact Prod.mk.inj (Option.some.inj hcopy)
        · exact absurd ⟨j, hj, hcopy⟩ hrest
      refine (runInsts_of_forall_not_writes (fun j hj hw => hrest ⟨j, hj, ?_⟩) sem _).trans
        (Function.update_self _ _ _)
      obtain ⟨c₁, node₁, t₁, a₁, rfl, -⟩ := his j hj
      obtain rfl := (Inst.writes_ofCopy file).mp hw
      exact congrArg (fun a => some (t₁, a)) (huniq.2 _ hj a₁ rfl)

theorem runInsts_heads (file : RegFile) {n k : Nat} {sites : List PhiSite}
    (hn : ∀ p ∈ sites, p.phi.dst < n ∧ n ≤ p.temp) (sem : OpSem τ α) {s₀ s s' : VReg → α}
    (hs : ∀ v, v < n → s' v = s v)
    (hval : ∀ p ∈ sites, ∃ a, p.phi.args[k]? = some a ∧ s' p.temp = s₀ a) :
    ∃ news, ((sites.map (·.phi)).mapM fun p => do return (p.dst, s₀ (← p.args[k]?))) = some news ∧
      ∀ v, v < n → runInsts sem (sites.map (·.head file)) s' v = writeAll s news v := by
  induction sites generalizing s s' with
  | nil => exact ⟨[], rfl, hs⟩
  | cons p sites ih =>
    rw [List.forall_mem_cons] at hn hval
    obtain ⟨a, ha, htemp⟩ := hval.1
    have hs' (v : VReg) (hv : v < n) : Function.update s' p.phi.dst (s' p.temp) v =
        Function.update s p.phi.dst (s₀ a) v := by
      by_cases hd : v = p.phi.dst
      · simp [hd, htemp]
      · rw [Function.update_of_ne hd, Function.update_of_ne hd, hs v hv]
    obtain ⟨news, hnews, hrun⟩ := ih hn.2 hs' fun q hq => by
      obtain ⟨a', ha', htemp'⟩ := hval.2 q hq
      have hne : q.temp ≠ p.phi.dst := Nat.ne_of_gt (hn.1.1.trans_le (hn.2 q hq).2)
      exact ⟨a', ha', (Function.update_of_ne hne _ _).trans htemp'⟩
    refine ⟨(p.phi.dst, s₀ a) :: news, ?_, hrun⟩
    rw [List.map_cons, List.mapM_cons, hnews, ha]
    rfl

namespace MachFunction

/-- The phis fit the edges between blocks, and use registers of the function. -/
structure PhisFit (f : MachFunction τ) : Prop where
  inRange : ∀ B ∈ f.blocks.toList, ∀ p ∈ B.phis,
    p.dst < f.vregs.size ∧ ∀ a ∈ p.args, a < f.vregs.size
  arity : ∀ B ∈ f.blocks.toList, ∀ p ∈ B.phis, p.args.length = B.preds.length
  preds : ∀ B ∈ f.blocks.toList, B.preds.Nodup
  edges : ∀ b < f.blocks.size, ∀ t ∈ (f.block b).succs, b ∈ (f.block t).preds

/-- An instruction that ends a block writes no register that a phi takes over from the block. -/
def EndsSparePhis (f : MachFunction τ) : Prop :=
  ∀ b < f.blocks.size, ∀ i ∈ (f.block b).insts.getLast?, i.op.isTerminator →
    ∀ B ∈ f.blocks.toList, ∀ p ∈ B.phis, ∀ a ∈ p.args, (b, a) ∈ B.preds.zip p.args → ¬ i.Writes a

theorem mem_blocks {f : MachFunction τ} {b : Nat} {p : Phi} (hp : p ∈ (f.block b).phis) :
    f.block b ∈ f.blocks.toList := by
  rw [block_eq_getElem (f.lt_of_mem MachBlock.phis rfl hp)]
  simp

theorem PhisFit.lt {f : MachFunction τ} (hf : f.PhisFit) {b : Nat} {p : Phi}
    (hp : p ∈ (f.block b).phis) : p.dst < f.vregs.size ∧ ∀ a ∈ p.args, a < f.vregs.size :=
  hf.inRange _ (mem_blocks hp) p hp

theorem PhisFit.exists_arg {f : MachFunction τ} (hf : f.PhisFit) {b t : Nat}
    (hb : b < f.blocks.size) (ht : t ∈ (f.block b).succs) {p : Phi} (hp : p ∈ (f.block t).phis) :
    ∃ k a, (f.block t).preds.idxOf? b = some k ∧ p.args[k]? = some a ∧
      (b, a) ∈ (f.block t).preds.zip p.args := by
  obtain ⟨k, hk⟩ : ∃ k, (f.block t).preds.idxOf? b = some k :=
    Option.isSome_iff_exists.mp (List.isSome_idxOf?.mpr (hf.edges b hb t ht))
  obtain ⟨hlt, hget, -⟩ := List.idxOf?_eq_some_iff.mp hk
  have hlt' : k < p.args.length := (hf.arity _ (mem_blocks hp) p hp).symm ▸ hlt
  refine ⟨k, p.args[k], hk, by simp, List.mem_iff_getElem?.mpr ⟨k, ?_⟩⟩
  exact List.getElem?_zip_eq_some.mpr ⟨by simp [hlt, hget], by simp⟩

/-- On entry to block `b` from `prev` the old registers agree, and the new ones hold what the phis
are about to read. -/
structure Ready (f : MachFunction τ) (ts : List PhiSite) (prev : Option Nat) (b : Nat)
    (s s' : VReg → α) : Prop where
  old : ∀ v, v < f.vregs.size → s' v = s v
  new : ∀ p ∈ ts, p.block = b → ∃ q k a, prev = some q ∧ (f.block b).preds.idxOf? q = some k ∧
    p.phi.args[k]? = some a ∧ s' p.temp = s a

section

variable {file : RegFile} {f g : MachFunction τ} {body closing : Nat → List (Inst τ)}
  {ts : List PhiSite} {prev : Option Nat} {b : Nat} {s s' : VReg → α}

theorem Lowering.enter (h : Lowering file f g body closing [] [] ts ts) (hf : f.PhisFit)
    (hr : f.Ready ts prev b s s') (sem : OpSem τ α) :
    ∃ s₁, (f.block b).enter prev s = some s₁ ∧ ∀ v, v < f.vregs.size →
      runInsts sem ((ts.filter (·.block == b)).map (·.head file)) s' v = s₁ v := by
  have hphis : (ts.filter (·.block == b)).map (·.phi) = (f.block b).phis :=
    (h.sites b).trans (if_neg List.not_mem_nil)
  have hmem (p : PhiSite) (hp : p ∈ ts.filter (·.block == b)) : p ∈ ts ∧ p.block = b := by
    simpa using hp
  rcases hsites : ts.filter (·.block == b) with _ | ⟨p₀, sites⟩
  · rw [hsites] at hphis
    exact ⟨s, by simp [MachBlock.enter, ← hphis], fun v hv => hsites ▸ hr.old v hv⟩
  · have hp₀ : p₀ ∈ ts.filter (·.block == b) := by simp [hsites]
    obtain ⟨q, k, a₀, hq, hk, -⟩ := hr.new p₀ (hmem p₀ hp₀).1 (hmem p₀ hp₀).2
    -- all phis of the block come from the same predecessor, so they take the same turn
    have hval : ∀ p ∈ ts.filter (·.block == b), ∃ a, p.phi.args[k]? = some a ∧ s' p.temp = s a := by
      intro p hp
      obtain ⟨q', k', a, hq', hk', ha, htemp⟩ := hr.new p (hmem p hp).1 (hmem p hp).2
      obtain rfl := Option.some.inj (hq.symm.trans hq')
      obtain rfl := Option.some.inj (hk.symm.trans hk')
      exact ⟨a, ha, htemp⟩
    have hn : ∀ p ∈ ts.filter (·.block == b), p.phi.dst < f.vregs.size ∧ f.vregs.size ≤ p.temp :=
      fun p hp => ⟨(hf.lt (h.mem_phis (hmem p hp).1)).1, (h.temps p (hmem p hp).1).1⟩
    obtain ⟨news, hnews, hrun⟩ := runInsts_heads file hn sem hr.old hval
    rw [hphis] at hnews
    refine ⟨writeAll s news, ?_, hrun⟩
    have hne : (f.block b).phis.isEmpty = false := by simp [← hphis, hsites]
    rw [MachBlock.enter, hne, hq]
    change ((f.block b).preds.idxOf? q).bind _ = _
    rw [hk]
    exact congrArg (Option.bind · fun news => some (writeAll s news)) hnews

theorem eq_of_mem_zip {l : List Nat} {m : List VReg} (hl : l.Nodup) {q : Nat} {a a' : VReg}
    (h : (q, a) ∈ l.zip m) (h' : (q, a') ∈ l.zip m) : a = a' := by
  obtain ⟨k, hk⟩ := List.mem_iff_getElem?.mp h
  obtain ⟨k', hk'⟩ := List.mem_iff_getElem?.mp h'
  rw [List.getElem?_zip_eq_some] at hk hk'
  obtain ⟨hlt, -⟩ := List.getElem?_eq_some_iff.mp hk.1
  obtain rfl := (List.getElem?_inj hlt hl).mp (hk.1.trans hk'.1.symm)
  exact Option.some.inj (hk.2.symm.trans hk'.2)

theorem Lowering.savesOld (h : Lowering file f g body closing [] [] ts ts) (hf : f.PhisFit)
    {i : Inst τ} (hi : i ∈ ts.flatMap (·.tails file f b)) : i.SavesOld file f.vregs.size := by
  obtain ⟨p, hp, hi⟩ := List.mem_flatMap.mp hi
  obtain ⟨a, ha, rfl⟩ := PhiSite.mem_tails.mp hi
  exact ⟨_, _, _, _, rfl, (h.temps p hp).1,
    (hf.lt (h.mem_phis hp)).2 a (List.of_mem_zip ha).2⟩

theorem Lowering.run_tails (h : Lowering file f g body closing [] [] ts ts) (hf : f.PhisFit)
    {p : PhiSite} (hp : p ∈ ts) {a : VReg}
    (ha : (b, a) ∈ (f.block p.block).preds.zip p.phi.args) (sem : OpSem τ α) (s : VReg → α) :
    runInsts sem (ts.flatMap (·.tails file f b)) s p.temp = s a := by
  apply runInsts_savesOld file (n := f.vregs.size) fun i hi => h.savesOld hf hi
  · exact ⟨_, List.mem_flatMap.mpr ⟨p, hp, PhiSite.mem_tails.mpr ⟨a, ha, rfl⟩⟩, rfl⟩
  · intro i hi a' hcopy
    obtain ⟨p', hp', hi⟩ := List.mem_flatMap.mp hi
    obtain ⟨a₁, ha₁, rfl⟩ := PhiSite.mem_tails.mp hi
    obtain ⟨htemp, rfl⟩ := Prod.mk.inj (Option.some.inj hcopy)
    obtain rfl := List.inj_on_of_nodup_map h.nodup hp' hp htemp
    exact eq_of_mem_zip (hf.preds _ (mem_blocks (h.mem_phis hp))) ha₁ ha

/-- One block: what the old instructions read is the same, and the next block is ready. -/
theorem Lowering.block_meaning (h : Lowering file f g body closing [] [] ts ts) (hf : f.PhisFit)
    (hin : f.InRange) (hsplit : (f.block b).insts = body b ++ closing b)
    (hspare : ∀ i ∈ closing b, ∀ t, ∀ p ∈ (f.block t).phis, ∀ a,
      (b, a) ∈ (f.block t).preds.zip p.args → ¬ i.Writes a)
    (hb : b < f.blocks.size) (hr : f.Ready ts prev b s s') (sem : OpSem τ α) :
    ∃ s₁, (f.block b).enter prev s = some s₁ ∧
      traceWhere (Inst.original f.vregs.size) sem (g.block b).insts s' =
        traceInsts sem (f.block b).insts s₁ ∧
      ∀ t ∈ (f.block b).succs, f.Ready ts (some b) t (runInsts sem (f.block b).insts s₁)
        (runInsts sem (g.block b).insts s') := by
  obtain ⟨s₁, henter, hheads⟩ := h.enter hf hr sem
  have hold (i : Inst τ) (hi : i ∈ body b ++ closing b) (v : VReg) (hv : i.Mentions v) :
      v < f.vregs.size := hin.lt (hsplit ▸ hi) hv
  have hbody (i : Inst τ) (hi : i ∈ body b) := hold i (List.mem_append_left _ hi)
  have hclosing (i : Inst τ) (hi : i ∈ closing b) := hold i (List.mem_append_right _ hi)
  obtain ⟨htraceB, hrunB⟩ := traceInsts_congr hbody sem hheads
  have hrunT (v : VReg) (hv : v < f.vregs.size) (s : VReg → α) :
      runInsts sem (ts.flatMap (·.tails file f b)) s v = s v := by
    apply runInsts_of_forall_not_writes
    intro i hi hw
    obtain ⟨_, _, t, _, rfl, ht, -⟩ := h.savesOld hf hi
    exact absurd ((Inst.writes_ofCopy file).mp hw) (Nat.ne_of_gt (hv.trans_le ht))
  obtain ⟨htraceZ, hrunZ⟩ := traceInsts_congr hclosing sem
    fun v hv => (hrunT v hv _).trans (hrunB v hv)
  refine ⟨s₁, henter, ?_, fun t ht => ⟨?_, ?_⟩⟩
  · have hheads' : ∀ i ∈ (ts.filter (·.block == b)).map (·.head file : PhiSite → Inst τ),
        i.original f.vregs.size = false := by
      intro i hi
      obtain ⟨p, hp, rfl⟩ := List.mem_map.mp hi
      exact Inst.original_ofCopy (.inr (h.temps p (List.mem_filter.mp hp).1).1)
    have htails : ∀ i ∈ ts.flatMap (·.tails file f b), i.original f.vregs.size = false := by
      intro i hi
      obtain ⟨_, _, t, _, rfl, ht, -⟩ := h.savesOld hf hi
      exact Inst.original_ofCopy (.inl ht)
    rw [h.insts b hb, hsplit, traceInsts_append, traceWhere_append, traceWhere_append,
      traceWhere_append, traceWhere_of_forall_not _ _ _ hheads',
      traceWhere_of_forall_not _ _ _ htails,
      traceWhere_of_forall _ _ _ fun i hi => Inst.original_of_lt (hbody i hi),
      traceWhere_of_forall _ _ _ fun i hi => Inst.original_of_lt (hclosing i hi),
      runInsts_append, runInsts_append, htraceB, htraceZ, List.nil_append, List.append_nil]
  · intro v hv
    rw [h.insts b hb, hsplit, runInsts_append, runInsts_append, runInsts_append, runInsts_append]
    exact hrunZ v hv
  · rintro p hp rfl
    have hphi := h.mem_phis hp
    obtain ⟨k, a, hk, ha, hzip⟩ := hf.exists_arg hb ht hphi
    have hlt : a < f.vregs.size := (hf.lt hphi).2 a (List.of_mem_zip hzip).2
    refine ⟨b, k, a, rfl, hk, ha, ?_⟩
    rw [h.insts b hb, hsplit, runInsts_append, runInsts_append, runInsts_append, runInsts_append]
    have htemp : ∀ i ∈ closing b, ¬ i.Writes p.temp := fun i hi hw =>
      absurd (hclosing i hi _ hw.mentions) (Nat.not_lt.mpr (h.temps p hp).1)
    rw [runInsts_of_forall_not_writes htemp, h.run_tails hf hp hzip, hrunB _ hlt,
      runInsts_of_forall_not_writes fun i hi => hspare i hi _ _ hphi _ hzip]

theorem Lowering.run_eq (h : Lowering file f g body closing [] [] ts ts) (hf : f.PhisFit)
    (hin : f.InRange) (hsplit : ∀ b < f.blocks.size, (f.block b).insts = body b ++ closing b)
    (hspare : ∀ b < f.blocks.size, ∀ i ∈ closing b, ∀ t, ∀ p ∈ (f.block t).phis, ∀ a,
      (b, a) ∈ (f.block t).preds.zip p.args → ¬ i.Writes a) (sem : OpSem τ α)
    (path : List Nat) (hpath : f.IsPath (b :: path)) (hr : f.Ready ts prev b s s') :
    f.run sem prev (b :: path) s =
      some (traceWhere (Inst.original f.vregs.size) sem (g.code (b :: path)) s') := by
  induction path generalizing b prev s s' with
  | nil =>
    have hb := hpath.1 b (List.mem_singleton_self b)
    obtain ⟨s₁, henter, htrace, -⟩ :=
      h.block_meaning hf hin (hsplit b hb) (hspare b hb) hb hr sem
    simp [run, henter, code, htrace]
  | cons t path ih =>
    obtain ⟨hlt, hchain⟩ := hpath
    rw [List.isChain_cons_cons] at hchain
    have hb := hlt b List.mem_cons_self
    obtain ⟨s₁, henter, htrace, hnext⟩ :=
      h.block_meaning hf hin (hsplit b hb) (hspare b hb) hb hr sem
    have hrest := ih ⟨fun c hc => hlt c (List.mem_cons_of_mem b hc), hchain.2⟩ (hnext t hchain.1)
    have hcode : g.code (b :: t :: path) = (g.block b).insts ++ g.code (t :: path) := rfl
    rw [run, henter, hcode, traceWhere_append, htrace]
    simp [hrest]

end

end MachFunction

end SeaNodes
