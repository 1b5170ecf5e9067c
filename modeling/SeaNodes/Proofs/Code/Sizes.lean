import Mathlib.Data.Finset.Card
import SeaNodes.Isa.X64
import SeaNodes.Proofs.Code.Emitted
import SeaNodes.Proofs.Tables

namespace SeaNodes

/-- Whether a target is there, among so many blocks and these functions. Constants always are. -/
def RelocTarget.isFound (blocks : Nat) (indices : List Nat) : RelocTarget → Bool
  | .block b => b < blocks
  | .function i => indices.contains i
  | .pool _ => true

/-- Blocks and functions that a draft refers to are there. -/
def Draft.Resolves (d : Draft) (indices : List Nat) : Prop :=
  ∀ t ∈ d.targets, t.isFound d.blocks.length indices

instance (d : Draft) (indices : List Nat) : Decidable (d.Resolves indices) := List.decidableBAll _ _

namespace CodeLayout

variable {align pos : Nat} {drafts : List Draft} {long : List BitSet} {d : Draft} {s : BitSet}

theorem getElem?_zipWith_encode (hd : drafts[pos]? = some d) (hs : long[pos]? = some s) :
    (drafts.zipWith Draft.encode long)[pos]? = some (d.encode s) := by
  rw [List.getElem?_zipWith, hd, hs]

theorem exists_of_getElem?_zipWith {f : Encoded}
    (hf : (drafts.zipWith Draft.encode long)[pos]? = some f) :
    ∃ d s, drafts[pos]? = some d ∧ long[pos]? = some s ∧ f = d.encode s := by
  rw [List.getElem?_zipWith] at hf
  split at hf
  case h_1 d s hd hs => exact ⟨d, s, hd, hs, (Option.some.inj hf).symm⟩
  case h_2 => exact nomatch hf

variable (align) in
/-- Whatever pieces are long, relocations can be resolved. -/
theorem exists_resolve (hlength : long.length = drafts.length)
    (hd : drafts[pos]? = some d) (hs : long[pos]? = some s)
    (hresolves : d.Resolves (drafts.map Draft.index)) {r : Reloc}
    (hr : r ∈ (d.encode s).relocs) :
    ∃ p, (ofFunctions (drafts.zipWith Draft.encode long) align).resolve (d.encode s) pos r =
      .ok p := by
  obtain ⟨end_, hplaced, -⟩ := ofFunctions_spec (drafts.zipWith Draft.encode long) align
  have hmem := List.mem_of_getElem? (getElem?_zipWith_encode hd hs)
  have htarget : ∃ t, (ofFunctions (drafts.zipWith Draft.encode long) align).target? (d.encode s)
      pos r.target = some t := by
    have hfound := hresolves _ (d.reloc_spec s r hr).1
    unfold target?
    cases ht : r.target with
    | block b =>
      rw [ht, RelocTarget.isFound, decide_eq_true_eq] at hfound
      exact ⟨_, by dsimp only; rw [Array.getElem?_eq_getElem (d.size_blocks_encode s ▸ hfound)]; rfl⟩
    | function i =>
      rw [ht, RelocTarget.isFound, List.contains_iff_mem] at hfound
      obtain ⟨d', hd', rfl⟩ := List.mem_map.mp hfound
      obtain ⟨j, hj⟩ := List.getElem?_of_mem hd'
      have hlt : j < long.length := hlength ▸ (List.getElem?_eq_some_iff.mp hj).1
      have hindexed := hplaced.indexed _ (List.mem_of_getElem?
        (getElem?_zipWith_encode hj (List.getElem?_eq_getElem hlt)))
      rw [d'.index_encode] at hindexed
      obtain ⟨k, hk⟩ := Option.isSome_iff_exists.mp hindexed
      exact ⟨_, by dsimp only; rw [functionOffset?, hk]; rfl⟩
    | pool e =>
      have hentry : e ∈ (ofFunctions (drafts.zipWith Draft.encode long) align).pool.entries := by
        refine (hplaced.constants e).mpr ⟨_, hmem, List.mem_filterMap.mpr ⟨r, ?_, ?_⟩⟩
        · exact Array.mem_toList_iff.mpr hr
        · rw [ht]
          rfl
      obtain ⟨k, hk⟩ := Option.isSome_iff_exists.mp (hplaced.pool.offset?_isSome.mpr hentry)
      exact ⟨_, by dsimp only; rw [hk]; rfl⟩
  obtain ⟨t, ht⟩ := htarget
  exact ⟨_, by rw [resolve, ht]⟩

/-- The piece of a relocation, if it is short and does not reach the target. -/
def missed? (l : CodeLayout) (f : Encoded) (pos : Nat) (r : Reloc) : Option Nat :=
  match r.site, l.resolve f pos r with
  | some k, .ok (site, target) =>
    if r.kind.fits (r.kind.displacement site target) then none else some k
  | _, _ => none

theorem tooShort_eq {l : CodeLayout} {f : Encoded}
    (h : ∀ r ∈ f.relocs, ∃ p, l.resolve f pos r = .ok p) :
    l.tooShort f pos = .ok (f.relocs.toList.filterMap (l.missed? f pos)) := by
  unfold tooShort
  rw [Except.filterMapM_eq_filterMap (r := l.missed? f pos) _ fun r hr => ?_]
  · obtain ⟨⟨site, target⟩, hp⟩ := h r (Array.mem_toList_iff.mp hr)
    unfold missed?
    rw [hp]
    cases r.site <;> rfl

end CodeLayout

def shortcomings (align : Nat) (drafts : List Draft) (long : List BitSet) :
    Except Fault (List (List Nat)) :=
  let functions := drafts.zipWith Draft.encode long
  functions.zipIdx.mapM fun (f, pos) => (CodeLayout.ofFunctions functions align).tooShort f pos

/-- More pieces are long. -/
def lengthen (long : List BitSet) (grown : List (List Nat)) : List BitSet :=
  long.zipWith (fun s g => g.foldl BitSet.insert s) grown

def NextTry (align : Nat) (drafts : List Draft) (long long' : List BitSet) : Prop :=
  ∃ grown, shortcomings align drafts long = .ok grown ∧ ¬ grown.all (·.isEmpty) ∧
    long' = lengthen long grown

/-- The pieces of a function that are short. -/
def Draft.shortSites (d : Draft) (long : BitSet) : Finset Nat :=
  (Finset.range d.sites).filter fun k => long.contains k = false

theorem Draft.mem_shortSites {d : Draft} {long : BitSet} {k : Nat} :
    k ∈ d.shortSites long ↔ k < d.sites ∧ long.contains k = false := by
  rw [shortSites, Finset.mem_filter, Finset.mem_range]

theorem Draft.card_shortSites_le (d : Draft) (long : BitSet) :
    (d.shortSites long).card ≤ d.sites :=
  (Finset.card_filter_le _ _).trans_eq (Finset.card_range _)

theorem Draft.card_shortSites_insert (d : Draft) (s : BitSet) (g : List Nat)
    (hg : ∀ k ∈ g, k ∈ d.shortSites s) :
    (d.shortSites (g.foldl BitSet.insert s)).card + (!g.isEmpty).toNat ≤
      (d.shortSites s).card := by
  have hcontains (k : Nat) : (g.foldl BitSet.insert s).contains k ↔ s.contains k ∨ k ∈ g := by
    have h := BitSet.contains_foldl_insert id g s (i := k)
    simpa using h
  have hsub : d.shortSites (g.foldl BitSet.insert s) ⊆ d.shortSites s := by
    intro k hk
    rw [mem_shortSites, Bool.eq_false_iff] at hk ⊢
    exact ⟨hk.1, fun hc => hk.2 ((hcontains k).mpr (.inl hc))⟩
  cases g with
  | nil => exact Finset.card_le_card hsub
  | cons k g =>
    refine Finset.card_lt_card ⟨hsub, fun hback => ?_⟩
    have hstill := (mem_shortSites.mp (hback (hg k List.mem_cons_self))).2
    rw [(hcontains k).mpr (.inr List.mem_cons_self)] at hstill
    cases hstill

/-- How many pieces are short. -/
def shortCount (drafts : List Draft) (long : List BitSet) : Nat :=
  (drafts.zipWith (fun d s => (d.shortSites s).card) long).sum

theorem shortCount_le (drafts : List Draft) (long : List BitSet) :
    shortCount drafts long ≤ (drafts.map Draft.sites).sum := by
  induction drafts generalizing long with
  | nil => exact Nat.le_refl 0
  | cons d drafts ih =>
    cases long with
    | nil => exact Nat.zero_le _
    | cons s long =>
      rw [shortCount, List.zipWith_cons_cons, List.sum_cons, List.map_cons, List.sum_cons]
      exact Nat.add_le_add (d.card_shortSites_le s) (ih long)

theorem shortCount_lengthen (drafts : List Draft) (long : List BitSet) (grown : List (List Nat))
    (hlength : long.length = drafts.length) (hgrown : grown.length = drafts.length)
    (h : ∀ (pos : Nat) d s g, drafts[pos]? = some d → long[pos]? = some s → grown[pos]? = some g →
      ∀ k ∈ g, k ∈ d.shortSites s) :
    shortCount drafts (lengthen long grown) + grown.countP (!·.isEmpty) ≤ shortCount drafts long := by
  induction drafts generalizing long grown with
  | nil =>
    rw [List.length_eq_zero_iff.mp hgrown]
    exact Nat.le_refl 0
  | cons d drafts ih =>
    obtain ⟨s, long, rfl⟩ := List.exists_cons_of_length_eq_add_one hlength
    obtain ⟨g, grown, rfl⟩ := List.exists_cons_of_length_eq_add_one hgrown
    have hhead := d.card_shortSites_insert s g (h 0 d s g rfl rfl rfl)
    have htail := ih long grown (Nat.succ.inj hlength) (Nat.succ.inj hgrown)
      fun pos d s g hd hs hg => h (pos + 1) d s g hd hs hg
    rw [List.countP_cons]
    simp only [shortCount, lengthen, List.zipWith_cons_cons, List.sum_cons] at htail ⊢
    cases hempty : g.isEmpty <;> simp [hempty] at hhead ⊢ <;> omega

namespace CodeLayout

theorem mem_shortSites_of_missed {l : CodeLayout} {d : Draft} {s : BitSet} {pos k : Nat}
    (hk : k ∈ (d.encode s).relocs.toList.filterMap (l.missed? (d.encode s) pos)) :
    k ∈ d.shortSites s := by
  obtain ⟨r, hr, hmissed⟩ := List.mem_filterMap.mp hk
  unfold missed? at hmissed
  split at hmissed
  case h_1 site _ hsite _ =>
    split_ifs at hmissed
    obtain rfl := Option.some.inj hmissed
    exact Draft.mem_shortSites.mpr ((d.reloc_spec s r (Array.mem_toList_iff.mp hr)).2 _ hsite)
  case h_2 => exact nomatch hmissed

end CodeLayout

section

variable (align : Nat) {drafts : List Draft} {long : List BitSet}
  (hlength : long.length = drafts.length)
  (hresolves : ∀ d ∈ drafts, d.Resolves (drafts.map Draft.index))

include hlength hresolves

theorem shortcomings_spec : ∃ grown, shortcomings align drafts long = .ok grown ∧
    grown.length = drafts.length ∧
    ∀ (pos : Nat) (d : Draft) (s : BitSet), drafts[pos]? = some d → long[pos]? = some s →
      grown[pos]? = some ((d.encode s).relocs.toList.filterMap
        ((CodeLayout.ofFunctions (drafts.zipWith Draft.encode long) align).missed?
          (d.encode s) pos)) := by
  unfold shortcomings
  dsimp only
  rw [Except.mapM_eq_map (r := fun x => x.1.relocs.toList.filterMap
    ((CodeLayout.ofFunctions (drafts.zipWith Draft.encode long) align).missed? x.1 x.2)) _ ?_]
  · refine ⟨_, rfl, ?_, fun pos d s hd hs => ?_⟩
    · rw [List.length_map, List.length_zipIdx, List.length_zipWith, hlength, Nat.min_self]
    · rw [List.getElem?_map, List.getElem?_zipIdx, CodeLayout.getElem?_zipWith_encode hd hs]
      simp
  · rintro ⟨f, pos⟩ hf
    rw [List.mk_mem_zipIdx_iff_getElem?] at hf
    obtain ⟨d, s, hd, hs, rfl⟩ := CodeLayout.exists_of_getElem?_zipWith hf
    exact CodeLayout.tooShort_eq fun r hr => CodeLayout.exists_resolve align hlength hd hs
      (hresolves d (List.mem_of_getElem? hd)) hr

end

/-- A program that was laid out in a number of tries, each with its long pieces. -/
structure Settled (align : Nat) (drafts : List Draft) (tries : List (List BitSet))
    (p : EncodedProgram) : Prop where
  /-- Each try follows from the one before. -/
  chain : tries.IsChain (NextTry align drafts)
  /-- A piece that is long stays long. -/
  grows : tries.IsChain (List.Forall₂ fun s s' => ∀ k, s.contains k → s'.contains k)
  /-- The code is that of the last try. -/
  functions : ∃ long, tries.getLast? = some long ∧ p.functions = drafts.zipWith Draft.encode long
  layout : p.layout = .ofFunctions p.functions align
  /-- What has its short form reaches its target. -/
  fits : ∀ (pos : Nat) (f : Encoded), p.functions[pos]? = some f → ∀ r ∈ f.relocs, r.site.isSome →
    ∃ site target, p.layout.resolve f pos r = .ok (site, target) ∧
      r.kind.fits (r.kind.displacement site target)

theorem forall₂_lengthen (long : List BitSet) (grown : List (List Nat))
    (h : grown.length = long.length) :
    List.Forall₂ (fun s s' => ∀ k, s.contains k → s'.contains k) long (lengthen long grown) := by
  induction long generalizing grown with
  | nil =>
    rw [List.length_eq_zero_iff.mp h]
    exact .nil
  | cons s long ih =>
    obtain ⟨g, grown, rfl⟩ := List.exists_cons_of_length_eq_add_one h
    refine .cons (fun k hk => ?_) (ih grown (Nat.succ.inj h))
    exact (BitSet.contains_foldl_insert id g s (i := k)).mpr (.inl hk)

theorem settleSizes_eq {target : Target} {align : Nat} {drafts : List Draft} {long : List BitSet}
    {grown : List (List Nat)} (h : shortcomings align drafts long = .ok grown)
    (fuel passes : Nat) : settleSizes target align drafts fuel passes long =
      if grown.all (·.isEmpty) then
        .ok {
          target
          functions := drafts.zipWith Draft.encode long
          layout := .ofFunctions (drafts.zipWith Draft.encode long) align
          passes }
      else
        match fuel with
        | 0 => .error (.internal .encode none (.sizesUnsettled passes))
        | k + 1 => settleSizes target align drafts k (passes + 1) (lengthen long grown) := by
  unfold shortcomings at h
  dsimp only at h
  rw [settleSizes]
  dsimp only
  rw [h]
  cases fuel <;> rfl

section

variable (align : Nat) {drafts : List Draft} {long : List BitSet}
  (hlength : long.length = drafts.length)
  (hresolves : ∀ d ∈ drafts, d.Resolves (drafts.map Draft.index))

include hlength hresolves

theorem settled_last {grown : List (List Nat)} (h : shortcomings align drafts long = .ok grown)
    (hall : grown.all (·.isEmpty)) (target : Target) (passes : Nat) :
    Settled align drafts [long] {
      target
      functions := drafts.zipWith Draft.encode long
      layout := .ofFunctions (drafts.zipWith Draft.encode long) align
      passes } := by
  refine ⟨.singleton _, .singleton _, ⟨long, rfl, rfl⟩, rfl, fun pos f hf r hr hsite => ?_⟩
  obtain ⟨grown', hgrown', -, hread⟩ := shortcomings_spec align hlength hresolves
  obtain rfl := Except.ok.inj (h.symm.trans hgrown')
  dsimp only at hf ⊢
  obtain ⟨d, s, hd, hs, rfl⟩ := CodeLayout.exists_of_getElem?_zipWith hf
  obtain ⟨⟨site, target⟩, hresolve⟩ := CodeLayout.exists_resolve align hlength hd hs
    (hresolves d (List.mem_of_getElem? hd)) hr
  refine ⟨site, target, hresolve, ?_⟩
  have hempty := List.all_eq_true.mp hall _ (List.mem_of_getElem? (hread pos d s hd hs))
  rw [List.isEmpty_iff, List.filterMap_eq_nil_iff] at hempty
  have hmissed := hempty r (Array.mem_toList_iff.mpr hr)
  obtain ⟨k, hk⟩ := Option.isSome_iff_exists.mp hsite
  unfold CodeLayout.missed? at hmissed
  rw [hk, hresolve] at hmissed
  dsimp only at hmissed
  split_ifs at hmissed with hfits
  exact hfits

theorem shortcomings_less : ∃ grown, shortcomings align drafts long = .ok grown ∧
    (lengthen long grown).length = drafts.length ∧ grown.length = long.length ∧
    (¬ grown.all (·.isEmpty) →
      shortCount drafts (lengthen long grown) < shortCount drafts long) := by
  obtain ⟨grown, hgrown, hsize, hread⟩ := shortcomings_spec align hlength hresolves
  have hcount := shortCount_lengthen drafts long grown hlength hsize
    fun pos d s g hd hs hg k hk => by
      obtain rfl := Option.some.inj ((hread pos d s hd hs).symm.trans hg)
      exact CodeLayout.mem_shortSites_of_missed hk
  refine ⟨grown, hgrown, ?_, hsize.trans hlength.symm, fun hall => ?_⟩
  · rw [lengthen, List.length_zipWith, hlength, hsize, Nat.min_self]
  · have hpos : 0 < grown.countP (!·.isEmpty) := by
      rw [List.countP_pos_iff]
      simpa using hall
    omega

/-- With as many tries as there are short pieces, all sizes settle. -/
theorem settleSizes_spec (target : Target) (fuel passes : Nat)
    (hfuel : shortCount drafts long ≤ fuel) :
    ∃ p tries, settleSizes target align drafts fuel passes long = .ok p ∧
      tries.head? = some long ∧ p.passes + 1 = passes + tries.length ∧
      p.passes ≤ passes + shortCount drafts long ∧ Settled align drafts tries p := by
  induction fuel generalizing passes long with
  | zero =>
    obtain ⟨grown, hgrown, -, -, hless⟩ := shortcomings_less align hlength hresolves
    have hall : grown.all (·.isEmpty) := by
      by_contra hnot
      have := hless hnot
      omega
    rw [settleSizes_eq hgrown, if_pos hall]
    exact ⟨_, [long], rfl, rfl, rfl, Nat.le_add_right _ _,
      settled_last align hlength hresolves hgrown hall target passes⟩
  | succ fuel ih =>
    obtain ⟨grown, hgrown, hsize, hsame, hless⟩ :=
      shortcomings_less align hlength hresolves
    rw [settleSizes_eq hgrown]
    by_cases hall : grown.all (·.isEmpty)
    · rw [if_pos hall]
      exact ⟨_, [long], rfl, rfl, rfl, Nat.le_add_right _ _,
        settled_last align hlength hresolves hgrown hall target passes⟩
    · have hlt := hless hall
      rw [if_neg hall]
      obtain ⟨p, tries, hp, hhead, hpasses, hle, hsettled⟩ :=
        ih hsize (passes + 1) (by omega)
      obtain ⟨rest, rfl⟩ : ∃ rest, tries = lengthen long grown :: rest := by
        cases tries with
        | nil => exact nomatch hhead
        | cons t rest => exact ⟨rest, by rw [Option.some.inj hhead]⟩
      rw [List.length_cons] at hpasses
      refine ⟨p, long :: lengthen long grown :: rest, hp, rfl, ?_, by omega,
        ⟨.cons_cons ⟨grown, hgrown, hall, rfl⟩ hsettled.chain,
          .cons_cons (forall₂_lengthen long grown hsame) hsettled.grows, ?_, hsettled.layout,
          hsettled.fits⟩⟩
      · rw [List.length_cons, List.length_cons]
        omega
      · rw [List.getLast?_cons_cons]
        exact hsettled.functions

end

/-- Sizes settle, in at most one try more than there are resizable pieces. -/
theorem encode_settles {τ : Type} (isa : Isa τ) (names : Array String) (cfg : EncodeConfig)
    (fs : List (Allocated τ)) {drafts : List Draft} (hpasses : cfg.maxPasses = none)
    (hdrafts : fs.mapM (·.draft isa names) = .ok drafts)
    (hresolves : ∀ d ∈ drafts, d.Resolves (drafts.map Draft.index)) :
    ∃ p tries, isa.encode names cfg fs = .ok p ∧
      p.passes = tries.length ∧ p.passes ≤ (drafts.map Draft.sites).sum + 1 ∧
      tries.head? = some (drafts.map fun _ => .empty) ∧ Settled cfg.align drafts tries p := by
  have hle := shortCount_le drafts (drafts.map fun _ => .empty)
  have hlimit : drafts.foldr (·.sites + ·) 2 = (drafts.map Draft.sites).sum + 2 := by
    clear hdrafts hresolves hle
    induction drafts with
    | nil => rfl
    | cons d drafts ih => rw [List.foldr_cons, ih, List.map_cons, List.sum_cons, Nat.add_assoc]
  obtain ⟨p, tries, hp, hhead, hlength, hcount, hsettled⟩ :=
    settleSizes_spec cfg.align (List.length_map _) hresolves isa.target
      ((drafts.map Draft.sites).sum + 1) 1 (Nat.le_succ_of_le hle)
  refine ⟨p, tries, ?_, by omega, by omega, hhead, hsettled⟩
  unfold Isa.encode
  rw [hdrafts, hpasses]
  dsimp only [Option.getD_none]
  rw [← hp, ← Nat.add_sub_cancel (n := (drafts.map Draft.sites).sum + 1) (m := 1), ← hlimit]
  rfl

/-- A jump over more than 127 bytes. -/
def X64.farJump : Allocated X64.Test where
  index := 0
  func := {
    name := "f"
    blocks := #[{ insts := [{ op := .jump 2 }] },
      { insts := .replicate 26 { op := .const 1000000, defs := [⟨0, .empty⟩] } ++ [{ op := .ret }] },
      { insts := [{ op := .ret }] }] }
  regs := #[0]
  frame := { incoming := 8 }

/-- The jump does not reach its target with one byte, so there are two tries. -/
theorem encode_settles_farJump : ∃ drafts,
    [X64.farJump].mapM (·.draft (X64.isa .systemV) #["f"]) = .ok drafts ∧
    (∀ d ∈ drafts, d.Resolves (drafts.map Draft.index)) ∧
    ∃ p tries, (X64.isa .systemV).encode #["f"] {} [X64.farJump] = .ok p ∧
      p.passes = 2 ∧ tries.length = 2 ∧ Settled 16 drafts tries p := by
  obtain ⟨drafts, hdrafts, hresolves⟩ := Except.exists_of_any
    (x := [X64.farJump].mapM (·.draft (X64.isa .systemV) #["f"]))
    (p := fun drafts => ∀ d ∈ drafts, d.Resolves (drafts.map Draft.index)) (by decide +kernel)
  obtain ⟨p, tries, hp, hpasses, -, -, hsettled⟩ := encode_settles (X64.isa .systemV) #["f"] {}
    [X64.farJump] rfl hdrafts hresolves
  obtain ⟨q, hq, htwo⟩ := Except.exists_of_any
    (x := (X64.isa .systemV).encode #["f"] {} [X64.farJump]) (p := fun p => p.passes = 2)
    (by decide +kernel)
  obtain rfl := Except.ok.inj (hp.symm.trans hq)
  exact ⟨drafts, hdrafts, hresolves, p, tries, hp, htwo, hpasses ▸ htwo, hsettled⟩

end SeaNodes
