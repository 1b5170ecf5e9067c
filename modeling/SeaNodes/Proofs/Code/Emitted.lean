import Mathlib.Data.List.Induction
import Mathlib.Data.List.Nodup
import Mathlib.Tactic.SplitIfs
import SeaNodes.Code.Layout

namespace SeaNodes

section

def Piece.forms : Piece → List (List Item)
  | .fixed i => [[i]]
  | .sized short wide => [short, wide]

def Piece.isSized : Piece → Bool
  | .fixed _ => false
  | .sized .. => true

/-- The sequences of items that the code of a function can be put together from. -/
def Draft.forms (d : Draft) : List (List Item) := d.blocks.flatten.flatMap Piece.forms

variable {d : Draft} {long : BitSet} {e : Encoded}

theorem Draft.mem_forms {b : List Piece} {p : Piece} {form : List Item} (hb : b ∈ d.blocks)
    (hp : p ∈ b) (hform : form ∈ p.forms) : form ∈ d.forms :=
  List.mem_flatMap.mpr ⟨p, List.mem_flatten.mpr ⟨b, hb, hp⟩, hform⟩

/-- What starting a block, passing a resizable piece and appending a form keep holds of the code. Only
short forms belong to their pieces. -/
theorem Draft.encode_induction {P : Encoded → Prop} (long : BitSet)
    (hstart : P { index := d.index, name := d.name })
    (hblock : ∀ e, P e → P { e with blocks := e.blocks.push e.code.size })
    (hsite : ∀ e, P e → P { e with sites := e.sites + 1 })
    (hform : ∀ e form site, form ∈ d.forms → P e →
      (∀ k ∈ site, k + 1 = e.sites ∧ long.contains k = false) →
      P (form.foldl (Encoded.push site) e)) : P (d.encode long) := by
  have hpiece (b : List Piece) (hb : b ∈ d.blocks) (p : Piece) (hp : p ∈ b) (e : Encoded)
      (he : P e) : P (e.pushPiece long p) := by
    have hfree : ∀ k ∈ (none : Option Nat), k + 1 = e.sites + 1 ∧ long.contains k = false :=
      fun k hk => nomatch hk
    cases p with
    | fixed i => exact hform e [i] none (mem_forms hb hp List.mem_cons_self) he (fun _ h => nomatch h)
    | sized short wide =>
      unfold Encoded.pushPiece
      dsimp only
      split_ifs with hlong
      · exact hform _ wide none (mem_forms hb hp (List.mem_cons_of_mem _ List.mem_cons_self))
          (hsite e he) hfree
      · refine hform _ short (some e.sites) (mem_forms hb hp List.mem_cons_self) (hsite e he) ?_
        rintro k ⟨⟩
        exact ⟨rfl, by simpa using hlong⟩
  have hpieces (b : List Piece) (hb : b ∈ d.blocks) (ps : List Piece) (hps : ps ⊆ b) (e : Encoded)
      (he : P e) : P (ps.foldl (Encoded.pushPiece long) e) := by
    induction ps generalizing e with
    | nil => exact he
    | cons p ps ih =>
      rw [List.cons_subset] at hps
      exact ih hps.2 _ (hpiece b hb p hps.1 e he)
  have hblocks (bs : List (List Piece)) (hbs : bs ⊆ d.blocks) (e : Encoded) (he : P e) :
      P (bs.foldl (Encoded.pushBlock long) e) := by
    induction bs generalizing e with
    | nil => exact he
    | cons b bs ih =>
      rw [List.cons_subset] at hbs
      exact ih hbs.2 _ (hpieces b hbs.1 b (List.Subset.refl b) _ (hblock e he))
  exact hblocks d.blocks (List.Subset.refl _) _ hstart

namespace Encoded

theorem field_foldl_push {α : Type} (field : Encoded → α) {site : Option Nat}
    (h : ∀ e i, field (e.push site i) = field e) (form : List Item) (e : Encoded) :
    field (form.foldl (push site) e) = field e := by
  induction form generalizing e with
  | nil => rfl
  | cons i form ih => rw [List.foldl_cons, ih, h]

theorem sites_pushPiece (long : BitSet) (e : Encoded) (p : Piece) :
    (e.pushPiece long p).sites = e.sites + p.isSized.toNat := by
  cases p with
  | fixed i => rfl
  | sized short wide =>
    unfold pushPiece
    dsimp only
    by_cases hlong : long.contains e.sites
    · rw [if_pos hlong, field_foldl_push Encoded.sites fun _ _ => rfl]
      rfl
    · rw [if_neg hlong, field_foldl_push Encoded.sites fun _ _ => rfl]
      rfl

end Encoded

theorem Draft.sites_eq_countP (d : Draft) : d.sites = d.blocks.flatten.countP Piece.isSized :=
  List.countP_congr fun p _ => by cases p <;> rfl

theorem Draft.sites_encode (d : Draft) (long : BitSet) : (d.encode long).sites = d.sites := by
  have hblock (ps : List Piece) (e : Encoded) : (ps.foldl (Encoded.pushPiece long) e).sites =
      e.sites + ps.countP Piece.isSized := by
    induction ps generalizing e with
    | nil => rfl
    | cons p ps ih =>
      have hone : p.isSized.toNat = if p.isSized then 1 else 0 := by cases p.isSized <;> rfl
      rw [List.foldl_cons, ih, Encoded.sites_pushPiece, List.countP_cons, hone, Nat.add_assoc,
        Nat.add_comm (List.countP Piece.isSized ps)]
  have hblocks (bs : List (List Piece)) (e : Encoded) :
      (bs.foldl (Encoded.pushBlock long) e).sites = e.sites + bs.flatten.countP Piece.isSized := by
    induction bs generalizing e with
    | nil => rfl
    | cons b bs ih =>
      rw [List.foldl_cons, ih, Encoded.pushBlock, hblock, List.flatten_cons, List.countP_append,
        Nat.add_assoc]
  rw [encode, hblocks, Nat.zero_add, d.sites_eq_countP]

theorem Draft.index_encode (d : Draft) (long : BitSet) : (d.encode long).index = d.index :=
  encode_induction (P := fun e => e.index = d.index) long rfl (fun _ h => h) (fun _ h => h)
    fun e form _ _ h _ =>
      (Encoded.field_foldl_push Encoded.index (fun _ _ => rfl) form e).trans h

theorem Encoded.blocks_foldl_pushPiece (long : BitSet) (ps : List Piece) (e : Encoded) :
    (ps.foldl (pushPiece long) e).blocks = e.blocks := by
  induction ps generalizing e with
  | nil => rfl
  | cons p ps ih =>
    rw [List.foldl_cons, ih]
    cases p with
    | fixed i => rfl
    | sized short wide =>
      unfold pushPiece
      dsimp only
      split_ifs <;> rw [field_foldl_push Encoded.blocks fun _ _ => rfl]

theorem Draft.size_blocks_encode (d : Draft) (long : BitSet) :
    (d.encode long).blocks.size = d.blocks.length := by
  have hblocks (bs : List (List Piece)) (e : Encoded) :
      (bs.foldl (Encoded.pushBlock long) e).blocks.size = e.blocks.size + bs.length := by
    induction bs generalizing e with
    | nil => rfl
    | cons b bs ih =>
      rw [List.foldl_cons, ih, Encoded.pushBlock, Encoded.blocks_foldl_pushPiece, Array.size_push,
        List.length_cons, Nat.add_assoc, Nat.add_comm 1]
  rw [encode, hblocks, Array.size_empty, Nat.zero_add]

def Item.target? (i : Item) : Option RelocTarget := i.fixup.map (·.target)

/-- What the code of a function can refer to. -/
def Draft.targets (d : Draft) : List RelocTarget := d.forms.flatten.filterMap Item.target?

namespace Encoded

theorem mem_relocs_foldl_push {site : Option Nat} {r : Reloc} (form : List Item) (e : Encoded)
    (h : r ∈ (form.foldl (push site) e).relocs) :
    r ∈ e.relocs ∨ r.site = site ∧ ∃ i ∈ form, i.target? = some r.target := by
  induction form generalizing e with
  | nil => exact .inl h
  | cons i form ih =>
    rcases ih _ h with hold | ⟨hsite, j, hj, htarget⟩
    · unfold push at hold
      dsimp only at hold
      cases hfixup : i.fixup with
      | none =>
        rw [hfixup] at hold
        exact .inl hold
      | some x =>
        rw [hfixup] at hold
        rcases Array.mem_push.mp hold with hold | rfl
        · exact .inl hold
        · exact .inr ⟨rfl, i, List.mem_cons_self, congrArg (Option.map Fixup.target) hfixup⟩
    · exact .inr ⟨hsite, j, List.mem_cons_of_mem i hj, htarget⟩

end Encoded

/-- A relocation refers to something that the draft refers to. If it belongs to a resizable piece, the
piece is not long. -/
theorem Draft.reloc_spec (d : Draft) (long : BitSet) : ∀ r ∈ (d.encode long).relocs,
    r.target ∈ d.targets ∧ ∀ k ∈ r.site, k < d.sites ∧ long.contains k = false := by
  have hinv := encode_induction (d := d) long (P := fun e => ∀ r ∈ e.relocs,
    r.target ∈ d.targets ∧ ∀ k ∈ r.site, k < e.sites ∧ long.contains k = false)
    (fun r hr => absurd hr (Array.not_mem_empty r)) (fun _ h => h)
    (fun e h r hr => ⟨(h r hr).1, fun k hk => ⟨Nat.lt_succ_of_lt ((h r hr).2 k hk).1,
      ((h r hr).2 k hk).2⟩⟩)
    fun e form site hform h hsite r hr => by
      rw [Encoded.field_foldl_push Encoded.sites fun _ _ => rfl]
      rcases Encoded.mem_relocs_foldl_push form e hr with hold | ⟨rfl, i, hi, htarget⟩
      · exact h r hold
      · refine ⟨List.mem_filterMap.mpr ⟨i, List.mem_flatten.mpr ⟨form, hform, hi⟩, htarget⟩, ?_⟩
        intro k hk
        obtain ⟨hlast, hshort⟩ := hsite k hk
        exact ⟨hlast ▸ Nat.lt_succ_self k, hshort⟩
  rwa [d.sites_encode long] at hinv

end

theorem le_alignTo (n align : Nat) : n ≤ alignTo n align := by
  unfold alignTo
  dsimp only
  have hpos : 0 < max align 1 := Nat.lt_of_lt_of_le Nat.one_pos (Nat.le_max_right ..)
  generalize max align 1 = a at hpos
  have hdiv := Nat.div_add_mod (n + a - 1) a
  have hmod := Nat.mod_lt (n + a - 1) hpos
  rw [Nat.mul_comm] at hdiv
  omega

theorem dvd_alignTo (n align : Nat) : max align 1 ∣ alignTo n align := Nat.dvd_mul_left ..

namespace ConstantPool

def Indexed (p : ConstantPool) : Prop :=
  ∀ (e : PoolEntry) (i : Nat), p.index[e]? = some i ↔ p.entries[i]? = some e

variable {p : ConstantPool} {e x : PoolEntry}

theorem Indexed.insert (h : p.Indexed) (e : PoolEntry) : (p.insert e).Indexed := by
  unfold ConstantPool.insert
  split
  case h_1 => exact h
  case h_2 hnew =>
    intro x i
    rw [Std.HashMap.getElem?_insert, Array.getElem?_push, size]
    have hold (j : Nat) : p.entries[j]? ≠ some e := fun hj => by
      rw [(h e j).mpr hj] at hnew
      cases hnew
    split_ifs with hx hi hi
    · exact iff_of_true (congrArg some hi.symm) (congrArg some (eq_of_beq hx))
    · refine iff_of_false (fun heq => hi (Option.some.inj heq).symm) ?_
      rw [← eq_of_beq hx]
      exact hold i
    · refine iff_of_false (fun hix => ?_) fun heq => hx (beq_of_eq (Option.some.inj heq))
      rw [h x i, hi, Array.getElem?_eq_none (Nat.le_refl _)] at hix
      cases hix
    · exact h x i

theorem mem_insert (h : p.Indexed) : x ∈ (p.insert e).entries ↔ x ∈ p.entries ∨ x = e := by
  unfold ConstantPool.insert
  split
  case h_1 i hi =>
    refine ⟨.inl, ?_⟩
    rintro (hx | rfl)
    · exact hx
    · exact Array.mem_of_getElem? ((h x i).mp hi)
  case h_2 => exact Array.mem_push

theorem Indexed.nodup (h : p.Indexed) : p.entries.toList.Nodup := by
  refine List.nodup_iff_getElem?_ne_getElem?.mpr fun i j hij hj heq => ?_
  have hget := List.getElem?_eq_getElem hj
  rw [hget] at heq
  have hi := (h _ i).mpr ((Array.getElem?_toList ..).symm.trans heq)
  have hj' := (h _ j).mpr ((Array.getElem?_toList ..).symm.trans hget)
  rw [hi] at hj'
  exact Nat.ne_of_lt hij (Option.some.inj hj')

theorem Indexed.offset?_isSome (h : p.Indexed) : (p.offset? e).isSome ↔ e ∈ p.entries := by
  rw [offset?, Option.isSome_map, Array.mem_iff_getElem?, Option.isSome_iff_exists]
  exact exists_congr fun i => h e i

end ConstantPool

def RelocTarget.constant? : RelocTarget → Option PoolEntry
  | .pool e => some e
  | _ => none

theorem RelocTarget.constant?_eq_some_iff {t : RelocTarget} {e : PoolEntry} :
    t.constant? = some e ↔ t = .pool e := by
  cases t <;> simp [constant?]

/-- The constants that a function refers to. -/
def Encoded.constants (f : Encoded) : List PoolEntry :=
  f.relocs.toList.filterMap (·.target.constant?)

namespace CodeLayout

variable {align end_ : Nat} {fs : List Encoded} {l : CodeLayout}

/-- The functions `fs` are placed up to `end_`, and the pool holds what they refer to. -/
structure Placed (align : Nat) (fs : List Encoded) (l : CodeLayout) (end_ : Nat) : Prop where
  size : l.functions.size = fs.length
  aligned : ∀ (pos b : Nat), l.functions[pos]? = some b → max align 1 ∣ b
  apart : ∀ (i j : Nat) (f : Encoded), i < j → j < fs.length → fs[i]? = some f →
    l.functions.getD i 0 + f.code.size ≤ l.functions.getD j 0
  inside : ∀ (i : Nat) (f : Encoded), fs[i]? = some f → l.functions.getD i 0 + f.code.size ≤ end_
  byIndex : ∀ (n pos : Nat), l.byIndex[n]? = some pos → ∃ f, fs[pos]? = some f ∧ f.index = n
  indexed : ∀ f ∈ fs, (l.byIndex[f.index]?).isSome
  pool : l.pool.Indexed
  constants : ∀ e, e ∈ l.pool.entries ↔ ∃ f ∈ fs, e ∈ f.constants

theorem pool_foldl_insert (rs : List Reloc) (p : ConstantPool) (hp : p.Indexed) :
    let p' := rs.foldl (fun p r => match r.target with
      | .pool e => p.insert e
      | _ => p) p
    p'.Indexed ∧ ∀ e, e ∈ p'.entries ↔
      e ∈ p.entries ∨ e ∈ rs.filterMap (·.target.constant?) := by
  induction rs generalizing p with
  | nil => exact ⟨hp, fun e => by simp⟩
  | cons r rs ih =>
    rw [List.foldl_cons]
    cases htarget : r.target with
    | pool x =>
      obtain ⟨hindexed, hmem⟩ := ih (p.insert x) (hp.insert x)
      refine ⟨hindexed, fun e => ?_⟩
      rw [hmem, ConstantPool.mem_insert hp, List.filterMap_cons, htarget, or_assoc]
      exact or_congr_right List.mem_cons.symm
    | _ =>
      obtain ⟨hindexed, hmem⟩ := ih p hp
      refine ⟨hindexed, fun e => ?_⟩
      rw [hmem, List.filterMap_cons, htarget]
      rfl

theorem Placed.place (h : Placed align fs l end_) (f : Encoded) :
    Placed align (fs ++ [f]) (CodeLayout.place align (l, end_) f).1
      (CodeLayout.place align (l, end_) f).2 := by
  unfold CodeLayout.place
  dsimp only
  rw [← Array.foldl_toList]
  obtain ⟨hindexed, hmem⟩ := pool_foldl_insert f.relocs.toList l.pool h.pool
  have hstart := le_alignTo end_ align
  have hold {i : Nat} (hi : i < fs.length) :
      (l.functions.push (alignTo end_ align)).getD i 0 = l.functions.getD i 0 := by
    rw [Array.getD_eq_getD_getElem?, Array.getD_eq_getD_getElem?, Array.getElem?_push,
      if_neg (h.size ▸ Nat.ne_of_lt hi)]
  have hnew : (l.functions.push (alignTo end_ align)).getD fs.length 0 = alignTo end_ align := by
    rw [Array.getD_eq_getD_getElem?, Array.getElem?_push, if_pos h.size.symm, Option.getD_some]
  constructor
  case size => rw [Array.size_push, h.size, List.length_append, List.length_singleton]
  case aligned =>
    intro pos b hb
    rw [Array.getElem?_push] at hb
    split_ifs at hb
    · rw [← Option.some.inj hb]
      exact dvd_alignTo end_ align
    · exact h.aligned pos b hb
  case apart =>
    intro i j g hij hj hg
    rw [List.length_append, List.length_singleton] at hj
    have hi : i < fs.length := by omega
    rw [List.getElem?_append_left hi] at hg
    rw [hold hi]
    rcases Nat.lt_or_eq_of_le (Nat.le_of_lt_succ hj) with hj | rfl
    · rw [hold hj]
      exact h.apart i j g hij hj hg
    · rw [hnew]
      exact Nat.le_trans (h.inside i g hg) hstart
  case inside =>
    intro i g hg
    rcases Nat.lt_or_ge i fs.length with hi | hi
    · rw [List.getElem?_append_left hi] at hg
      rw [hold hi]
      have := h.inside i g hg
      omega
    · rw [List.getElem?_append_right hi, List.getElem?_singleton] at hg
      split_ifs at hg with hzero
      obtain rfl := Option.some.inj hg
      exact Nat.le_of_eq (by rw [show i = fs.length by omega, hnew])
  case byIndex =>
    intro n pos hn
    rw [Std.HashMap.getElem?_insert] at hn
    split_ifs at hn with hindex
    · rw [← Option.some.inj hn, h.size]
      refine ⟨f, ?_, eq_of_beq hindex⟩
      rw [List.getElem?_append_right (Nat.le_refl _), Nat.sub_self]
      rfl
    · obtain ⟨g, hg, hgn⟩ := h.byIndex n pos hn
      exact ⟨g, List.getElem?_append_left (List.getElem?_eq_some_iff.mp hg).1 ▸ hg, hgn⟩
  case indexed =>
    intro g hg
    rw [Std.HashMap.getElem?_insert]
    split_ifs with hindex
    · rfl
    · refine h.indexed g ((List.mem_append.mp hg).resolve_right fun hgf => hindex ?_)
      rw [List.mem_singleton.mp hgf]
      exact beq_self_eq_true _
  case pool => exact hindexed
  case constants =>
    intro e
    refine (hmem e).trans ?_
    rw [h.constants]
    simp only [List.mem_append, List.mem_singleton, or_and_right, exists_or, exists_eq_left,
      Encoded.constants]

theorem placed (align : Nat) (fs : List Encoded) :
    Placed align fs (fs.foldl (CodeLayout.place align) ({}, 0)).1
      (fs.foldl (CodeLayout.place align) ({}, 0)).2 := by
  induction fs using List.reverseRecOn with
  | nil =>
    constructor
    case size => exact rfl
    case aligned =>
      intro pos b hb
      simp at hb
    case apart =>
      intro _ _ _ _ hj
      exact absurd hj (Nat.not_lt_zero _)
    case inside =>
      intro _ _ hf
      simp at hf
    case byIndex =>
      intro n pos hn
      simp at hn
    case indexed =>
      intro f hf
      exact absurd hf List.not_mem_nil
    case pool =>
      intro e i
      simp
    case constants =>
      intro e
      simp
  | append_singleton fs f ih =>
    rw [List.foldl_append]
    exact ih.place f

theorem ofFunctions_spec (fs : List Encoded) (align : Nat) :
    ∃ end_, Placed align fs (ofFunctions fs align) end_ ∧
      (ofFunctions fs align).poolOffset = alignTo end_ 8 ∧
      (ofFunctions fs align).size =
        (ofFunctions fs align).poolOffset + (ofFunctions fs align).pool.byteSize :=
  have h := placed align fs
  ⟨_, ⟨h.size, h.aligned, h.apart, h.inside, h.byIndex, h.indexed, h.pool, h.constants⟩, rfl, rfl⟩

end CodeLayout

end SeaNodes
