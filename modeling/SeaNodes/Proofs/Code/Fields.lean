import SeaNodes.Proofs.Code.Emitted
import SeaNodes.Proofs.Tables

namespace SeaNodes

/-- Displacements to pages are those of constants, whose addresses the second instruction can scale. -/
def RelocKind.IsApt (kind : RelocKind) (target : RelocTarget) : Prop :=
  ∀ scale, kind = .a64AdrpLo12 scale → scale ≤ 3 ∧ ∃ e, target = .pool e

/-- Items that follow each other, with each field at the end of an item or of a pair of items. -/
inductive SoundItems : List Item → Prop where
  | nil : SoundItems []
  | plain {i : Item} {rest : List Item} (hi : i.fixup = none) (hrest : SoundItems rest) :
      SoundItems (i :: rest)
  | field {i : Item} {rest : List Item} {x : Fixup} (hi : i.fixup = some x)
      (hend : x.offset + x.kind.width = i.bytes.length) (hapt : x.kind.IsApt x.target)
      (hrest : SoundItems rest) : SoundItems (i :: rest)
  | pair {i j : Item} {rest : List Item} {x : Fixup} (hi : i.fixup = some x) (hj : j.fixup = none)
      (hend : x.offset + x.kind.width = i.bytes.length + j.bytes.length)
      (hapt : x.kind.IsApt x.target) (hrest : SoundItems rest) : SoundItems (i :: j :: rest)

/-- Pieces all of whose choices are such items. -/
inductive SoundPieces : List Piece → Prop where
  | nil : SoundPieces []
  | fixed {is : List Item} {rest : List Piece} (his : SoundItems is) (hrest : SoundPieces rest) :
      SoundPieces (is.map .fixed ++ rest)
  | sized {short wide : List Item} {rest : List Piece} (hshort : SoundItems short)
      (hwide : SoundItems wide) (hrest : SoundPieces rest) :
      SoundPieces (.sized short wide :: rest)

theorem SoundItems.of_plain {is : List Item} (h : ∀ i ∈ is, i.fixup = none) : SoundItems is := by
  induction is with
  | nil => exact .nil
  | cons i is ih =>
    rw [List.forall_mem_cons] at h
    exact .plain h.1 (ih h.2)

theorem SoundItems.word {kind : RelocKind} {target : RelocTarget} {w : UInt32} {text : String}
    (hwidth : kind.width = 4) {rest : List Item} (hrest : SoundItems rest) :
    SoundItems (.relocated kind target w text :: rest) := by
  refine .field rfl ((Nat.zero_add _).trans hwidth) (fun scale hscale => ?_) hrest
  have hkind : kind = .a64AdrpLo12 scale := hscale
  rw [hkind] at hwidth
  cases hwidth

theorem SoundItems.words {kind : RelocKind} {target : RelocTarget} {w second : UInt32}
    {text text' : String} (hwidth : kind.width = 8) (hapt : kind.IsApt target) {rest : List Item}
    (hrest : SoundItems rest) :
    SoundItems (.relocated kind target w text :: .word second text' :: rest) :=
  .pair rfl rfl ((Nat.zero_add _).trans hwidth) hapt hrest

namespace SoundPieces

variable {ps qs : List Piece}

theorem append (hp : SoundPieces ps) (hq : SoundPieces qs) : SoundPieces (ps ++ qs) := by
  induction hp with
  | nil => exact hq
  | fixed his _ ih =>
    rw [List.append_assoc]
    exact .fixed his ih
  | sized hshort hwide _ ih => exact .sized hshort hwide ih

theorem flatten {pss : List (List Piece)} (h : ∀ ps ∈ pss, SoundPieces ps) :
    SoundPieces pss.flatten := by
  induction pss with
  | nil => exact .nil
  | cons ps pss ih =>
    rw [List.forall_mem_cons] at h
    exact h.1.append (ih h.2)

theorem ofItems {is : List Item} (h : SoundItems is) : SoundPieces (is.map .fixed) :=
  List.append_nil (is.map Piece.fixed) ▸ .fixed h .nil

theorem cons {i : Item} (hi : i.fixup = none) (h : SoundPieces ps) : SoundPieces (.fixed i :: ps) :=
  @fixed [i] _ (.plain hi .nil) h

end SoundPieces

namespace Encoded

variable {e : Encoded} {site : Option Nat}

/-- The fields lie within the code, one after the other, and so do the blocks. -/
structure Tidy (e : Encoded) : Prop where
  apart : e.relocs.toList.Pairwise fun r r' => r.offset + r.kind.width ≤ r'.offset
  inside : ∀ r ∈ e.relocs, r.offset + r.kind.width ≤ e.code.size
  apt : ∀ r ∈ e.relocs, r.kind.IsApt r.target
  blocks : ∀ b ∈ e.blocks, b ≤ e.code.size

theorem size_push (e : Encoded) (i : Item) :
    (e.push site i).code.size = e.code.size + i.bytes.length := by
  unfold push
  rw [← Array.length_toList, Array.toList_appendList, List.length_append, Array.length_toList]

namespace Tidy

theorem grow {e' : Encoded} (h : e.Tidy) (hsize : e.code.size ≤ e'.code.size)
    (hblocks : e'.blocks = e.blocks)
    (hrelocs : e'.relocs = e.relocs ∨ ∃ r, e'.relocs = e.relocs.push r ∧ e.code.size ≤ r.offset ∧
      r.offset + r.kind.width ≤ e'.code.size ∧ r.kind.IsApt r.target) : e'.Tidy := by
  have hblocks' : ∀ b ∈ e'.blocks, b ≤ e'.code.size := fun b hb =>
    Nat.le_trans (h.blocks b (hblocks ▸ hb)) hsize
  rcases hrelocs with hsame | ⟨r, hr, hstart, hend, hapt⟩
  · refine ⟨hsame ▸ h.apart, fun r hr => ?_, fun r hr => h.apt r (hsame ▸ hr), hblocks'⟩
    exact Nat.le_trans (h.inside r (hsame ▸ hr)) hsize
  · refine ⟨?_, fun x hx => ?_, fun x hx => ?_, hblocks'⟩
    · rw [hr, Array.toList_push, List.pairwise_append]
      refine ⟨h.apart, List.pairwise_singleton _ _, fun x hx y hy => ?_⟩
      rw [List.mem_singleton.mp hy]
      exact Nat.le_trans (h.inside x (Array.mem_toList_iff.mp hx)) hstart
    all_goals
      rw [hr, Array.mem_push] at hx
      rcases hx with hx | rfl
    · exact Nat.le_trans (h.inside x hx) hsize
    · exact hend
    · exact h.apt x hx
    · exact hapt

theorem foldl_push {is : List Item} (his : SoundItems is) (h : e.Tidy) :
    (is.foldl (push site) e).Tidy := by
  induction his generalizing e with
  | nil => exact h
  | @plain i rest hi _ ih =>
    refine ih (h.grow ?_ rfl (.inl ?_))
    · rw [size_push]
      exact Nat.le_add_right _ _
    · unfold push
      rw [hi]
  | @field i rest x hi hend hapt _ ih =>
    refine ih (h.grow ?_ rfl (.inr ⟨⟨e.code.size + x.offset, x.kind, x.target, site⟩, ?_,
      Nat.le_add_right _ _, ?_, hapt⟩))
    · rw [size_push]
      exact Nat.le_add_right _ _
    · unfold push
      rw [hi]
    · rw [size_push, ← hend]
      exact Nat.le_of_eq (Nat.add_assoc _ _ _)
  | @pair i j rest x hi hj hend hapt _ ih =>
    refine ih (@grow _ ((e.push site i).push site j) h ?_ rfl
      (.inr ⟨⟨e.code.size + x.offset, x.kind, x.target, site⟩, ?_, Nat.le_add_right _ _, ?_, hapt⟩))
    · rw [size_push, size_push]
      omega
    · unfold push
      rw [hi, hj]
    · rw [size_push, size_push]
      dsimp only
      omega

theorem foldl_pushPiece {ps : List Piece} (hps : SoundPieces ps) (long : BitSet) (h : e.Tidy) :
    (ps.foldl (pushPiece long) e).Tidy := by
  induction hps generalizing e with
  | nil => exact h
  | fixed his _ ih =>
    rw [List.foldl_append, List.foldl_map]
    exact ih (h.foldl_push his)
  | sized hshort hwide _ ih =>
    refine ih ?_
    unfold pushPiece
    dsimp only
    have hnext : Tidy { e with sites := e.sites + 1 } := ⟨h.apart, h.inside, h.apt, h.blocks⟩
    split_ifs
    · exact hnext.foldl_push hwide
    · exact hnext.foldl_push hshort

end Tidy

end Encoded

theorem Draft.tidy_encode {d : Draft} (h : ∀ b ∈ d.blocks, SoundPieces b) (long : BitSet) :
    (d.encode long).Tidy := by
  have hblocks (bs : List (List Piece)) (hbs : ∀ b ∈ bs, SoundPieces b) (e : Encoded)
      (he : e.Tidy) : (bs.foldl (Encoded.pushBlock long) e).Tidy := by
    induction bs generalizing e with
    | nil => exact he
    | cons b bs ih =>
      rw [List.forall_mem_cons] at hbs
      refine ih hbs.2 _ (Encoded.Tidy.foldl_pushPiece hbs.1 long ?_)
      refine ⟨he.apart, he.inside, he.apt, fun x hx => ?_⟩
      rcases Array.mem_push.mp hx with hx | rfl
      · exact he.blocks x hx
      · exact Nat.le_refl _
  exact hblocks d.blocks h _ ⟨.nil, fun r hr => absurd hr (Array.not_mem_empty r),
    fun r hr => absurd hr (Array.not_mem_empty r), fun b hb => absurd hb (Array.not_mem_empty b)⟩

theorem Allocated.exists_of_blockPieces {τ : Type} {isa : Isa τ} {names : Array String}
    {a : Allocated τ} {b : MachBlock τ} {i : Nat} {ps : List Piece}
    (h : a.blockPieces isa names b i = .ok ps) : ∃ pss,
      b.insts.mapM (a.instPieces isa ⟨a.frame, names, i, a.func.blocks.size⟩) = .ok pss ∧
      ps = (if i = 0 then (isa.prologue a.frame).map .fixed else []) ++ pss.flatten := by
  unfold blockPieces at h
  dsimp only at h
  by_cases hphis : (!b.phis.isEmpty) = true
  · rw [if_pos hphis] at h
    cases h
  · rw [if_neg hphis] at h
    obtain ⟨pss, hpss, h⟩ := Except.bind_eq_ok h
    exact ⟨pss, hpss, (Except.ok.inj h).symm⟩

/-- What follows if a computation succeeds. -/
def Except.Ensures {ε α : Type} (x : Except ε α) (P : α → Prop) : Prop := ∀ a, x = .ok a → P a

namespace Except.Ensures

variable {ε α β : Type} {P : β → Prop}

theorem ok {b : β} (h : P b) : Except.Ensures (.ok b : Except ε β) P := by
  rintro _ ⟨⟩
  exact h

theorem error (e : ε) : Except.Ensures (.error e : Except ε β) P := fun _ h => nomatch h

theorem bind {x : Except ε α} {f : α → Except ε β} {Q : α → Prop} (hx : Except.Ensures x Q)
    (hf : ∀ a, Q a → Except.Ensures (f a) P) : Except.Ensures (x >>= f) P := by
  intro b hb
  obtain ⟨a, ha, hb⟩ := bind_eq_ok hb
  exact hf a (hx a ha) b hb

theorem after {x : Except ε α} {f : α → Except ε β} (hf : ∀ a, Except.Ensures (f a) P) :
    Except.Ensures (x >>= f) P :=
  bind (Q := fun _ => True) (fun _ _ => trivial) fun a _ => hf a

end Except.Ensures

/-- An instruction set whose instructions hold their fields as they should. -/
structure Isa.IsSound {τ : Type} (isa : Isa τ) : Prop where
  prologue : ∀ f, SoundItems (isa.prologue f)
  expand : ∀ s op regs, Except.Ensures (isa.expand s op regs) SoundPieces

namespace Isa.IsSound

variable {τ : Type} {isa : Isa τ} {names : Array String} {a : Allocated τ} {d : Draft}

theorem instPieces (h : isa.IsSound) (a : Allocated τ) (s : Surroundings) (i : Inst τ) :
    Except.Ensures (a.instPieces isa s i) SoundPieces := by
  refine .after fun regs => ?_
  split_ifs
  · exact .ok .nil
  · exact h.expand s i.op regs

theorem entry (h : isa.IsSound) (f : Frame) (i : Nat) :
    SoundPieces (if i = 0 then (isa.prologue f).map .fixed else []) := by
  split_ifs
  · exact .ofItems (h.prologue f)
  · exact .nil

theorem draft (h : isa.IsSound) (hd : a.draft isa names = .ok d) :
    ∀ b ∈ d.blocks, SoundPieces b := by
  obtain ⟨blocks, hblocks, hd⟩ := Except.bind_eq_ok hd
  obtain rfl := Except.ok.inj hd
  intro b hb
  obtain ⟨⟨block, i⟩, -, hpieces⟩ := Except.exists_of_mem_mapM hblocks hb
  obtain ⟨pss, hpss, rfl⟩ := Allocated.exists_of_blockPieces hpieces
  refine (h.entry a.frame i).append (.flatten fun ps hps => ?_)
  obtain ⟨inst, -, hps⟩ := Except.exists_of_mem_mapM hpss hps
  exact h.instPieces a _ inst ps hps

end Isa.IsSound

end SeaNodes
