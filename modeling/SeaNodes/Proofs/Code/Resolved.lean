import SeaNodes.Proofs.Code.Decoded
import SeaNodes.Proofs.Code.Fields

namespace SeaNodes

namespace Encoded

/-- The code stands at `site` in an image that is mapped at `base`, where the blocks are at `place`. -/
structure Resolved (e : Encoded) (image : Array UInt8) (base : Nat) (place : Nat → Nat)
    (site : Nat) : Prop where
  inside : site + e.code.size ≤ image.size
  /-- Outside of displacements the code is as it was. -/
  code : ∀ k < e.code.size, (∀ r ∈ e.relocs, k < r.offset ∨ r.offset + r.kind.width ≤ k) →
    image[site + k]? = e.code[k]?
  /-- The bits around a displacement are as they were. -/
  fixedBits : ∀ r ∈ e.relocs,
    r.kind.fixedBits image (site + r.offset) = r.kind.fixedBits e.code r.offset
  /-- Displacements lead to the blocks. -/
  exact : ∀ r ∈ e.relocs, ∀ b, r.target = .block b →
    r.kind.address base image (site + r.offset) = base + place b

/-- The code goes on, with relocations behind what was there. -/
structure Extends (e e' : Encoded) : Prop where
  size : e.code.size ≤ e'.code.size
  code : ∀ k < e.code.size, e'.code[k]? = e.code[k]?
  relocs : ∀ r ∈ e.relocs, r ∈ e'.relocs
  later : ∀ r ∈ e'.relocs, r ∈ e.relocs ∨ e.code.size ≤ r.offset

variable {e e' e'' : Encoded} {long : BitSet}

namespace Extends

theorem refl (e : Encoded) : e.Extends e :=
  ⟨Nat.le_refl _, fun _ _ => rfl, fun _ h => h, fun _ h => .inl h⟩

theorem trans (h : e.Extends e') (h' : e'.Extends e'') : e.Extends e'' := by
  refine ⟨h.size.trans h'.size, fun k hk => ?_, fun r hr => h'.relocs r (h.relocs r hr), fun r hr => ?_⟩
  · rw [h'.code k (hk.trans_le h.size), h.code k hk]
  · rcases h'.later r hr with hr | hr
    · exact h.later r hr
    · exact .inr (h.size.trans hr)

theorem push (site : Option Nat) (e : Encoded) (i : Item) : e.Extends (e.push site i) := by
  refine ⟨size_push e i ▸ Nat.le_add_right _ _, fun k hk => ?_, fun r hr => ?_, fun r hr => ?_⟩
  · change (e.code ++ i.bytes)[k]? = _
    rw [← Array.getElem?_toList, Array.toList_appendList, List.getElem?_append_left hk,
      Array.getElem?_toList]
  · unfold Encoded.push
    cases i.fixup with
    | none => exact hr
    | some x => exact Array.mem_push_of_mem _ hr
  · unfold Encoded.push at hr
    cases hfixup : i.fixup with
    | none =>
      rw [hfixup] at hr
      exact .inl hr
    | some x =>
      rw [hfixup] at hr
      rcases Array.mem_push.mp hr with hr | rfl
      · exact .inl hr
      · exact .inr (Nat.le_add_right _ _)

theorem foldl_push (site : Option Nat) (form : List Item) (e : Encoded) :
    e.Extends (form.foldl (Encoded.push site) e) := by
  induction form generalizing e with
  | nil => exact refl e
  | cons i form ih => exact (push site e i).trans (ih _)

end Extends

theorem exists_form (long : BitSet) (e : Encoded) (p : Piece) : ∃ form ∈ p.forms, ∃ site k,
    e.pushPiece long p = form.foldl (push site) { e with sites := k } := by
  cases p with
  | fixed i => exact ⟨[i], List.mem_cons_self, none, e.sites, rfl⟩
  | sized short wide =>
    unfold pushPiece
    dsimp only
    split_ifs
    · exact ⟨wide, List.mem_cons_of_mem _ List.mem_cons_self, none, e.sites + 1, rfl⟩
    · exact ⟨short, List.mem_cons_self, some e.sites, e.sites + 1, rfl⟩

theorem Extends.pushPiece (long : BitSet) (e : Encoded) (p : Piece) :
    e.Extends (e.pushPiece long p) := by
  obtain ⟨form, -, site, k, h⟩ := exists_form long e p
  have hform := Extends.foldl_push site form { e with sites := k }
  rw [h]
  exact ⟨hform.size, hform.code, hform.relocs, hform.later⟩

theorem Extends.foldl_pushPiece (ps : List Piece) (e : Encoded) :
    e.Extends (ps.foldl (Encoded.pushPiece long) e) := by
  induction ps generalizing e with
  | nil => exact refl e
  | cons p ps ih => exact (Extends.pushPiece long e p).trans (ih _)

theorem Extends.pushBlock (long : BitSet) (e : Encoded) (ps : List Piece) :
    e.Extends (e.pushBlock long ps) := by
  have hstart : e.Extends { e with blocks := e.blocks.push e.code.size } :=
    ⟨Nat.le_refl _, fun _ _ => rfl, fun _ h => h, fun _ h => .inl h⟩
  exact hstart.trans (.foldl_pushPiece ps _)

theorem Extends.foldl_pushBlock (bs : List (List Piece)) (e : Encoded) :
    e.Extends (bs.foldl (Encoded.pushBlock long) e) := by
  induction bs generalizing e with
  | nil => exact refl e
  | cons ps bs ih => exact (Extends.pushBlock long e ps).trans (ih _)

theorem Resolved.of_extends {image : Array UInt8} {base start : Nat} {place : Nat → Nat}
    (h : e'.Resolved image base place start) (hext : e.Extends e') (he : e.Tidy) :
    e.Resolved image base place start where
  inside := (Nat.add_le_add_left hext.size start).trans h.inside
  code k hk hfree := by
    rw [h.code k (hk.trans_le hext.size) fun r hr => ?_, hext.code k hk]
    rcases hext.later r hr with hr | hr
    · exact hfree r hr
    · exact .inl (hk.trans_le hr)
  fixedBits r hr := by
    rw [h.fixedBits r (hext.relocs r hr)]
    refine r.kind.fixedBits_congr fun k hk => hext.code _ ?_
    have := he.inside r hr
    omega
  exact r hr := h.exact r (hext.relocs r hr)

end Encoded

def bytesOf (form : List Item) : List UInt8 := form.flatMap (·.bytes)

theorem bytesOf_append (xs ys : List Item) : bytesOf (xs ++ ys) = bytesOf xs ++ bytesOf ys :=
  List.flatMap_append

/-- The places in a form that are filled in later. -/
def fixupsOf : List Item → List Fixup
  | [] => []
  | i :: rest =>
    i.fixup.toList ++ (fixupsOf rest).map fun x => { x with offset := i.bytes.length + x.offset }

/-- A form stands at `site`. -/
structure Stands (image : Array UInt8) (base : Nat) (place : Nat → Nat) (form : List Item)
    (site : Nat) : Prop where
  inside : site + (bytesOf form).length ≤ image.size
  code : ∀ k < (bytesOf form).length,
    (∀ x ∈ fixupsOf form, k < x.offset ∨ x.offset + x.kind.width ≤ k) →
    image[site + k]? = (bytesOf form)[k]?
  fixedBits : ∀ x ∈ fixupsOf form, x.kind.fixedBits image (site + x.offset) =
    x.kind.fixedBits (bytesOf form).toArray x.offset
  exact : ∀ x ∈ fixupsOf form, ∀ b, x.target = .block b →
    x.kind.address base image (site + x.offset) = base + place b

/-- Pieces stand from one site to another, one after the other and each in one of its forms. -/
inductive StandUpTo (image : Array UInt8) (base : Nat) (place : Nat → Nat) (stop : Nat) :
    List Piece → Nat → Prop
  | nil : StandUpTo image base place stop [] stop
  | cons {p : Piece} {ps : List Piece} {form : List Item} {site : Nat} (hform : form ∈ p.forms)
      (h : Stands image base place form site)
      (hrest : StandUpTo image base place stop ps (site + (bytesOf form).length)) :
      StandUpTo image base place stop (p :: ps) site

theorem StandUpTo.le {image : Array UInt8} {base stop site : Nat} {place : Nat → Nat} {ps : List Piece}
    (h : StandUpTo image base place stop ps site) : site ≤ stop := by
  induction h with
  | nil => exact Nat.le_refl _
  | cons _ _ _ ih => exact Nat.le_trans (Nat.le_add_right _ _) ih

def HoldFields (ps : List Piece) : Prop := ∀ p ∈ ps, ∀ form ∈ p.forms, SoundItems form

namespace HoldFields

variable {ps : List Piece}

theorem nil : HoldFields [] := fun _ h => absurd h List.not_mem_nil

theorem cons {p : Piece} (hp : ∀ form ∈ p.forms, SoundItems form) (h : HoldFields ps) :
    HoldFields (p :: ps) := List.forall_mem_cons.mpr ⟨hp, h⟩

theorem fixed {i : Item} (hi : SoundItems [i]) (h : HoldFields ps) : HoldFields (.fixed i :: ps) :=
  cons (by simpa [Piece.forms] using hi) h

theorem sized {short wide : List Item} (hshort : SoundItems short) (hwide : SoundItems wide)
    (h : HoldFields ps) : HoldFields (.sized short wide :: ps) :=
  cons (by simpa [Piece.forms] using And.intro hshort hwide) h

end HoldFields

section

variable {e : Encoded} {form : List Item} {x : Fixup} {r : Reloc}

theorem code_foldl_push (site : Option Nat) (form : List Item) (e : Encoded) :
    (∀ k, (form.foldl (Encoded.push site) e).code[e.code.size + k]? = (bytesOf form)[k]?) ∧
      (form.foldl (Encoded.push site) e).code.size = e.code.size + (bytesOf form).length := by
  have hcode : (form.foldl (Encoded.push site) e).code.toList = e.code.toList ++ bytesOf form := by
    induction form generalizing e with
    | nil => exact (List.append_nil _).symm
    | cons i form ih =>
      rw [List.foldl_cons, ih]
      change (e.code ++ i.bytes).toList ++ _ = _
      rw [Array.toList_appendList, List.append_assoc]
      rfl
  constructor
  · intro k
    rw [← Array.getElem?_toList, hcode, ← Array.length_toList,
      List.getElem?_append_right (Nat.le_add_right _ _), Nat.add_sub_cancel_left]
  · rw [← Array.length_toList, hcode, List.length_append, Array.length_toList]

theorem mem_relocs_foldl_push_iff (site : Option Nat) (form : List Item) (e : Encoded) :
    r ∈ (form.foldl (Encoded.push site) e).relocs ↔ r ∈ e.relocs ∨
      ∃ x ∈ fixupsOf form, r = ⟨e.code.size + x.offset, x.kind, x.target, site⟩ := by
  induction form generalizing e with
  | nil => simp [fixupsOf]
  | cons i form ih =>
    have hsize : (e.push site i).code.size = e.code.size + i.bytes.length := e.size_push i
    have hpush : r ∈ (e.push site i).relocs ↔ r ∈ e.relocs ∨
        ∃ x ∈ i.fixup, r = ⟨e.code.size + x.offset, x.kind, x.target, site⟩ := by
      unfold Encoded.push
      cases i.fixup with
      | none => simp
      | some x => simp [Array.mem_push]
    rw [List.foldl_cons, ih, hpush, hsize, or_assoc]
    simp [fixupsOf, or_and_right, exists_or, Nat.add_assoc]

end

namespace Stands

variable {image : Array UInt8} {base site : Nat} {place : Nat → Nat} {i : Item} {rest : List Item}

theorem head (h : Stands image base place (i :: rest) site) (hi : i.fixup = none) :
    Stands image base place [i] site := by
  obtain ⟨hinside, hcode, -, -⟩ := h
  have hfixups : fixupsOf [i] = [] := by simp [fixupsOf, hi]
  have hbytes : bytesOf (i :: rest) = i.bytes ++ bytesOf rest := List.flatMap_cons
  have hone : bytesOf [i] = i.bytes := List.append_nil _
  rw [hbytes, List.length_append] at hinside hcode
  refine ⟨by rw [hone]; omega, fun k hk _ => ?_, fun x hx => ?_, fun x hx => ?_⟩
  · rw [hone] at hk ⊢
    rw [hcode k (by omega) fun x hx => ?_, List.getElem?_append_left hk]
    simp only [fixupsOf, hi, Option.toList_none, List.nil_append, List.mem_map] at hx
    obtain ⟨y, -, rfl⟩ := hx
    dsimp only
    omega
  all_goals
    rw [hfixups] at hx
    cases hx

theorem tail (h : Stands image base place (i :: rest) site) (hi : i.fixup = none) :
    Stands image base place rest (site + i.bytes.length) := by
  obtain ⟨hinside, hcode, hfixed, hexact⟩ := h
  have hbytes : bytesOf (i :: rest) = i.bytes ++ bytesOf rest := List.flatMap_cons
  have hfixups : fixupsOf (i :: rest) = (fixupsOf rest).map
      fun x => { x with offset := i.bytes.length + x.offset } := by simp [fixupsOf, hi]
  rw [hbytes] at hinside hcode hfixed
  rw [hfixups, List.forall_mem_map] at hfixed hexact
  rw [hfixups] at hcode
  rw [List.length_append] at hinside hcode
  refine ⟨by omega, fun k hk hfree => ?_, fun x hx => ?_, fun x hx b hb => ?_⟩
  · rw [Nat.add_assoc, hcode _ (by omega) (List.forall_mem_map.mpr fun x hx => ?_),
      List.getElem?_append_right (Nat.le_add_right _ _), Nat.add_sub_cancel_left]
    have := hfree x hx
    dsimp only
    omega
  · rw [Nat.add_assoc, hfixed x hx]
    refine x.kind.fixedBits_congr fun k hk => ?_
    rw [List.getElem?_toArray, List.getElem?_toArray, Nat.add_assoc,
      List.getElem?_append_right (Nat.le_add_right _ _), Nat.add_sub_cancel_left]
  · rw [Nat.add_assoc]
    exact hexact x hx b hb

theorem relocated {kind : RelocKind} {b : Nat} {w : UInt32} {text : String}
    (h : Stands image base place [.relocated kind (.block b) w text] site) :
    kind.fixedBits image site = kind.fixedBits (bytes32 w).toArray 0 ∧
      kind.address base image site = base + place b ∧ site + 4 ≤ image.size := by
  have hmem : (⟨0, kind, .block b⟩ : Fixup) ∈ fixupsOf [.relocated kind (.block b) w text] :=
    List.mem_singleton_self _
  exact ⟨h.fixedBits _ hmem, h.exact _ hmem b rfl, h.inside⟩

end Stands

namespace Encoded

variable {e : Encoded} {long : BitSet} {image : Array UInt8} {base start : Nat} {place : Nat → Nat}

theorem Resolved.stands {site : Option Nat} {form : List Item} (he : e.Tidy)
    (h : (form.foldl (push site) e).Resolved image base place start) :
    Stands image base place form (start + e.code.size) := by
  have hsize := (code_foldl_push site form e).2
  have hreloc {x : Fixup} (hx : x ∈ fixupsOf form) :=
    (mem_relocs_foldl_push_iff site form e).mpr (.inr ⟨x, hx, rfl⟩)
  refine ⟨?_, fun k hk hfree => ?_, fun x hx => ?_, fun x hx b hb => ?_⟩
  · rw [Nat.add_assoc, ← hsize]
    exact h.inside
  · rw [Nat.add_assoc, h.code _ (by omega) fun r hr => ?_, (code_foldl_push site form e).1]
    rcases (mem_relocs_foldl_push_iff site form e).mp hr with hr | ⟨x, hx, rfl⟩
    · have := he.inside r hr
      omega
    · have := hfree x hx
      dsimp only
      omega
  · have hfixed := h.fixedBits _ (hreloc hx)
    dsimp only at hfixed
    rw [Nat.add_assoc, hfixed]
    refine x.kind.fixedBits_congr fun k hk => ?_
    rw [Nat.add_assoc, (code_foldl_push site form e).1, List.getElem?_toArray]
  · rw [Nat.add_assoc]
    exact h.exact _ (hreloc hx) b hb

theorem Resolved.standUpTo {ps : List Piece} (hps : HoldFields ps) (he : e.Tidy)
    (h : (ps.foldl (pushPiece long) e).Resolved image base place start) :
    StandUpTo image base place (start + (ps.foldl (pushPiece long) e).code.size) ps
      (start + e.code.size) := by
  induction ps generalizing e with
  | nil => exact .nil
  | cons p ps ih =>
    rw [List.foldl_cons] at h ⊢
    obtain ⟨form, hform, site, k, heq⟩ := exists_form long e p
    have hsound := hps p List.mem_cons_self form hform
    have htidy : (e.pushPiece long p).Tidy := by
      rw [heq]
      exact Tidy.foldl_push hsound ⟨he.apart, he.inside, he.apt, he.blocks⟩
    have hthere := h.of_extends (Extends.foldl_pushPiece ps _) htidy
    rw [heq] at hthere
    have hsize := (code_foldl_push site form { e with sites := k }).2
    have hrest := ih (fun q hq => hps q (List.mem_cons_of_mem p hq)) htidy h
    have hstands : Stands image base place form (start + e.code.size) :=
      Resolved.stands (e := { e with sites := k }) ⟨he.apart, he.inside, he.apt, he.blocks⟩ hthere
    rw [heq, hsize, ← Nat.add_assoc] at hrest
    rw [heq]
    exact .cons hform hstands hrest

end Encoded

end SeaNodes
