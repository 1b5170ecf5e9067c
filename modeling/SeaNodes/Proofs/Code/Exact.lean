import SeaNodes.Proofs.Code.Fields
import SeaNodes.Proofs.Code.Patches
import SeaNodes.Proofs.Code.Resolved
import SeaNodes.Proofs.Code.Sizes
import SeaNodes.Proofs.Isa.Fields

namespace SeaNodes

namespace EncodedProgram

variable {p : EncodedProgram} {align pos : Nat} {f : Encoded} {symbols : Symbols} {image : Image}

/-- The offset in the image of what a relocation of the function at `pos` refers to. -/
inductive IsAt (p : EncodedProgram) (pos : Nat) : RelocTarget → Nat → Prop
  | block {f : Encoded} {b offset : Nat} (hf : p.functions[pos]? = some f)
      (hb : f.blocks[b]? = some offset) : p.IsAt pos (.block b) (p.layout.start pos + offset)
  | function {f : Encoded} {i : Nat} (hf : p.functions[i]? = some f) :
      p.IsAt pos (.function f.index) (p.layout.start i)
  | constant {e : PoolEntry} {k : Nat} (he : p.layout.pool.entries[k]? = some e) :
      p.IsAt pos (.pool e) (p.layout.poolOffset + 8 * k)

/-- Every relocation has a target and reaches it, and every symbol has an address. -/
structure Linkable (p : EncodedProgram) (symbols : Symbols) : Prop where
  found : ∀ (pos : Nat) f, p.functions[pos]? = some f → ∀ r ∈ f.relocs,
    ∃ target, p.IsAt pos r.target target
  fits : ∀ (pos : Nat) f, p.functions[pos]? = some f → ∀ r ∈ f.relocs, ∀ target,
    p.IsAt pos r.target target →
      r.kind.fits (r.kind.displacement (p.layout.start pos + r.offset) target)
  symbols : ∀ s, .symbol s ∈ p.layout.pool.entries → s ∈ symbols

/-- The image of a program. -/
structure IsImage (p : EncodedProgram) (align : Nat) (symbols : Symbols) (image : Image) : Prop where
  size : image.bytes.size = p.layout.poolOffset + 8 * image.pool.size
  /-- The image says where its functions are. -/
  functions : ∀ (pos : Nat) f, p.functions[pos]? = some f → image.functions[pos]? = some {
    index := f.index, name := f.name, offset := p.layout.start pos, size := f.code.size
    blocks := f.blocks.map (p.layout.start pos + ·) }
  /-- Functions are in order and apart. -/
  apart : ∀ (i j : Nat) f g, i < j → p.functions[i]? = some f → p.functions[j]? = some g →
    p.layout.start i + f.code.size ≤ p.layout.start j
  aligned : ∀ (pos : Nat) f, p.functions[pos]? = some f → max align 1 ∣ p.layout.start pos
  /-- The pool comes after the functions. -/
  poolLast : ∀ (pos : Nat) f, p.functions[pos]? = some f →
    p.layout.start pos + f.code.size ≤ image.poolOffset
  pool : image.poolOffset = p.layout.poolOffset ∧ image.pool = p.layout.pool.entries
  poolAligned : 8 ∣ image.poolOffset
  distinct : image.pool.toList.Nodup
  /-- The pool holds what is referred to. -/
  constants : ∀ e, e ∈ image.pool ↔ ∃ f ∈ p.functions, ∃ r ∈ f.relocs, r.target = .pool e
  words : ∀ (k : Nat) e, image.pool[k]? = some e → ∃ w, e.word symbols = .ok w ∧
    ∀ i < 8, image.bytes[image.poolOffset + 8 * k + i]? = (wordBytes w)[i]?
  /-- Outside of displacements the code is as it was. -/
  code : ∀ (pos : Nat) f, p.functions[pos]? = some f → ∀ k < f.code.size,
    (∀ r ∈ f.relocs, k < r.offset ∨ r.offset + r.kind.width ≤ k) →
      image.bytes[p.layout.start pos + k]? = f.code[k]?
  /-- The bits around a displacement are as they were. -/
  fixedBits : ∀ (pos : Nat) f, p.functions[pos]? = some f → ∀ r ∈ f.relocs,
    r.kind.fixedBits image.bytes (p.layout.start pos + r.offset) = r.kind.fixedBits f.code r.offset
  padding : ∀ j < image.poolOffset,
    (∀ (pos : Nat) f, p.functions[pos]? = some f →
      j < p.layout.start pos ∨ p.layout.start pos + f.code.size ≤ j) →
    image.bytes[j]? = some p.target.arch.padding
  /-- Displacements lead to their targets. -/
  exact : ∀ (pos : Nat) f, p.functions[pos]? = some f → ∀ r ∈ f.relocs, ∀ target,
    p.IsAt pos r.target target → ∀ base, 4096 ∣ base →
      r.kind.address base image.bytes (p.layout.start pos + r.offset) = base + target

/-- All displacements to fill in. -/
def patches (p : EncodedProgram) : List Patch :=
  p.functions.zipIdx.flatMap fun x => p.layout.patches x.1 x.2

/-- The code before displacements are filled in. -/
def unlinked (p : EncodedProgram) : Array UInt8 :=
  p.functions.zipIdx.foldl
    (fun bytes x => writeBytes bytes (p.layout.start x.2) x.1.code.toList)
    (.replicate p.layout.poolOffset p.target.arch.padding)

def imageOf (p : EncodedProgram) (bytes : Array UInt8) : Image where
  target := p.target
  bytes := bytes
  functions := p.functions.zipIdx.map fun x => {
    index := x.1.index, name := x.1.name, offset := p.layout.start x.2, size := x.1.code.size
    blocks := x.1.blocks.map (p.layout.start x.2 + ·) }
  poolOffset := p.layout.poolOffset
  pool := p.layout.pool.entries
  listing := Lines.ofRows
    (p.functions.zipIdx.flatMap (fun x => x.1.listing bytes (p.layout.start x.2))
      ++ p.layout.poolListing)

/-- What encoding makes. -/
structure IsEncoded (p : EncodedProgram) (align : Nat) : Prop where
  layout : p.layout = .ofFunctions p.functions align
  tidy : ∀ f ∈ p.functions, f.Tidy
  indices : (p.functions.map Encoded.index).Nodup

namespace IsEncoded

variable (h : p.IsEncoded align)

include h

theorem placed : ∃ end_, CodeLayout.Placed align p.functions p.layout end_ ∧
    p.layout.poolOffset = alignTo end_ 8 ∧
    p.layout.size = p.layout.poolOffset + p.layout.pool.byteSize :=
  h.layout ▸ CodeLayout.ofFunctions_spec p.functions align

theorem indexed : p.layout.pool.Indexed :=
  have ⟨_, hplaced, _⟩ := h.placed
  hplaced.pool

theorem size : p.layout.size = p.layout.poolOffset + 8 * p.layout.pool.entries.size :=
  have ⟨_, _, _, hsize⟩ := h.placed
  hsize

theorem stop_le (hf : p.functions[pos]? = some f) :
    p.layout.start pos + f.code.size ≤ p.layout.poolOffset := by
  obtain ⟨end_, hplaced, hpool, -⟩ := h.placed
  rw [hpool]
  exact Nat.le_trans (hplaced.inside pos f hf) (le_alignTo end_ 8)

theorem apart {i j : Nat} {f g : Encoded} (hij : i < j) (hf : p.functions[i]? = some f)
    (hg : p.functions[j]? = some g) : p.layout.start i + f.code.size ≤ p.layout.start j :=
  have ⟨_, hplaced, _⟩ := h.placed
  hplaced.apart i j f hij (List.getElem?_eq_some_iff.mp hg).1 hf

/-- A target is found where it is. -/
theorem target?_eq_some_iff (hf : p.functions[pos]? = some f) {t : RelocTarget} {target : Nat} :
    p.layout.target? f pos t = some target ↔ p.IsAt pos t target := by
  obtain ⟨end_, hplaced, -⟩ := h.placed
  constructor
  · intro ht
    cases t with
    | block b =>
      obtain ⟨offset, hb, rfl⟩ := Option.map_eq_some_iff.mp ht
      exact .block hf hb
    | function i =>
      obtain ⟨j, hj, rfl⟩ := Option.map_eq_some_iff.mp ht
      obtain ⟨g, hg, rfl⟩ := hplaced.byIndex i j hj
      exact .function hg
    | pool e =>
      obtain ⟨offset, ho, rfl⟩ := Option.map_eq_some_iff.mp ht
      obtain ⟨k, hk, rfl⟩ := Option.map_eq_some_iff.mp ho
      exact .constant ((hplaced.pool e k).mp hk)
  · intro ht
    cases ht with
    | block hf' hb =>
      obtain rfl := Option.some.inj (hf.symm.trans hf')
      exact congrArg (Option.map _) hb
    | @function g i hg =>
      obtain ⟨j, hj⟩ := Option.isSome_iff_exists.mp (hplaced.indexed g (List.mem_of_getElem? hg))
      obtain ⟨g', hg', hindex⟩ := hplaced.byIndex _ j hj
      have hsame : j = i := by
        refine (List.getElem?_inj ?_ h.indices).mp ?_
        · rw [List.length_map]
          exact (List.getElem?_eq_some_iff.mp hg').1
        · rw [List.getElem?_map, List.getElem?_map, hg', hg, Option.map_some, Option.map_some, hindex]
      rw [hsame] at hj
      exact congrArg (Option.map _) hj
    | @constant e k he =>
      have hoffset : p.layout.pool.offset? e = some (8 * k) :=
        congrArg (Option.map _) ((hplaced.pool e k).mpr he)
      exact congrArg (Option.map _) hoffset

theorem isAt_le {t : RelocTarget} {target : Nat} (ht : p.IsAt pos t target) :
    target ≤ p.layout.size := by
  rw [h.size]
  cases ht with
  | @block g b offset hg hb =>
    have hle := (h.tidy g (List.mem_of_getElem? hg)).blocks offset (Array.mem_of_getElem? hb)
    have := h.stop_le hg
    omega
  | @function g i hg =>
    have := h.stop_le hg
    omega
  | @constant e k he =>
    have := (Array.getElem?_eq_some_iff.mp he).1
    omega

omit h in
theorem mem_patches {q : Patch} : q ∈ p.patches ↔ ∃ (pos : Nat) (f : Encoded),
    p.functions[pos]? = some f ∧ ∃ r ∈ f.relocs, p.layout.patchOf f pos r = q := by
  unfold patches CodeLayout.patches
  simp only [List.mem_flatMap, List.mem_map, Array.mem_toList_iff]
  constructor
  · rintro ⟨⟨f, pos⟩, hf, r, hr, rfl⟩
    exact ⟨pos, f, List.mk_mem_zipIdx_iff_getElem?.mp hf, r, hr, rfl⟩
  · rintro ⟨pos, f, hf, r, hr, rfl⟩
    exact ⟨(f, pos), List.mk_mem_zipIdx_iff_getElem?.mpr hf, r, hr, rfl⟩

theorem stop_patchOf_le (hf : p.functions[pos]? = some f) {r : Reloc} (hr : r ∈ f.relocs) :
    (p.layout.patchOf f pos r).stop ≤ p.layout.start pos + f.code.size := by
  have hin := (h.tidy f (List.mem_of_getElem? hf)).inside r hr
  change p.layout.start pos + r.offset + r.kind.width ≤ _
  omega

theorem stop_patch_le {q : Patch} (hq : q ∈ p.patches) : q.stop ≤ p.layout.poolOffset := by
  obtain ⟨pos, f, hf, r, hr, rfl⟩ := mem_patches.mp hq
  exact Nat.le_trans (h.stop_patchOf_le hf hr) (h.stop_le hf)

theorem pairwise_functions : p.functions.zipIdx.Pairwise fun x y =>
    p.layout.start x.2 + x.1.code.size ≤ p.layout.start y.2 := by
  obtain ⟨end_, hplaced, -⟩ := h.placed
  rw [List.pairwise_iff_getElem]
  intro i j hi hj hij
  rw [List.length_zipIdx] at hi hj
  rw [List.getElem_zipIdx, List.getElem_zipIdx, Nat.zero_add, Nat.zero_add]
  exact hplaced.apart i j _ hij hj (List.getElem?_eq_getElem hi)

theorem pairwise_patches : p.patches.Pairwise fun q q' => q.stop ≤ q'.site := by
  refine List.pairwise_flatMap.mpr ⟨fun ⟨f, pos⟩ hf => ?_, ?_⟩
  · rw [List.mk_mem_zipIdx_iff_getElem?] at hf
    refine List.pairwise_map.mpr ((h.tidy f (List.mem_of_getElem? hf)).apart.imp fun hr => ?_)
    unfold Patch.stop CodeLayout.patchOf
    dsimp only
    omega
  · refine h.pairwise_functions.imp_of_mem fun {x y} hx hy hxy q hq q' hq' => ?_
    obtain ⟨f, pos⟩ := x
    rw [List.mk_mem_zipIdx_iff_getElem?] at hx
    obtain ⟨r, hr, rfl⟩ := List.mem_map.mp hq
    obtain ⟨r', -, rfl⟩ := List.mem_map.mp hq'
    have hstop := h.stop_patchOf_le hx (Array.mem_toList_iff.mp hr)
    exact Nat.le_trans hstop (Nat.le_trans hxy (Nat.le_add_right _ _))

omit h in
theorem size_unlinked : p.unlinked.size = p.layout.poolOffset := by
  rw [unlinked, (isLocal_putFunction p.layout).size_foldl, Array.size_replicate]

theorem foldlM_putFunction : p.functions.zipIdx.foldlM
    (fun bytes x => putFunction bytes x.1 (p.layout.start x.2))
    (Array.replicate p.layout.poolOffset p.target.arch.padding) = .ok p.unlinked := by
  refine (Except.foldlM_eq_ok_iff (C := fun _ => True)
    (I := fun bytes => bytes.size = p.layout.poolOffset) _ (fun x hx bytes bytes' hsize => ?_)
    (fun x _ bytes hsize => (size_writeBytes _ _ _).trans hsize) Array.size_replicate).mpr
    ⟨fun _ _ => trivial, rfl⟩
  obtain ⟨f, pos⟩ := x
  rw [List.mk_mem_zipIdx_iff_getElem?] at hx
  rw [putFunction_eq_ok_iff, hsize]
  exact and_congr_left' (iff_of_true (h.stop_le hx) trivial)

theorem foldlM_relocate {bytes bytes' : Array UInt8} (hsize : p.layout.poolOffset ≤ bytes.size) :
    p.functions.zipIdx.foldlM (fun bytes x => relocate p.layout bytes x.1 x.2) bytes = .ok bytes' ↔
      (∀ x ∈ p.functions.zipIdx, ∀ r ∈ x.1.relocs, p.layout.Fillable x.1 x.2 r) ∧
        bytes' = p.patches.foldl Patch.apply bytes := by
  rw [patches, List.foldl_flatMap]
  refine Except.foldlM_eq_ok_iff
    (C := fun x : Encoded × Nat => ∀ r ∈ x.1.relocs, p.layout.Fillable x.1 x.2 r)
    (I := fun bytes : Array UInt8 => p.layout.poolOffset ≤ bytes.size) _ (fun x hx bytes bytes' hsize => ?_)
    (fun x _ bytes hsize => (Patch.isLocal_apply.size_foldl _ bytes).symm ▸ hsize) hsize
  refine CodeLayout.relocate_eq_ok_iff fun q hq => Nat.le_trans (h.stop_patch_le ?_) hsize
  exact List.mem_flatMap.mpr ⟨x, hx, hq⟩

theorem fillable_iff (hf : p.functions[pos]? = some f) (r : Reloc) :
    p.layout.Fillable f pos r ↔ (∃ target, p.IsAt pos r.target target) ∧
      ∀ target, p.IsAt pos r.target target →
        r.kind.fits (r.kind.displacement (p.layout.start pos + r.offset) target) := by
  simp only [← h.target?_eq_some_iff hf, CodeLayout.Fillable, CodeLayout.patchOf, Patch.Fits]
  cases p.layout.target? f pos r.target <;> simp

end IsEncoded

theorem size_append_bytes (bytes : Array UInt8) (ws : List UInt8) :
    (bytes ++ ws).size = bytes.size + ws.length := by
  rw [← Array.length_toList, Array.toList_appendList, List.length_append, Array.length_toList]

theorem getElem?_append_bytes_left {bytes : Array UInt8} {ws : List UInt8} {j : Nat}
    (hj : j < bytes.size) : (bytes ++ ws)[j]? = bytes[j]? := by
  rw [← Array.getElem?_toList, Array.toList_appendList, List.getElem?_append_left hj,
    Array.getElem?_toList]

theorem getElem?_append_bytes_right (bytes : Array UInt8) (ws : List UInt8) (k : Nat) :
    (bytes ++ ws)[bytes.size + k]? = ws[k]? := by
  rw [← Array.getElem?_toList, Array.toList_appendList, ← Array.length_toList,
    List.getElem?_append_right (Nat.le_add_right _ _), Nat.add_sub_cancel_left]

theorem exists_word {e : PoolEntry} :
    (∃ w, e.word symbols = .ok w) ↔ ∀ s, e = .symbol s → s ∈ symbols := by
  cases e with
  | float | int => exact iff_of_true ⟨_, rfl⟩ fun _ h => nomatch h
  | symbol s =>
    simp only [PoolEntry.word, PoolEntry.symbol.injEq, forall_eq']
    cases hs : symbols[s]? with
    | some a => exact iff_of_true ⟨a, rfl⟩ (Std.HashMap.mem_iff_isSome_getElem?.mpr (hs ▸ rfl))
    | none =>
      refine iff_of_false (fun h => nomatch h.choose_spec) fun h => ?_
      rw [Std.HashMap.mem_iff_isSome_getElem?, hs] at h
      cases h

theorem getElem?_flatMap_wordBytes (ws : List UInt64) (k : Nat) {i : Nat} (hi : i < 8) :
    (ws.flatMap wordBytes)[8 * k + i]? = ws[k]?.bind fun w => (wordBytes w)[i]? := by
  induction ws generalizing k with
  | nil => rfl
  | cons w ws ih =>
    have hlength : (wordBytes w).length = 8 := rfl
    rw [List.flatMap_cons]
    cases k with
    | zero =>
      rw [Nat.mul_zero, Nat.zero_add, List.getElem?_append_left (hlength ▸ hi)]
      rfl
    | succ k =>
      rw [List.getElem?_append_right (by omega), hlength, List.getElem?_cons_succ, ← ih k]
      congr 1
      omega

theorem bytes_pool {pool : ConstantPool} :
    (∃ ws, pool.bytes symbols = .ok ws) ↔ ∀ s, .symbol s ∈ pool.entries → s ∈ symbols := by
  constructor
  · rintro ⟨ws, hws⟩ s hs
    obtain ⟨words, hwords, -⟩ := Except.bind_eq_ok hws
    obtain ⟨k, hk⟩ := Array.mem_iff_getElem?.mp hs
    obtain ⟨w, -, hw⟩ := Except.exists_of_getElem?_mapM hwords
      ((Array.getElem?_toList ..).trans hk)
    exact exists_word.mp ⟨w, hw⟩ s rfl
  · intro h
    refine Except.exists_bind (Except.exists_mapM _ fun e he => exists_word.mpr ?_)
      fun words => ⟨_, rfl⟩
    rintro s rfl
    exact h s (Array.mem_toList_iff.mp he)

theorem words_pool {pool : ConstantPool} {ws : List UInt8} (h : pool.bytes symbols = .ok ws) :
    ws.length = 8 * pool.entries.size ∧ ∀ (k : Nat) e, pool.entries[k]? = some e →
      ∃ w, e.word symbols = .ok w ∧ ∀ i < 8, ws[8 * k + i]? = (wordBytes w)[i]? := by
  obtain ⟨words, hwords, hws⟩ := Except.bind_eq_ok h
  obtain rfl := Except.ok.inj hws
  constructor
  · have hlength := (Except.forall₂_of_mapM hwords).length_eq
    rw [Array.length_toList] at hlength
    rw [List.length_flatMap, hlength]
    simp [wordBytes, Nat.mul_comm]
  · intro k e he
    obtain ⟨w, hw, hword⟩ := Except.exists_of_getElem?_mapM hwords
      ((Array.getElem?_toList ..).trans he)
    refine ⟨w, hword, fun i hi => ?_⟩
    rw [getElem?_flatMap_wordBytes words k hi, hw, Option.bind_some]

namespace IsEncoded

variable (h : p.IsEncoded align)

include h

theorem link_eq {ws : List UInt8} (hws : p.layout.pool.bytes symbols = .ok ws) :
    p.link symbols = (p.functions.zipIdx.foldlM (fun bytes x => relocate p.layout bytes x.1 x.2)
      (p.unlinked ++ ws)).map p.imageOf := by
  unfold link
  change (p.functions.zipIdx.foldlM (fun bytes x => putFunction bytes x.1 (p.layout.start x.2)) _
    >>= _) = _
  rw [h.foldlM_putFunction, hws]
  change (p.functions.zipIdx.foldlM (fun bytes x => relocate p.layout bytes x.1 x.2)
    (p.unlinked ++ ws) >>= fun bytes => .ok (p.imageOf bytes)) = _
  cases p.functions.zipIdx.foldlM (fun bytes x => relocate p.layout bytes x.1 x.2)
    (p.unlinked ++ ws) <;> rfl

omit h in
theorem exists_bytes_of_link (hlink : p.link symbols = .ok image) :
    ∃ ws, p.layout.pool.bytes symbols = .ok ws := by
  cases hpool : p.layout.pool.bytes symbols with
  | ok ws => exact ⟨ws, rfl⟩
  | error s =>
    unfold link at hlink
    obtain ⟨code, -, hlink⟩ := Except.bind_eq_ok hlink
    rw [hpool] at hlink
    exact nomatch hlink

theorem link_eq_ok_iff : p.link symbols = .ok image ↔
    (∀ x ∈ p.functions.zipIdx, ∀ r ∈ x.1.relocs, p.layout.Fillable x.1 x.2 r) ∧
    ∃ ws, p.layout.pool.bytes symbols = .ok ws ∧
      image = p.imageOf (p.patches.foldl Patch.apply (p.unlinked ++ ws)) := by
  have hiff {ws : List UInt8} (hws : p.layout.pool.bytes symbols = .ok ws) :
      p.link symbols = .ok image ↔
        (∀ x ∈ p.functions.zipIdx, ∀ r ∈ x.1.relocs, p.layout.Fillable x.1 x.2 r) ∧
          image = p.imageOf (p.patches.foldl Patch.apply (p.unlinked ++ ws)) := by
    have hrelocate (bytes : Array UInt8) := @foldlM_relocate _ _ h (p.unlinked ++ ws)
      bytes (by rw [size_append_bytes, size_unlinked]; exact Nat.le_add_right _ _)
    rw [h.link_eq hws, Except.map_eq_ok_iff]
    constructor
    · rintro ⟨bytes, hbytes, rfl⟩
      obtain ⟨hfill, rfl⟩ := (hrelocate bytes).mp hbytes
      exact ⟨hfill, rfl⟩
    · rintro ⟨hfill, rfl⟩
      exact ⟨_, (hrelocate _).mpr ⟨hfill, rfl⟩, rfl⟩
  constructor
  · intro hlink
    obtain ⟨ws, hws⟩ := exists_bytes_of_link hlink
    obtain ⟨hfill, himage⟩ := (hiff hws).mp hlink
    exact ⟨hfill, ws, hws, himage⟩
  · rintro ⟨hfill, ws, hws, himage⟩
    exact (hiff hws).mpr ⟨hfill, himage⟩

omit h in
theorem exists_patch_of_mem (hf : p.functions[pos]? = some f) {r : Reloc} (hr : r ∈ f.relocs) :
    p.layout.patchOf f pos r ∈ p.patches := mem_patches.mpr ⟨pos, f, hf, r, hr, rfl⟩

theorem exists_link_iff : (∃ image, p.link symbols = .ok image) ↔ p.Linkable symbols := by
  simp only [h.link_eq_ok_iff]
  constructor
  · rintro ⟨image, hfill, ws, hws, -⟩
    have hall (pos : Nat) (f : Encoded) (hf : p.functions[pos]? = some f) (r : Reloc)
        (hr : r ∈ f.relocs) := (h.fillable_iff hf r).mp
      (hfill (f, pos) (List.mk_mem_zipIdx_iff_getElem?.mpr hf) r hr)
    exact ⟨fun pos f hf r hr => (hall pos f hf r hr).1, fun pos f hf r hr => (hall pos f hf r hr).2,
      bytes_pool.mp ⟨ws, hws⟩⟩
  · intro hlink
    obtain ⟨ws, hws⟩ := bytes_pool.mpr hlink.symbols
    refine ⟨_, fun x hx r hr => ?_, ws, hws, rfl⟩
    have hf := List.mk_mem_zipIdx_iff_getElem?.mp (show (x.1, x.2) ∈ _ from hx)
    exact (h.fillable_iff hf r).mpr ⟨hlink.found _ _ hf r hr, hlink.fits _ _ hf r hr⟩

theorem getElem?_unlinked (hf : p.functions[pos]? = some f) {k : Nat} (hk : k < f.code.size) :
    p.unlinked[p.layout.start pos + k]? = f.code[k]? := by
  obtain ⟨before, hsize, -, hafter⟩ := (isLocal_putFunction p.layout).inside_foldl
    p.functions.zipIdx (.replicate p.layout.poolOffset p.target.arch.padding) h.pairwise_functions
    (List.mk_mem_zipIdx_iff_getElem?.mpr hf)
  have hstop := h.stop_le hf
  rw [Array.size_replicate] at hsize
  refine (hafter _ (Nat.le_add_right _ _) (Nat.add_lt_add_left hk _)).trans ?_
  rw [getElem?_writeBytes, Array.length_toList, if_pos, Nat.add_sub_cancel_left,
    Array.getElem?_toList]
  dsimp only
  omega

omit h in
theorem padding_unlinked {j : Nat} (hj : j < p.layout.poolOffset)
    (hfree : ∀ (pos : Nat) f, p.functions[pos]? = some f →
      j < p.layout.start pos ∨ p.layout.start pos + f.code.size ≤ j) :
    p.unlinked[j]? = some p.target.arch.padding := by
  refine ((isLocal_putFunction p.layout).outside_foldl _ _ fun x hx => ?_).trans
    (Array.getElem?_replicate.trans (if_pos hj))
  exact hfree x.2 x.1 (List.mk_mem_zipIdx_iff_getElem?.mp hx)

omit h in
theorem size_patched {ws : List UInt8} (hlength : ws.length = 8 * p.layout.pool.entries.size) :
    (p.patches.foldl Patch.apply (p.unlinked ++ ws)).size =
      p.layout.poolOffset + 8 * p.layout.pool.entries.size := by
  rw [Patch.isLocal_apply.size_foldl, size_append_bytes, size_unlinked, hlength]

theorem getElem?_patched_pool (ws : List UInt8) (k : Nat) :
    (p.patches.foldl Patch.apply (p.unlinked ++ ws))[p.layout.poolOffset + k]? = ws[k]? := by
  rw [← getElem?_append_bytes_right p.unlinked, size_unlinked]
  refine Patch.isLocal_apply.outside_foldl _ _ fun q hq => .inr ?_
  exact Nat.le_trans (h.stop_patch_le hq) (Nat.le_add_right _ _)

omit h in
/-- What is before the pool and not filled in is as it was. -/
theorem getElem?_patched_of_outside (ws : List UInt8) {j : Nat} (hj : j < p.layout.poolOffset)
    (hfree : ∀ q ∈ p.patches, j < q.site ∨ q.stop ≤ j) :
    (p.patches.foldl Patch.apply (p.unlinked ++ ws))[j]? = p.unlinked[j]? :=
  (Patch.isLocal_apply.outside_foldl _ _ hfree).trans
    (getElem?_append_bytes_left (size_unlinked.symm ▸ hj))

theorem getElem?_patched_code (ws : List UInt8) (hf : p.functions[pos]? = some f) {k : Nat}
    (hk : k < f.code.size) (hfree : ∀ r ∈ f.relocs, k < r.offset ∨ r.offset + r.kind.width ≤ k) :
    (p.patches.foldl Patch.apply (p.unlinked ++ ws))[p.layout.start pos + k]? = f.code[k]? := by
  have hin : p.layout.start pos + k < p.layout.poolOffset := by
    have := h.stop_le hf
    omega
  rw [← h.getElem?_unlinked hf hk]
  refine getElem?_patched_of_outside ws hin fun q hq => ?_
  obtain ⟨pos', f', hf', r, hr, rfl⟩ := mem_patches.mp hq
  have hstop := h.stop_patchOf_le hf' hr
  have hsite : p.layout.start pos' ≤ (p.layout.patchOf f' pos' r).site := Nat.le_add_right _ _
  rcases Nat.lt_trichotomy pos' pos with hlt | rfl | hlt
  · have := h.apart hlt hf' hf
    omega
  · obtain rfl := Option.some.inj (hf.symm.trans hf')
    have := hfree r hr
    unfold Patch.stop CodeLayout.patchOf
    dsimp only
    omega
  · have := h.apart hlt hf hf'
    omega

theorem getElem?_patched_padding (ws : List UInt8) {j : Nat} (hj : j < p.layout.poolOffset)
    (hfree : ∀ (pos : Nat) f, p.functions[pos]? = some f →
      j < p.layout.start pos ∨ p.layout.start pos + f.code.size ≤ j) :
    (p.patches.foldl Patch.apply (p.unlinked ++ ws))[j]? = some p.target.arch.padding := by
  rw [← padding_unlinked hj hfree]
  refine getElem?_patched_of_outside ws hj fun q hq => ?_
  obtain ⟨pos, f, hf, r, hr, rfl⟩ := mem_patches.mp hq
  have hstop := h.stop_patchOf_le hf hr
  have hsite : p.layout.start pos ≤ (p.layout.patchOf f pos r).site := Nat.le_add_right _ _
  have := hfree pos f hf
  omega

/-- Displacements that fit lead to their targets, and the bits around them are as they were. -/
theorem patched_spec (hnear : p.layout.size < 2 ^ 30) (ws : List UInt8)
    (hf : p.functions[pos]? = some f) {r : Reloc} (hr : r ∈ f.relocs)
    (hfits : (p.layout.patchOf f pos r).Fits) {target : Nat} (ht : p.IsAt pos r.target target) :
    (∀ base, 4096 ∣ base → r.kind.address base
      (p.patches.foldl Patch.apply (p.unlinked ++ ws)) (p.layout.start pos + r.offset) =
        base + target) ∧
    r.kind.fixedBits (p.patches.foldl Patch.apply (p.unlinked ++ ws))
      (p.layout.start pos + r.offset) =
        r.kind.fixedBits (p.unlinked ++ ws) (p.layout.start pos + r.offset) := by
  have hq : p.layout.patchOf f pos r = ⟨r.kind, p.layout.start pos + r.offset, target⟩ := by
    rw [CodeLayout.patchOf, (h.target?_eq_some_iff hf).mpr ht, Option.getD_some]
  have hmem := exists_patch_of_mem hf hr
  have hstop := h.stop_patch_le hmem
  have htotal : p.layout.poolOffset ≤ p.layout.size := h.size.symm ▸ Nat.le_add_right _ _
  have hle := h.isAt_le ht
  rw [hq] at hmem hstop hfits
  refine Patch.foldl_apply_spec h.pairwise_patches hmem hfits ?_
    ⟨?_, Nat.lt_of_le_of_lt hle hnear⟩ ?_
  · rw [size_append_bytes, size_unlinked]
    exact Nat.le_trans hstop (Nat.le_add_right _ _)
  · have hsite : p.layout.start pos + r.offset ≤ p.layout.poolOffset :=
      Nat.le_trans (Nat.le_add_right _ _) hstop
    exact Nat.lt_of_le_of_lt (Nat.le_trans hsite htotal) hnear
  · -- only constants are counted in units, and their addresses are multiples of eight
    intro scale hscale
    obtain ⟨hsmall, e, he⟩ := (h.tidy f (List.mem_of_getElem? hf)).apt r hr scale hscale
    rw [he] at ht
    cases ht with
    | @constant _ k _ =>
      obtain ⟨end_, -, hpool, -⟩ := h.placed
      have height : 2 ^ scale ∣ 2 ^ 3 := Nat.pow_dvd_pow 2 hsmall
      have hpool8 : 8 ∣ p.layout.poolOffset := hpool ▸ dvd_alignTo end_ 8
      refine (Nat.dvd_mod_iff (height.trans (by decide))).mpr (height.trans ?_)
      exact Nat.dvd_add hpool8 (Nat.dvd_mul_right 8 k)

theorem isImage_of_link (hnear : p.layout.size < 2 ^ 30) (hlink : p.link symbols = .ok image) :
    p.IsImage align symbols image := by
  obtain ⟨hfill, ws, hws, rfl⟩ := h.link_eq_ok_iff.mp hlink
  obtain ⟨hlength, hwords⟩ := words_pool hws
  obtain ⟨end_, hplaced, hpool, -⟩ := h.placed
  have hfillable {pos : Nat} {f : Encoded} (hf : p.functions[pos]? = some f) {r : Reloc}
      (hr : r ∈ f.relocs) : p.layout.Fillable f pos r :=
    hfill (f, pos) (List.mk_mem_zipIdx_iff_getElem?.mpr hf) r hr
  constructor
  case size => exact size_patched hlength
  case functions =>
    intro pos f hf
    rw [imageOf, List.getElem?_map, List.getElem?_zipIdx, hf]
    simp
  case apart => exact fun i j f g hij hf hg => h.apart hij hf hg
  case aligned =>
    intro pos f hf
    refine hplaced.aligned pos _ ?_
    have hpos : pos < p.layout.functions.size := hplaced.size ▸ (List.getElem?_eq_some_iff.mp hf).1
    rw [CodeLayout.start, Array.getD_eq_getD_getElem?, Array.getElem?_eq_getElem hpos,
      Option.getD_some]
  case poolLast => exact fun pos f hf => h.stop_le hf
  case pool => exact ⟨rfl, rfl⟩
  case poolAligned =>
    change 8 ∣ p.layout.poolOffset
    rw [hpool]
    exact dvd_alignTo end_ 8
  case distinct => exact h.indexed.nodup
  case constants =>
    intro e
    refine (hplaced.constants e).trans (exists_congr fun f => and_congr_right fun _ => ?_)
    simp only [Encoded.constants, List.mem_filterMap, Array.mem_toList_iff,
      RelocTarget.constant?_eq_some_iff]
  case words =>
    intro k e he
    obtain ⟨w, hw, hword⟩ := hwords k e he
    refine ⟨w, hw, fun i hi => ?_⟩
    rw [← hword i hi, Nat.add_assoc]
    exact h.getElem?_patched_pool ws (8 * k + i)
  case code => exact fun pos f hf k hk hfree => h.getElem?_patched_code ws hf hk hfree
  case fixedBits =>
    intro pos f hf r hr
    obtain ⟨target, ht⟩ := ((h.fillable_iff hf r).mp (hfillable hf hr)).1
    have hin := (h.tidy f (List.mem_of_getElem? hf)).inside r hr
    have hstop := h.stop_le hf
    refine (h.patched_spec hnear ws hf hr (hfillable hf hr).2 ht).2.trans
      (r.kind.fixedBits_congr fun k hk => ?_)
    rw [getElem?_append_bytes_left (by rw [size_unlinked]; omega), Nat.add_assoc]
    exact h.getElem?_unlinked hf (by omega)
  case padding => exact fun j hj hfree => h.getElem?_patched_padding ws hj hfree
  case exact =>
    intro pos f hf r hr target ht
    exact (h.patched_spec hnear ws hf hr (hfillable hf hr).2 ht).1

end IsEncoded

end EncodedProgram

theorem settleSizes_ok {target : Target} {align : Nat} {drafts : List Draft} (fuel passes : Nat)
    {long : List BitSet} {p : EncodedProgram} (hlength : long.length = drafts.length)
    (h : settleSizes target align drafts fuel passes long = .ok p) :
    ∃ long' : List BitSet, long'.length = drafts.length ∧
      p.functions = drafts.zipWith Draft.encode long' ∧
      p.layout = .ofFunctions p.functions align := by
  induction fuel generalizing passes long with
  | zero =>
    rw [settleSizes] at h
    obtain ⟨grown, -, h⟩ := Except.bind_eq_ok h
    split_ifs at h
    obtain rfl := Except.ok.inj h
    exact ⟨long, hlength, rfl, rfl⟩
  | succ fuel ih =>
    rw [settleSizes] at h
    obtain ⟨grown, hgrown, h⟩ := Except.bind_eq_ok h
    split_ifs at h
    · obtain rfl := Except.ok.inj h
      exact ⟨long, hlength, rfl, rfl⟩
    · have hsize := (Except.forall₂_of_mapM hgrown).length_eq
      rw [List.length_zipIdx, List.length_zipWith, hlength, Nat.min_self] at hsize
      refine ih _ ?_ h
      rw [List.length_zipWith, hlength, ← hsize, Nat.min_self]

namespace Isa

variable {τ : Type} {isa : Isa τ} {names : Array String} {cfg : EncodeConfig}
  {fs : List (Allocated τ)} {p : EncodedProgram}

theorem index_encode (h : isa.encode names cfg fs = .ok p) :
    p.functions.map Encoded.index = fs.map Allocated.index := by
  obtain ⟨drafts, hdrafts, h⟩ := Except.bind_eq_ok h
  obtain ⟨long, hlength, hfunctions, -⟩ := settleSizes_ok _ _ (List.length_map _) h
  have hindex : drafts.map Draft.index = fs.map Allocated.index := by
    rw [← List.forall₂_eq_eq_eq, List.forall₂_map_left_iff, List.forall₂_map_right_iff]
    refine (Except.forall₂_of_mapM hdrafts).flip.imp fun d a hd => ?_
    obtain ⟨blocks, -, hd⟩ := Except.bind_eq_ok hd
    exact (congrArg Draft.index (Except.ok.inj hd)).symm
  rw [hfunctions, ← hindex]
  refine List.ext_getElem (by simp [hlength]) fun i hi _ => ?_
  rw [List.getElem_map, List.getElem_map, List.getElem_zipWith, Draft.index_encode]

theorem isEncoded_of_encode (hsound : isa.IsSound) (h : isa.encode names cfg fs = .ok p)
    (hindices : (fs.map Allocated.index).Nodup) : p.IsEncoded cfg.align := by
  refine ⟨?_, ?_, index_encode h ▸ hindices⟩
  all_goals
    obtain ⟨drafts, hdrafts, h⟩ := Except.bind_eq_ok h
    obtain ⟨long, -, hfunctions, hlayout⟩ := settleSizes_ok _ _ (List.length_map _) h
  · exact hlayout
  · intro f hf
    obtain ⟨pos, hf⟩ := List.getElem?_of_mem (hfunctions ▸ hf)
    obtain ⟨d, s, hd, -, rfl⟩ := CodeLayout.exists_of_getElem?_zipWith hf
    obtain ⟨a, -, hdraft⟩ := Except.exists_of_mem_mapM hdrafts (List.mem_of_getElem? hd)
    exact d.tidy_encode (hsound.draft hdraft) s

end Isa

/-- Linking a program of fewer than 2 ^ 30 bytes is exact. -/
theorem link_exact (t : Target) (names : Array String) (cfg : EncodeConfig)
    (fs : List (Allocated t.isa.1)) (symbols : Symbols) {p : EncodedProgram}
    (hp : t.isa.2.encode names cfg fs = .ok p) (hindices : (fs.map Allocated.index).Nodup)
    (hsize : p.layout.size < 2 ^ 30) :
    ((∃ image, p.link symbols = .ok image) ↔ p.Linkable symbols) ∧
      ∀ image, p.link symbols = .ok image → p.IsImage cfg.align symbols image :=
  have h := Isa.isEncoded_of_encode t.isSound_isa hp hindices
  ⟨h.exists_link_iff, fun _ => h.isImage_of_link hsize⟩

/-- The jump takes its long form, and the image has its displacement. -/
theorem link_exact_farJump : ∃ p,
    (X64.isa .systemV).encode #["f"] {} [X64.farJump] = .ok p ∧ p.layout.size < 2 ^ 30 ∧
    p.Linkable {} ∧ ∃ image, p.link {} = .ok image ∧ p.IsImage 16 {} image := by
  obtain ⟨p, hp, hsize, hlink⟩ := Except.exists_of_any
    (x := (X64.isa .systemV).encode #["f"] {} [X64.farJump])
    (p := fun p => p.layout.size < 2 ^ 30 ∧ (p.link {}).toOption.isSome) (by decide +kernel)
  have hexact := link_exact ⟨.x64, .systemV⟩ #["f"] {} [X64.farJump] {} hp (by decide) hsize
  obtain ⟨image, himage⟩ : ∃ image, p.link {} = .ok image := by
    cases hp : p.link {} with
    | ok image => exact ⟨image, rfl⟩
    | error e =>
      rw [hp] at hlink
      cases hlink
  exact ⟨p, hp, hsize, hexact.1.mp ⟨image, himage⟩, image, himage, hexact.2 image himage⟩

end SeaNodes

namespace SeaNodes

/-- The offset of a block when the code of its function is at `start`. -/
def Encoded.place (e : Encoded) (start b : Nat) : Nat := start + e.blocks.getD b 0

namespace Draft

variable {d : Draft} {long : BitSet} {i : Nat} {ps : List Piece}

def upTo (d : Draft) (long : BitSet) (i : Nat) (ps : List Piece) : Encoded :=
  { d with blocks := d.blocks.take i ++ [ps] }.encode long

/-- The offset behind the pieces that block `i` begins with, when the code is at `start`. -/
def behind (d : Draft) (long : BitSet) (start i : Nat) (ps : List Piece) : Nat :=
  start + (d.upTo long i ps).code.size

theorem upTo_append (front : List Piece) :
    d.upTo long i (front ++ ps) = ps.foldl (Encoded.pushPiece long) (d.upTo long i front) := by
  simp only [upTo, encode, List.foldl_append, List.foldl_cons, List.foldl_nil, Encoded.pushBlock]

theorem tidy_upTo (hblocks : ∀ b ∈ d.blocks, SoundPieces b) (hps : SoundPieces ps) :
    (d.upTo long i ps).Tidy := by
  refine Draft.tidy_encode (fun b hb => ?_) long
  rcases List.mem_append.mp hb with hb | hb
  · exact hblocks b (List.mem_of_mem_take hb)
  · rwa [List.mem_singleton.mp hb]

theorem encode_eq (h : d.blocks[i]? = some ps) :
    d.encode long = (d.blocks.drop (i + 1)).foldl (Encoded.pushBlock long) (d.upTo long i ps) := by
  obtain ⟨hi, rfl⟩ := List.getElem?_eq_some_iff.mp h
  have hsplit : d.blocks = (d.blocks.take i ++ [d.blocks[i]]) ++ d.blocks.drop (i + 1) := by
    rw [List.append_assoc, List.singleton_append, List.getElem_cons_drop, List.take_append_drop]
  rw [upTo, encode, encode, ← List.foldl_append]
  exact congrArg (List.foldl _ _) hsplit

theorem extends_encode (h : d.blocks[i]? = some ps) :
    (d.upTo long i ps).Extends (d.encode long) := by
  rw [encode_eq h]
  exact Encoded.Extends.foldl_pushBlock _ _

theorem place_succ (h : d.blocks[i]? = some ps) (hi : i + 1 < d.blocks.length) (start : Nat) :
    (d.encode long).place start (i + 1) = d.behind long start i ps := by
  have hkeep (bs : List (List Piece)) (e : Encoded) (k : Nat) (hk : k < e.blocks.size) :
      (bs.foldl (Encoded.pushBlock long) e).blocks[k]? = e.blocks[k]? := by
    induction bs generalizing e with
    | nil => rfl
    | cons b bs ih =>
      have hpush : (e.pushBlock long b).blocks = e.blocks.push e.code.size :=
        Encoded.blocks_foldl_pushPiece ..
      rw [List.foldl_cons, ih _ (by rw [hpush, Array.size_push]; omega), hpush,
        Array.getElem?_push_lt hk, Array.getElem?_eq_getElem hk]
  have hsize : (d.upTo long i ps).blocks.size = i + 1 := by
    rw [upTo, size_blocks_encode, List.length_append, List.length_take, List.length_singleton]
    omega
  have hpush : ((d.upTo long i ps).pushBlock long d.blocks[i + 1]).blocks =
      (d.upTo long i ps).blocks.push (d.upTo long i ps).code.size := Encoded.blocks_foldl_pushPiece ..
  have hnext : (d.encode long).blocks[i + 1]? = some (d.upTo long i ps).code.size := by
    rw [encode_eq h, List.drop_eq_getElem_cons hi, List.foldl_cons, hkeep, hpush, ← hsize,
      Array.getElem?_push_size]
    rw [hpush, Array.size_push, hsize]
    omega
  rw [Encoded.place, Array.getD_eq_getD_getElem?, hnext]
  rfl

end Draft

theorem Isa.IsSound.exists_ending {τ : Type} {isa : Isa τ} (h : isa.IsSound) {names : Array String}
    {a : Allocated τ} {d : Draft} (hd : a.draft isa names = .ok d) {i : Nat} {b : MachBlock τ}
    (hb : a.func.blocks[i]? = some b) {before : List (Inst τ)} {last : Inst τ}
    (hlast : b.insts = before ++ [last]) : ∃ front ps, d.blocks[i]? = some (front ++ ps) ∧
      SoundPieces front ∧
      a.instPieces isa ⟨a.frame, names, i, a.func.blocks.size⟩ last = .ok ps := by
  obtain ⟨blocks, hblocks, hd⟩ := Except.bind_eq_ok hd
  obtain rfl := Except.ok.inj hd
  have hzip : a.func.blocks.toList.zipIdx[i]? = some (b, i) := by
    rw [List.getElem?_zipIdx, Array.getElem?_toList, hb, Nat.zero_add]
    rfl
  obtain ⟨pieces, hpieces, hblock⟩ := Except.exists_of_getElem?_mapM hblocks hzip
  obtain ⟨pss, hpss, rfl⟩ := Allocated.exists_of_blockPieces hblock
  rw [hlast, List.mapM_append] at hpss
  obtain ⟨fronts, hfronts, hpss⟩ := Except.bind_eq_ok hpss
  obtain ⟨lasts, hlasts, hpss⟩ := Except.bind_eq_ok hpss
  rw [List.mapM_cons, List.mapM_nil] at hlasts
  obtain ⟨ps, hps, hlasts⟩ := Except.bind_eq_ok hlasts
  obtain rfl := Except.ok.inj hlasts
  obtain rfl := Except.ok.inj hpss
  refine ⟨_ ++ fronts.flatten, ps, ?_, (h.entry a.frame i).append (.flatten fun qs hqs => ?_), hps⟩
  · rw [hpieces, List.append_assoc, List.flatten_append, List.flatten_singleton]
  · obtain ⟨inst, -, hqs⟩ := Except.exists_of_mem_mapM hfronts hqs
    exact h.instPieces a _ inst qs hqs

theorem Allocated.length_blocks {τ : Type} {isa : Isa τ} {names : Array String} {a : Allocated τ}
    {d : Draft} (hd : a.draft isa names = .ok d) : d.blocks.length = a.func.blocks.size := by
  obtain ⟨blocks, hblocks, hd⟩ := Except.bind_eq_ok hd
  obtain rfl := Except.ok.inj hd
  rw [← (Except.forall₂_of_mapM hblocks).length_eq, List.length_zipIdx, Array.length_toList]

end SeaNodes
