import SeaNodes.Code.Image
import SeaNodes.Proofs.Code.Decoded
import SeaNodes.Proofs.Tables

namespace SeaNodes

theorem Except.foldlM_eq_ok_iff {ε α σ : Type} {f : σ → α → Except ε σ} {g : σ → α → σ}
    {C : α → Prop} {I : σ → Prop} (xs : List α)
    (hstep : ∀ x ∈ xs, ∀ s s', I s → (f s x = .ok s' ↔ C x ∧ s' = g s x))
    (hnext : ∀ x ∈ xs, ∀ s, I s → I (g s x)) {s s' : σ} (hs : I s) :
    xs.foldlM f s = .ok s' ↔ (∀ x ∈ xs, C x) ∧ s' = xs.foldl g s := by
  induction xs generalizing s with
  | nil =>
    refine ⟨fun h => ⟨fun _ hx => absurd hx List.not_mem_nil, (Except.ok.inj h).symm⟩, ?_⟩
    rintro ⟨-, rfl⟩
    rfl
  | cons x xs ih =>
    rw [List.forall_mem_cons] at hstep hnext
    rw [List.foldlM_cons, List.forall_mem_cons, List.foldl_cons]
    have hrest := ih hstep.2 hnext.2 (hnext.1 s hs)
    constructor
    · intro h
      obtain ⟨t, ht, h⟩ := Except.bind_eq_ok h
      obtain ⟨hx, rfl⟩ := (hstep.1 s t hs).mp ht
      exact ⟨⟨hx, (hrest.mp h).1⟩, (hrest.mp h).2⟩
    · rintro ⟨⟨hx, hxs⟩, hs'⟩
      rw [(hstep.1 s _ hs).mpr ⟨hx, rfl⟩]
      exact hrest.mpr ⟨hxs, hs'⟩

theorem Except.map_eq_ok_iff {ε α β : Type} {x : Except ε α} {f : α → β} {b : β} :
    x.map f = .ok b ↔ ∃ a, x = .ok a ∧ f a = b := by
  cases x with
  | error e => exact iff_of_false (fun h => nomatch h) fun h => nomatch h.choose_spec.1
  | ok a =>
    constructor
    · exact fun h => ⟨a, rfl, Except.ok.inj h⟩
    · rintro ⟨_, ⟨⟩, rfl⟩
      rfl

theorem Except.forall₂_of_mapM {ε α β : Type} {f : α → Except ε β} {xs : List α} {ys : List β}
    (h : xs.mapM f = .ok ys) : List.Forall₂ (fun x y => f x = .ok y) xs ys := by
  induction xs generalizing ys with
  | nil =>
    obtain rfl := Except.ok.inj h
    exact .nil
  | cons x xs ih =>
    rw [List.mapM_cons] at h
    obtain ⟨y, hy, h⟩ := bind_eq_ok h
    obtain ⟨ys, hys, h⟩ := bind_eq_ok h
    obtain rfl := Except.ok.inj h
    exact .cons hy (ih hys)

section

variable {α : Type} {write : Array UInt8 → α → Array UInt8} {start stop : α → Nat}

/-- Writing changes only the bytes from `start` to `stop`. -/
structure IsLocal (write : Array UInt8 → α → Array UInt8) (start stop : α → Nat) : Prop where
  size : ∀ bytes x, (write bytes x).size = bytes.size
  outside : ∀ bytes x j, j < start x ∨ stop x ≤ j → (write bytes x)[j]? = bytes[j]?

theorem IsLocal.size_foldl (h : IsLocal write start stop) (xs : List α) (bytes : Array UInt8) :
    (xs.foldl write bytes).size = bytes.size := by
  induction xs generalizing bytes with
  | nil => rfl
  | cons x xs ih => rw [List.foldl_cons, ih, h.size]

theorem IsLocal.outside_foldl (h : IsLocal write start stop) (xs : List α) (bytes : Array UInt8)
    {j : Nat} (hj : ∀ x ∈ xs, j < start x ∨ stop x ≤ j) :
    (xs.foldl write bytes)[j]? = bytes[j]? := by
  induction xs generalizing bytes with
  | nil => rfl
  | cons x xs ih =>
    rw [List.forall_mem_cons] at hj
    rw [List.foldl_cons, ih _ hj.2, h.outside _ _ _ hj.1]

theorem IsLocal.inside_foldl (h : IsLocal write start stop) (xs : List α) (bytes : Array UInt8)
    (hxs : xs.Pairwise fun x y => stop x ≤ start y) {x : α} (hx : x ∈ xs) :
    ∃ before : Array UInt8, before.size = bytes.size ∧
      (∀ j, start x ≤ j → j < stop x → before[j]? = bytes[j]?) ∧
      ∀ j, start x ≤ j → j < stop x → (xs.foldl write bytes)[j]? = (write before x)[j]? := by
  induction xs generalizing bytes with
  | nil => exact absurd hx List.not_mem_nil
  | cons y ys ih =>
    rw [List.pairwise_cons] at hxs
    rw [List.foldl_cons]
    rcases List.mem_cons.mp hx with rfl | hx
    · refine ⟨bytes, rfl, fun _ _ _ => rfl, fun j _ hj => ?_⟩
      exact h.outside_foldl ys _ fun z hz => .inl (Nat.lt_of_lt_of_le hj (hxs.1 z hz))
    · obtain ⟨before, hsize, hbefore, hafter⟩ := ih (write bytes y) hxs.2 hx
      refine ⟨before, hsize.trans (h.size _ _), fun j hj hj' => ?_, hafter⟩
      rw [hbefore j hj hj', h.outside _ _ _ (.inr (Nat.le_trans (hxs.1 x hx) hj))]

end

/-- Where the code of a function goes. -/
def CodeLayout.start (l : CodeLayout) (pos : Nat) : Nat := l.functions.getD pos 0

theorem putFunction_eq_ok_iff {bytes bytes' : Array UInt8} {f : Encoded} {base : Nat} :
    putFunction bytes f base = .ok bytes' ↔
      base + f.code.size ≤ bytes.size ∧ bytes' = writeBytes bytes base f.code.toList := by
  have hfold (bs : List UInt8) (bytes : Array UInt8) (i : Nat) :
      (bs.foldl (fun (s : Array UInt8 × Nat) b => (s.1.setIfInBounds s.2 b, s.2 + 1))
        (bytes, i)).1 = writeBytes bytes i bs := by
    induction bs generalizing bytes i with
    | nil => rfl
    | cons b bs ih => rw [List.foldl_cons, ih, writeBytes]
  unfold putFunction
  rw [← Array.foldl_toList]
  split_ifs with h
  · rw [Except.ok.injEq, hfold, eq_comm, and_iff_right h]
  · rw [false_iff]
    exact fun h' => h h'.1

theorem isLocal_putFunction (l : CodeLayout) :
    IsLocal (fun bytes (x : Encoded × Nat) => writeBytes bytes (l.start x.2) x.1.code.toList)
      (fun x => l.start x.2) fun x => l.start x.2 + x.1.code.size :=
  ⟨fun _ _ => size_writeBytes _ _ _, fun _ _ _ h => getElem?_writeBytes_of_outside (by simpa using h)⟩

/-- A displacement that is to be filled in, with its place in the image. -/
structure Patch where
  kind : RelocKind
  site : Nat
  target : Nat

namespace Patch

def stop (p : Patch) : Nat := p.site + p.kind.width

/-- The displacement can be filled in. -/
def Fits (p : Patch) : Prop := p.kind.fits (p.kind.displacement p.site p.target)

def apply (bytes : Array UInt8) (p : Patch) : Array UInt8 :=
  p.kind.pack bytes p.site p.target (p.kind.displacement p.site p.target)

theorem patch_eq_ok_iff {p : Patch} {bytes bytes' : Array UInt8} (h : p.stop ≤ bytes.size) :
    p.kind.patch bytes p.site p.target = .ok bytes' ↔ p.Fits ∧ bytes' = p.apply bytes := by
  rw [RelocKind.patch_eq_ok_iff]
  exact and_congr_right fun _ => and_iff_right h

theorem isLocal_apply : IsLocal apply site stop :=
  ⟨fun _ _ => RelocKind.size_pack _ _ _ _ _, fun _ _ _ h => RelocKind.getElem?_pack_of_outside _ h⟩

/-- After all displacements are filled in, each leads to its target, and the bits around it are as
before. -/
theorem foldl_apply_spec {ps : List Patch} {bytes : Array UInt8}
    (hps : ps.Pairwise fun p q => p.stop ≤ q.site) {p : Patch} (hp : p ∈ ps)
    (hfits : p.Fits) (hsize : p.stop ≤ bytes.size) (hnear : p.site < 2 ^ 30 ∧ p.target < 2 ^ 30)
    (hlow : ∀ scale, p.kind = .a64AdrpLo12 scale → 2 ^ scale ∣ p.target % 4096) :
    (∀ base, 4096 ∣ base →
      p.kind.address base (ps.foldl apply bytes) p.site = base + p.target) ∧
    p.kind.fixedBits (ps.foldl apply bytes) p.site = p.kind.fixedBits bytes p.site := by
  obtain ⟨before, hbefore, hsame, hafter⟩ := isLocal_apply.inside_foldl ps bytes hps hp
  have hafter' (k : Nat) (hk : k < p.kind.width) :
      (ps.foldl apply bytes)[p.site + k]? = (p.apply before)[p.site + k]? :=
    hafter _ (Nat.le_add_right _ _) (Nat.add_lt_add_left hk _)
  have hsize' : p.site + p.kind.width ≤ before.size := hbefore ▸ hsize
  constructor
  · intro base hbase
    rw [p.kind.address_congr base hafter']
    have hmet : p.kind.miss (p.kind.displacement p.site p.target) = 0 := by
      apply RelocKind.miss_eq_zero
      unfold RelocKind.displacement
      split <;> omega
    refine (p.kind.address_pack hfits hsize' fun scale h => ⟨hbase, hlow scale h⟩).trans ?_
    rw [hmet, sub_zero]
  · rw [p.kind.fixedBits_congr hafter']
    refine (p.kind.fixedBits_pack hsize').trans (p.kind.fixedBits_congr fun k hk => ?_)
    exact hsame _ (Nat.le_add_right _ _) (Nat.add_lt_add_left hk _)

end Patch

namespace CodeLayout

variable {l : CodeLayout} {f : Encoded} {pos : Nat} {bytes bytes' : Array UInt8}

/-- What a relocation asks to fill in. -/
def patchOf (l : CodeLayout) (f : Encoded) (pos : Nat) (r : Reloc) : Patch :=
  ⟨r.kind, l.start pos + r.offset, (l.target? f pos r.target).getD 0⟩

def Fillable (l : CodeLayout) (f : Encoded) (pos : Nat) (r : Reloc) : Prop :=
  (l.target? f pos r.target).isSome ∧ (l.patchOf f pos r).Fits

def patches (l : CodeLayout) (f : Encoded) (pos : Nat) : List Patch :=
  f.relocs.toList.map (l.patchOf f pos)

theorem relocate_eq_ok_iff (h : ∀ p ∈ l.patches f pos, p.stop ≤ bytes.size) :
    relocate l bytes f pos = .ok bytes' ↔
      (∀ r ∈ f.relocs, l.Fillable f pos r) ∧ bytes' = (l.patches f pos).foldl Patch.apply bytes := by
  unfold relocate patches
  rw [← Array.foldlM_toList, List.foldl_map]
  refine (Except.foldlM_eq_ok_iff (C := l.Fillable f pos) (I := fun b => b.size = bytes.size)
    (g := fun b r => (l.patchOf f pos r).apply b) _ (fun r hr b b' hb => ?_)
    (fun r _ b hb => (Patch.isLocal_apply.size b _).trans hb) rfl).trans ?_
  · have hstop : (l.patchOf f pos r).stop ≤ b.size := hb ▸ h _ (List.mem_map_of_mem hr)
    have hpatch := @Patch.patch_eq_ok_iff _ b b' hstop
    unfold Fillable
    unfold patchOf at hpatch ⊢
    unfold resolve
    cases htarget : l.target? f pos r.target with
    | none => exact iff_of_false (fun h => nomatch h) fun h => nomatch h.1.1
    | some t =>
      rw [htarget] at hpatch
      rw [Option.isSome_some, and_iff_right rfl, ← hpatch]
      dsimp only [Option.getD_some, start, bind, Except.bind]
      cases r.kind.patch b (l.functions.getD pos 0 + r.offset) t with
      | ok c =>
        exact ⟨fun h => congrArg Except.ok (Except.ok.inj h),
          fun h => congrArg Except.ok (Except.ok.inj h)⟩
      | error e => exact iff_of_false (fun h => nomatch h) fun h => nomatch h
  · simp only [Array.mem_toList_iff]

end CodeLayout

namespace RelocKind

variable {kind : RelocKind} {code code' : Array UInt8} {site target : Nat} {e : PatchError}

theorem patch_eq_error_iff : kind.patch code site target = .error e ↔
    kind.fits (kind.displacement site target) = false ∧
        e = .outOfRange kind (kind.displacement site target) ∨
      kind.fits (kind.displacement site target) = true ∧ code.size < site + kind.width ∧
        e = .pastEnd kind site := by
  unfold patch
  dsimp only
  cases hfits : kind.fits (kind.displacement site target) with
  | false => simp [eq_comm]
  | true =>
    rw [Bool.not_true, if_neg Bool.false_ne_true]
    split_ifs with hend <;> simp [hend, eq_comm]

theorem miss_eq_zero_iff : kind.miss (kind.displacement site target) = 0 ↔
    ¬ (kind = .rvPcrelHiLo ∧ 2 ^ 31 - 2 ^ 11 ≤ (target : Int) - site) := by
  cases kind with
  | rvPcrelHiLo =>
    dsimp only [miss, splitMiss, displacement]
    split_ifs with h
    · exact iff_of_false (by norm_num) fun hmet => hmet ⟨rfl, h⟩
    · exact iff_of_true rfl fun hmiss => h hmiss.2
  | _ => exact iff_of_true rfl fun hmiss => nomatch hmiss.1

/-- When a displacement is filled in it fits, the code keeps its size, its other bytes and the bits
around the displacement, and the instruction set reads the target back, with the image mapped at any
place and for pages at the start of one, unless the offset of an upper and a lower part is one of the
last 2 ^ 11. When it is not filled in, that is for its size or the end of the code, whatever the code
holds. -/
theorem patch_inverts (kind : RelocKind) (code : Array UInt8) (site target base : Nat)
    (hpage : ∀ scale, kind = .a64AdrpLo12 scale → 4096 ∣ base ∧ 2 ^ scale ∣ target) :
    (∀ code', kind.patch code site target = .ok code' →
      kind.fits (kind.displacement site target) = true ∧ code'.size = code.size ∧
        (∀ j, j < site ∨ site + kind.width ≤ j → code'[j]? = code[j]?) ∧
        kind.fixedBits code' site = kind.fixedBits code site ∧
        (kind.address base code' site = base + target ↔
          ¬ (kind = .rvPcrelHiLo ∧ 2 ^ 31 - 2 ^ 11 ≤ (target : Int) - site))) ∧
      ∀ e, kind.patch code site target = .error e ↔
        kind.fits (kind.displacement site target) = false ∧
            e = .outOfRange kind (kind.displacement site target) ∨
          kind.fits (kind.displacement site target) = true ∧ code.size < site + kind.width ∧
            e = .pastEnd kind site := by
  refine ⟨fun code' hpatch => ?_, fun e => patch_eq_error_iff⟩
  obtain ⟨hfits, hsize, rfl⟩ := patch_eq_ok_iff.mp hpatch
  refine ⟨hfits, kind.size_pack _ _ _ _, fun j hj => kind.getElem?_pack_of_outside hj,
    kind.fixedBits_pack hsize, ?_⟩
  have hlow : ∀ scale, kind = .a64AdrpLo12 scale → 4096 ∣ base ∧ 2 ^ scale ∣ target % 4096 := by
    intro scale hkind
    obtain ⟨hbase, htarget⟩ := hpage scale hkind
    refine ⟨hbase, ?_⟩
    rcases Nat.le_total scale 12 with hle | hge
    · exact (Nat.dvd_mod_iff (Nat.pow_dvd_pow 2 hle)).mpr htarget
    · have hdvd : 4096 ∣ target := (Nat.pow_dvd_pow 2 hge).trans htarget
      rw [Nat.mod_eq_zero_of_dvd hdvd]
      exact Nat.dvd_zero _
  rw [kind.address_pack hfits hsize hlow, ← miss_eq_zero_iff]
  omega

def pageLoad : Array UInt8 := #[0x00, 0x00, 0x00, 0x90, 0x00, 0x00, 0x40, 0xf9]

/-- A load of eight bytes at the third page after the one that the code is mapped to. -/
theorem patch_inverts_pageLoad : ∃ code', (a64AdrpLo12 3).patch pageLoad 0 0x3008 = .ok code' ∧
    code' = #[0x00, 0x00, 0x00, 0xf0, 0x00, 0x04, 0x40, 0xf9] ∧
    (a64AdrpLo12 3).address 0x10000 code' 0 = 0x13008 := by
  have hpatch : (a64AdrpLo12 3).patch pageLoad 0 0x3008 =
      .ok #[0x00, 0x00, 0x00, 0xf0, 0x00, 0x04, 0x40, 0xf9] := by decide +kernel
  have hspec := patch_inverts (a64AdrpLo12 3) pageLoad 0 0x3008 0x10000 fun scale hkind => by
    cases hkind
    decide
  obtain ⟨-, -, -, -, haddress⟩ := hspec.1 _ hpatch
  refine ⟨_, hpatch, rfl, ?_⟩
  exact haddress.mpr fun h => nomatch h.1

/-- An upper part and a jump to where the lower part leads. -/
def pairedJump : Array UInt8 := #[0x17, 0x00, 0x00, 0x00, 0x67, 0x00, 0x00, 0x00]

/-- The last offset that counts as fitting leads to the byte before the code. -/
theorem patch_pairedJump_misses : rvPcrelHiLo.fits (2 ^ 31 - 1) = true ∧
    ∃ code', rvPcrelHiLo.patch pairedJump 0 (2 ^ 31 - 1) = .ok code' ∧
      rvPcrelHiLo.address (2 ^ 40) code' 0 = 2 ^ 40 - 2 ^ 31 - 1 := by
  refine ⟨by decide, #[0x17, 0x00, 0x00, 0x80, 0x67, 0x00, 0xf0, 0xff], ?_, ?_⟩ <;> decide +kernel

end RelocKind

end SeaNodes
