import Mathlib.Tactic.IntervalCases
import Mathlib.Tactic.NormNum
import Mathlib.Tactic.SplitIfs
import SeaNodes.Code.Reloc

namespace SeaNodes

section

variable {code code' : Array UInt8} {i i' j : Nat} {w field value : UInt32}

@[simp] theorem size_writeBytes (code : Array UInt8) (i : Nat) (bs : List UInt8) :
    (writeBytes code i bs).size = code.size := by
  induction bs generalizing code i with
  | nil => rfl
  | cons b bs ih => rw [writeBytes, ih, Array.size_setIfInBounds]

theorem getElem?_writeBytes (code : Array UInt8) (i : Nat) (bs : List UInt8) (j : Nat) :
    (writeBytes code i bs)[j]? =
      if i ≤ j ∧ j < i + bs.length ∧ j < code.size then bs[j - i]? else code[j]? := by
  induction bs generalizing code i with
  | nil =>
    rw [writeBytes, if_neg]
    simp only [List.length_nil]
    omega
  | cons b bs ih =>
    rw [writeBytes, ih, Array.size_setIfInBounds, List.length_cons, Array.getElem?_setIfInBounds]
    by_cases hij : i = j
    · subst hij
      rw [if_neg (by omega), if_pos rfl, Nat.sub_self]
      by_cases hi : i < code.size
      · rw [if_pos hi, if_pos (by omega)]
        rfl
      · rw [if_neg hi, if_neg (by omega), Array.getElem?_eq_none (Nat.le_of_not_lt hi)]
    · by_cases hin : i + 1 ≤ j ∧ j < i + 1 + bs.length ∧ j < code.size
      · rw [if_pos hin, if_pos (by omega), show j - i = j - (i + 1) + 1 by omega,
          List.getElem?_cons_succ]
      · rw [if_neg hin, if_neg hij, if_neg (by omega)]

theorem getElem?_writeBytes_of_outside {bs : List UInt8} (h : j < i ∨ i + bs.length ≤ j) :
    (writeBytes code i bs)[j]? = code[j]? := by
  rw [getElem?_writeBytes, if_neg (by omega)]

theorem read32_congr (h : ∀ k < 4, code'[i' + k]? = code[i + k]?) :
    read32 code' i' = read32 code i := by
  have hbyte (k : Nat) (hk : k < 4) : code'.getD (i' + k) 0 = code.getD (i + k) 0 := by
    rw [Array.getD_eq_getD_getElem?, Array.getD_eq_getD_getElem?, h k hk]
  unfold read32
  dsimp only
  rw [hbyte 0 (by omega), hbyte 1 (by omega), hbyte 2 (by omega), hbyte 3 (by omega)]

theorem word_of_bytes (w : UInt32) :
    w.toUInt8.toUInt32 ||| (w >>> 8).toUInt8.toUInt32 <<< 8 |||
      (w >>> 16).toUInt8.toUInt32 <<< 16 ||| (w >>> 24).toUInt8.toUInt32 <<< 24 = w := by
  apply UInt32.eq_of_toBitVec_eq
  apply BitVec.eq_of_getLsbD_eq
  intro k hk
  simp only [UInt32.toBitVec_or, UInt32.toBitVec_shiftLeft, UInt32.toBitVec_shiftRight,
    UInt8.toBitVec_toUInt32, UInt32.toBitVec_toUInt8, UInt32.toBitVec_ofNat, BitVec.ofNat_eq_ofNat,
    BitVec.reduceMod, BitVec.shiftLeft_eq', BitVec.ushiftRight_eq', BitVec.toNat_ofNat,
    BitVec.getLsbD_or, BitVec.getLsbD_setWidth, BitVec.getLsbD_shiftLeft, BitVec.getLsbD_ushiftRight]
  grind

theorem read32_writeBytes (h : i + 4 ≤ code.size) :
    read32 (writeBytes code i (bytes32 w)) i = w := by
  have hbyte (k : Nat) (hk : k < 4) :
      (writeBytes code i (bytes32 w)).getD (i + k) 0 = (bytes32 w).getD k 0 := by
    have hlength : (bytes32 w).length = 4 := rfl
    rw [Array.getD_eq_getD_getElem?, getElem?_writeBytes, if_pos (by omega), Nat.add_sub_cancel_left,
      List.getD_eq_getElem?_getD]
  unfold read32
  dsimp only
  rw [hbyte 0 (by omega), hbyte 1 (by omega), hbyte 2 (by omega), hbyte 3 (by omega)]
  exact word_of_bytes w

theorem size_setField (code : Array UInt8) (i : Nat) (field value : UInt32) :
    (setField code i field value).size = code.size := size_writeBytes ..

theorem read32_setField (h : i + 4 ≤ code.size) : read32 (setField code i field value) i =
    read32 code i &&& ~~~field ||| value &&& field := read32_writeBytes h

theorem getElem?_setField_of_outside (h : j < i ∨ i + 4 ≤ j) :
    (setField code i field value)[j]? = code[j]? := getElem?_writeBytes_of_outside h

theorem read32_setField_of_outside (h : j + 4 ≤ i ∨ i + 4 ≤ j) :
    read32 (setField code i field value) j = read32 code j :=
  read32_congr fun k hk => getElem?_setField_of_outside (by omega)

end

section

variable {n : Nat} {d : Int}

theorem fitsSigned_iff {v : Int} {bits : Nat} :
    fitsSigned v bits ↔ -2 ^ (bits - 1) ≤ v ∧ v < 2 ^ (bits - 1) := decide_eq_true_iff

theorem toInt_ofInt_of_fits (hn : 0 < n) (h : fitsSigned d n) : (BitVec.ofInt n d).toInt = d :=
  have hfits := fitsSigned_iff.mp h
  BitVec.toInt_ofInt_eq_self hn hfits.1 hfits.2

theorem extractLsb'_word32 (hn : n ≤ 32) (d : Int) :
    (word32 d).toBitVec.extractLsb' 0 n = BitVec.ofInt n d := by
  apply BitVec.eq_of_toNat_eq
  have hdvd : ((2 : Int) ^ n) ∣ (2 ^ 32 : Nat) := by
    exact_mod_cast Nat.pow_dvd_pow 2 hn
  have hmod : (d % (2 ^ 32 : Nat)) % (2 ^ n : Nat) = d % (2 ^ n : Nat) :=
    Int.emod_emod_of_dvd d (by exact_mod_cast hdvd)
  have hpos : 0 ≤ d % (2 ^ 32 : Nat) := Int.emod_nonneg _ (by norm_num)
  rw [BitVec.extractLsb'_toNat, Nat.shiftRight_zero, word32, BitVec.toNat_ofInt, BitVec.toNat_ofInt,
    ← hmod, Int.toNat_emod hpos (Int.natCast_nonneg _), Int.toNat_natCast]

theorem extractLsb'_field {w field value : UInt32} {start n : Nat}
    (h : field.toBitVec.extractLsb' start n = BitVec.allOnes n) :
    (w &&& ~~~field ||| value &&& field).toBitVec.extractLsb' start n =
      value.toBitVec.extractLsb' start n := by
  apply BitVec.eq_of_getLsbD_eq
  intro i hi
  have hone := congrArg (·.getLsbD i) h
  simp only [BitVec.getLsbD_extractLsb', BitVec.getLsbD_allOnes, hi, decide_true,
    Bool.true_and] at hone
  simp [hi, hone]

theorem and_not_field (w field value : UInt32) :
    (w &&& ~~~field ||| value &&& field) &&& ~~~field = w &&& ~~~field := by
  apply UInt32.eq_of_toBitVec_eq
  apply BitVec.eq_of_getLsbD_eq
  intro i hi
  simp only [UInt32.toBitVec_and, UInt32.toBitVec_or, UInt32.toBitVec_not, BitVec.getLsbD_and,
    BitVec.getLsbD_or, BitVec.getLsbD_not, hi]
  cases w.toBitVec.getLsbD i <;> cases field.toBitVec.getLsbD i <;>
    cases value.toBitVec.getLsbD i <;> rfl

theorem extractLsb'_shiftLeft {value : UInt32} (k : UInt32) (start n : Nat) (hk : k.toNat = start)
    (hn : 0 < n ∧ start + n ≤ 32) :
    (value <<< k).toBitVec.extractLsb' start n = value.toBitVec.extractLsb' 0 n := by
  have hmod : (k.toBitVec % 32).toNat = start := by
    rw [BitVec.toNat_umod, UInt32.toNat_toBitVec, hk]
    exact Nat.mod_eq_of_lt (show start < 32 by omega)
  rw [UInt32.toBitVec_shiftLeft, BitVec.shiftLeft_eq', hmod]
  apply BitVec.eq_of_getLsbD_eq
  intro i hi
  rw [BitVec.getLsbD_extractLsb', BitVec.getLsbD_extractLsb', BitVec.getLsbD_shiftLeft]
  simp [show start + i < 32 by omega]

theorem pageBits_spec (x : UInt32) :
    let b := (x <<< 29 ||| (x >>> 2 &&& 0x7ffff) <<< 5).toBitVec
    b.extractLsb' 5 19 ++ b.extractLsb' 29 2 = x.toBitVec.extractLsb' 0 21 := by
  apply BitVec.eq_of_getLsbD_eq
  intro i hi
  simp only [BitVec.getLsbD_append, BitVec.getLsbD_extractLsb', UInt32.toBitVec_or,
    UInt32.toBitVec_and, UInt32.toBitVec_shiftLeft, UInt32.toBitVec_shiftRight, BitVec.getLsbD_or,
    UInt32.toBitVec_ofNat, BitVec.ofNat_eq_ofNat, BitVec.reduceMod, BitVec.shiftLeft_eq',
    BitVec.ushiftRight_eq', BitVec.toNat_ofNat, BitVec.getLsbD_and, BitVec.getLsbD_shiftLeft,
    BitVec.getLsbD_ushiftRight]
  interval_cases i <;> simp

theorem branchBits_spec {x : UInt32} (h : x.toBitVec.getLsbD 0 = false) :
    let b := (RelocKind.branchBits x).toBitVec
    b.extractLsb' 31 1 ++ b.extractLsb' 7 1 ++ b.extractLsb' 25 6 ++ b.extractLsb' 8 4 ++ 0#1 =
      x.toBitVec.extractLsb' 0 13 := by
  apply BitVec.eq_of_getLsbD_eq
  intro i hi
  simp only [RelocKind.branchBits, BitVec.getLsbD_append, BitVec.getLsbD_extractLsb',
    UInt32.toBitVec_or, UInt32.toBitVec_and, UInt32.toBitVec_shiftLeft, UInt32.toBitVec_shiftRight,
    BitVec.getLsbD_or,
    UInt32.toBitVec_ofNat, BitVec.ofNat_eq_ofNat, BitVec.reduceMod, BitVec.shiftLeft_eq',
    BitVec.ushiftRight_eq', BitVec.toNat_ofNat, BitVec.getLsbD_and, BitVec.getLsbD_shiftLeft,
    BitVec.getLsbD_ushiftRight]
  interval_cases i
  · simpa using h
  all_goals simp

theorem jumpBits_spec {x : UInt32} (h : x.toBitVec.getLsbD 0 = false) :
    let b := (RelocKind.jumpBits x).toBitVec
    b.extractLsb' 31 1 ++ b.extractLsb' 12 8 ++ b.extractLsb' 20 1 ++ b.extractLsb' 21 10 ++ 0#1 =
      x.toBitVec.extractLsb' 0 21 := by
  apply BitVec.eq_of_getLsbD_eq
  intro i hi
  simp only [RelocKind.jumpBits, BitVec.getLsbD_append, BitVec.getLsbD_extractLsb',
    UInt32.toBitVec_or, UInt32.toBitVec_and, UInt32.toBitVec_shiftLeft, UInt32.toBitVec_shiftRight,
    BitVec.getLsbD_or,
    UInt32.toBitVec_ofNat, BitVec.ofNat_eq_ofNat, BitVec.reduceMod, BitVec.shiftLeft_eq',
    BitVec.ushiftRight_eq', BitVec.toNat_ofNat, BitVec.getLsbD_and, BitVec.getLsbD_shiftLeft,
    BitVec.getLsbD_ushiftRight]
  interval_cases i
  · simpa using h
  all_goals simp

theorem getLsbD_zero_word32 (h : d % 2 = 0) : (word32 d).toBitVec.getLsbD 0 = false := by
  have hzero : BitVec.ofInt 1 d = 0#1 := by
    apply BitVec.eq_of_toNat_eq
    rw [BitVec.toNat_ofInt]
    simp [h]
  have hbit := congrArg (·.getLsbD 0) ((extractLsb'_word32 (n := 1) (by decide) d).trans hzero)
  simpa using hbit

theorem toInt_append_zero (h : fitsSigned d 20) : (BitVec.ofInt 20 d ++ 0#12).toInt = d * 4096 := by
  rw [BitVec.toInt_append]
  simp [toInt_ofInt_of_fits (by decide) h, Int.mul_comm]

end

namespace RelocKind

/-- The address that the code at `site` refers to when the image is mapped at `base`. -/
def address (kind : RelocKind) (base : Nat) (bytes : Array UInt8) (site : Nat) : Int :=
  let pc : Int := base + site
  let w := (read32 bytes site).toBitVec
  let next := (read32 bytes (site + 4)).toBitVec
  match kind with
  | .x86Rel8 => pc + 1 + (bytes.getD site 0).toBitVec.toInt
  | .x86Rel32 => pc + 4 + w.toInt
  | .a64Branch26 => pc + 4 * (w.extractLsb' 0 26).toInt
  | .a64Branch19 => pc + 4 * (w.extractLsb' 5 19).toInt
  | .a64AdrpLo12 scale =>
    (pc / 4096 + (w.extractLsb' 5 19 ++ w.extractLsb' 29 2).toInt) * 4096
      + (next.extractLsb' 10 12).toNat * 2 ^ scale
  | .rvBranch =>
    pc + (w.extractLsb' 31 1 ++ w.extractLsb' 7 1 ++ w.extractLsb' 25 6 ++ w.extractLsb' 8 4
      ++ 0#1).toInt
  | .rvJal =>
    pc + (w.extractLsb' 31 1 ++ w.extractLsb' 12 8 ++ w.extractLsb' 20 1 ++ w.extractLsb' 21 10
      ++ 0#1).toInt
  | .rvPcrelHiLo => pc + (w.extractLsb' 12 20 ++ 0#12).toInt + (next.extractLsb' 20 12).toInt

/-- The bits at `site` that are not part of the displacement. -/
def fixedBits (kind : RelocKind) (bytes : Array UInt8) (site : Nat) : List UInt32 :=
  let w := read32 bytes site
  let next := read32 bytes (site + 4)
  match kind with
  | .x86Rel8 | .x86Rel32 => []
  | .a64Branch26 => [w &&& ~~~0x03ffffff]
  | .a64Branch19 => [w &&& ~~~0x00ffffe0]
  | .a64AdrpLo12 _ => [w &&& ~~~0x60ffffe0, next &&& ~~~0x003ffc00]
  | .rvBranch => [w &&& ~~~0xfe000f80]
  | .rvJal => [w &&& ~~~0xfffff000]
  | .rvPcrelHiLo => [w &&& ~~~0xfffff000, next &&& ~~~0xfff00000]

section

variable {code code' : Array UInt8} {site site' target base : Nat} {d : Int}

theorem words_congr (kind : RelocKind) (h : ∀ k < kind.width, code'[site' + k]? = code[site + k]?) :
    (4 ≤ kind.width → read32 code' site' = read32 code site) ∧
      (kind.width = 8 → read32 code' (site' + 4) = read32 code (site + 4)) := by
  refine ⟨fun hw => read32_congr fun k hk => h k (by omega), fun hw => read32_congr fun k hk => ?_⟩
  rw [Nat.add_assoc, Nat.add_assoc]
  exact h (4 + k) (by omega)

theorem address_congr (kind : RelocKind) (base : Nat)
    (h : ∀ k < kind.width, code'[site + k]? = code[site + k]?) :
    kind.address base code' site = kind.address base code site := by
  obtain ⟨hword, hnext⟩ := kind.words_congr h
  cases kind with
  | x86Rel8 =>
    have hbyte := h 0 Nat.one_pos
    rw [Nat.add_zero] at hbyte
    simp only [address, Array.getD_eq_getD_getElem?, hbyte]
  | a64AdrpLo12 | rvPcrelHiLo => simp only [address, hword (by simp [width]), hnext rfl]
  | _ => simp only [address, hword (by simp [width])]

theorem fixedBits_congr (kind : RelocKind)
    (h : ∀ k < kind.width, code'[site' + k]? = code[site + k]?) :
    kind.fixedBits code' site' = kind.fixedBits code site := by
  obtain ⟨hword, hnext⟩ := kind.words_congr h
  cases kind with
  | x86Rel8 | x86Rel32 => rfl
  | a64AdrpLo12 | rvPcrelHiLo => simp only [fixedBits, hword (by simp [width]), hnext rfl]
  | _ => simp only [fixedBits, hword (by simp [width])]

theorem patch_eq_ok_iff {kind : RelocKind} : kind.patch code site target = .ok code' ↔
    kind.fits (kind.displacement site target) = true ∧ site + kind.width ≤ code.size ∧
      code' = kind.pack code site target (kind.displacement site target) := by
  unfold patch
  dsimp only
  cases hfits : kind.fits (kind.displacement site target) with
  | false => exact iff_of_false (fun h => nomatch h) fun h => nomatch h.1
  | true =>
    rw [Bool.not_true, if_neg Bool.false_ne_true]
    split_ifs with hend
    · apply iff_of_false (fun h => nomatch h)
      rintro ⟨-, hin, -⟩
      omega
    · rw [Except.ok.injEq, and_iff_right rfl, and_iff_right (Nat.le_of_not_lt hend), eq_comm]

theorem size_pack (kind : RelocKind) (code : Array UInt8) (site target : Nat) (d : Int) :
    (kind.pack code site target d).size = code.size := by
  cases kind <;> simp [pack, size_setField]

theorem getElem?_pack_of_outside (kind : RelocKind) {j : Nat}
    (h : j < site ∨ site + kind.width ≤ j) :
    (kind.pack code site target d)[j]? = code[j]? := by
  cases kind with
  | x86Rel8 => exact getElem?_writeBytes_of_outside h
  | x86Rel32 => exact getElem?_writeBytes_of_outside h
  | a64AdrpLo12 | rvPcrelHiLo =>
    have h : j < site ∨ site + 8 ≤ j := h
    exact (getElem?_setField_of_outside (by omega)).trans (getElem?_setField_of_outside (by omega))
  | _ => exact getElem?_setField_of_outside h

theorem fixedBits_pack (kind : RelocKind) (h : site + kind.width ≤ code.size) :
    kind.fixedBits (kind.pack code site target d) site = kind.fixedBits code site := by
  cases kind with
  | x86Rel8 | x86Rel32 => rfl
  | a64AdrpLo12 | rvPcrelHiLo =>
    have h : site + 8 ≤ code.size := h
    dsimp only [fixedBits, pack]
    rw [read32_setField_of_outside (by omega), read32_setField (by omega),
      read32_setField (by rw [size_setField]; omega), read32_setField_of_outside (by omega),
      and_not_field, and_not_field]
  | _ =>
    dsimp only [fixedBits, pack]
    rw [read32_setField h, and_not_field]

/-- How far the two parts of an offset miss it: an upper part that is rounded up beyond the greatest one
wraps around. -/
def splitMiss (d : Int) : Int := if 2 ^ 31 - 2 ^ 11 ≤ d then 2 ^ 32 else 0

theorem splitHiLo_spec (hd : -2 ^ 31 ≤ d ∧ d < 2 ^ 31) :
    (BitVec.ofInt 20 (splitHiLo d).1 ++ 0#12).toInt + (BitVec.ofInt 12 (splitHiLo d).2).toInt =
      d - splitMiss d := by
  norm_num at hd
  have hlow : (BitVec.ofInt 12 (splitHiLo d).2).toInt = d - (d + 0x800) / 0x1000 * 0x1000 :=
    toInt_ofInt_of_fits (by decide) (fitsSigned_iff.mpr (by norm_num [splitHiLo]; omega))
  -- the upper part counts modulo 2 ^ 20, so it is the one that fits
  have hhigh (hi : Int) (hmod : (splitHiLo d).1 % 0x100000 = hi % 0x100000)
      (hfits : -2 ^ 19 ≤ hi ∧ hi < 2 ^ 19) :
      (BitVec.ofInt 20 (splitHiLo d).1 ++ 0#12).toInt = hi * 0x1000 := by
    have heq : BitVec.ofInt 20 (splitHiLo d).1 = BitVec.ofInt 20 hi := by
      apply BitVec.eq_of_toNat_eq
      rw [BitVec.toNat_ofInt, BitVec.toNat_ofInt]
      exact congrArg Int.toNat hmod
    rw [heq, toInt_append_zero (fitsSigned_iff.mpr hfits)]
  unfold splitMiss
  split_ifs with hmiss
  · norm_num at hmiss
    rw [hlow, hhigh ((d + 0x800) / 0x1000 - 0x100000) (by norm_num [splitHiLo])
      (by norm_num; omega)]
    omega
  · norm_num at hmiss
    rw [hlow, hhigh ((d + 0x800) / 0x1000) (by norm_num [splitHiLo]) (by norm_num; omega)]
    omega

/-- How far the target is missed when a displacement is filled in. -/
def miss : RelocKind → Int → Int
  | .rvPcrelHiLo, d => splitMiss d
  | _, _ => 0

theorem miss_eq_zero (kind : RelocKind) (h : d < 2 ^ 31 - 2 ^ 11) : kind.miss d = 0 := by
  unfold miss splitMiss
  split
  · exact if_neg (not_le.mpr h)
  · rfl

theorem getD_writeBytes_single (hsite : site < code.size) (x : UInt32) :
    ((writeBytes code site [x.toUInt8]).getD site 0).toBitVec = x.toBitVec.extractLsb' 0 8 := by
  have hbyte : (writeBytes code site [x.toUInt8]).getD site 0 = x.toUInt8 := by
    rw [Array.getD_eq_getD_getElem?, getElem?_writeBytes,
      if_pos ⟨le_rfl, Nat.lt_succ_self site, hsite⟩, Nat.sub_self]
    rfl
  rw [hbyte]
  apply BitVec.eq_of_toNat_eq
  simp

theorem pageOffset_spec {scale : Nat} (hscale : 2 ^ scale ∣ target % 4096) :
    ((BitVec.ofInt 12 ((target : Int) % 4096 / (Nat.pow 2 scale : Nat))).toNat : Int) * 2 ^ scale =
      (target : Int) % 4096 := by
  obtain ⟨low, hlow⟩ := hscale
  have hpos : 0 < 2 ^ scale := Nat.two_pow_pos scale
  have hlt : low < 4096 := by
    have hle := Nat.le_mul_of_pos_left low hpos
    have := Nat.mod_lt target (show 0 < 4096 by decide)
    omega
  have hmod : (target : Int) % 4096 = (2 ^ scale : Nat) * low := by exact_mod_cast hlow
  rw [hmod, Nat.pow_eq, Int.mul_ediv_cancel_left _ (Int.natCast_ne_zero.mpr hpos.ne'),
    BitVec.ofInt_natCast, BitVec.toNat_ofNat, Nat.mod_eq_of_lt hlt, Int.mul_comm]
  push_cast
  rfl

/-- What is filled in leads to the target, up to the offsets that are missed. -/
theorem address_pack (kind : RelocKind) (hfits : kind.fits (kind.displacement site target))
    (hsize : site + kind.width ≤ code.size)
    (hpage : ∀ scale, kind = .a64AdrpLo12 scale → 4096 ∣ base ∧ 2 ^ scale ∣ target % 4096) :
    kind.address base (kind.pack code site target (kind.displacement site target)) site =
      base + target - kind.miss (kind.displacement site target) := by
  cases kind with
  | x86Rel8 =>
    have hsite : site < code.size := hsize
    simp only [fits, displacement] at hfits
    simp only [address, pack, displacement, miss, getD_writeBytes_single hsite]
    rw [extractLsb'_word32 (by decide), toInt_ofInt_of_fits (by decide) hfits]
    omega
  | x86Rel32 =>
    simp only [fits, displacement] at hfits
    simp only [address, pack, displacement, miss, read32_writeBytes hsize]
    rw [word32, toInt_ofInt_of_fits (by decide) hfits]
    omega
  | a64Branch26 =>
    simp only [fits, displacement, Bool.and_eq_true, beq_iff_eq] at hfits
    simp only [address, pack, displacement, miss, read32_setField hsize]
    rw [extractLsb'_field (by decide), extractLsb'_word32 (by decide),
      toInt_ofInt_of_fits (by decide) hfits.2]
    omega
  | a64Branch19 =>
    simp only [fits, displacement, Bool.and_eq_true, beq_iff_eq] at hfits
    simp only [address, pack, displacement, miss, read32_setField hsize]
    rw [extractLsb'_field (by decide), extractLsb'_shiftLeft 5 5 19 rfl (by decide),
      extractLsb'_word32 (by decide), toInt_ofInt_of_fits (by decide) hfits.2]
    omega
  | a64AdrpLo12 scale =>
    have hsize : site + 8 ≤ code.size := hsize
    obtain ⟨hbase, hscale⟩ := hpage scale rfl
    simp only [fits, displacement] at hfits
    simp only [address, pack, displacement, miss]
    rw [read32_setField_of_outside (by omega), read32_setField (by omega),
      read32_setField (by rw [size_setField]; omega), extractLsb'_field (by decide),
      extractLsb'_field (by decide), extractLsb'_field (by decide), pageBits_spec,
      extractLsb'_word32 (by decide),
      toInt_ofInt_of_fits (by decide) hfits, extractLsb'_shiftLeft 10 10 12 rfl (by decide),
      extractLsb'_word32 (by decide), pageOffset_spec hscale]
    obtain ⟨b, rfl⟩ := hbase
    push_cast
    omega
  | rvBranch =>
    simp only [fits, displacement, Bool.and_eq_true, beq_iff_eq] at hfits
    simp only [address, pack, displacement, miss, read32_setField hsize]
    rw [extractLsb'_field (by decide), extractLsb'_field (by decide),
      extractLsb'_field (by decide), extractLsb'_field (by decide),
      branchBits_spec (getLsbD_zero_word32 hfits.1), extractLsb'_word32 (by decide),
      toInt_ofInt_of_fits (by decide) hfits.2]
    omega
  | rvJal =>
    simp only [fits, displacement, Bool.and_eq_true, beq_iff_eq] at hfits
    simp only [address, pack, displacement, miss, read32_setField hsize]
    rw [extractLsb'_field (by decide), extractLsb'_field (by decide),
      extractLsb'_field (by decide), extractLsb'_field (by decide),
      jumpBits_spec (getLsbD_zero_word32 hfits.1), extractLsb'_word32 (by decide),
      toInt_ofInt_of_fits (by decide) hfits.2]
    omega
  | rvPcrelHiLo =>
    have hsize : site + 8 ≤ code.size := hsize
    have hrange := fitsSigned_iff.mp hfits
    simp only [displacement] at hrange
    simp only [address, pack, displacement, miss]
    rw [read32_setField_of_outside (by omega), read32_setField (by omega),
      read32_setField (by rw [size_setField]; omega), extractLsb'_field (by decide),
      extractLsb'_field (by decide),
      extractLsb'_shiftLeft 12 12 20 rfl (by decide), extractLsb'_shiftLeft 20 20 12 rfl (by decide),
      extractLsb'_word32 (by decide), extractLsb'_word32 (by decide), Int.add_assoc,
      splitHiLo_spec hrange]
    omega

end

end RelocKind

end SeaNodes
