import Mathlib.Data.List.GetD
import Mathlib.Logic.Relation
import Mathlib.Tactic.NormNum
import Mathlib.Tactic.SplitIfs
import SeaNodes.Graph.Op
import SeaNodes.Machine.Registers
import SeaNodes.Proofs.Code.Decoded

namespace SeaNodes

theorem signExtend_setWidth {x : BitVec 64} (hlow : -2 ^ 31 ≤ x.toInt) (hhigh : x.toInt < 2 ^ 31) :
    (x.setWidth 32).signExtend 64 = x := by
  apply BitVec.eq_of_toInt_eq
  rw [BitVec.toInt_signExtend_of_le (by decide), BitVec.toInt_setWidth]
  rw [BitVec.toInt_eq_toNat_cond] at hlow hhigh ⊢
  rw [Int.bmod_def]
  norm_num at hlow hhigh ⊢
  split_ifs at hlow hhigh ⊢ <;> omega

theorem msb_bne_overflow {d : Int} (hlow : -2 ^ 64 ≤ d) (hhigh : d < 2 ^ 64) :
    ((BitVec.ofInt 64 d).msb != decide ((BitVec.ofInt 64 d).toInt ≠ d)) = decide (d < 0) := by
  norm_num at hlow hhigh
  rw [BitVec.msb_eq_toInt, BitVec.toInt_ofInt, Int.bmod_def]
  norm_num
  split_ifs with h
  · by_cases hd : d < 0 <;> simp [hd] <;> omega
  · by_cases hd : d < 0 <;> simp [hd] <;> omega

theorem ofInt_eq_zero_iff {d : Int} (hlow : -2 ^ 64 < d) (hhigh : d < 2 ^ 64) :
    BitVec.ofInt 64 d = 0 ↔ d = 0 := by
  norm_num at hlow hhigh
  rw [← BitVec.toInt_inj, BitVec.toInt_ofInt, BitVec.ofNat_eq_ofNat, BitVec.toInt_zero, Int.bmod_def]
  norm_num
  split_ifs with h <;> omega

theorem sub_eq_ofInt (a b : BitVec 64) : a - b = BitVec.ofInt 64 (a.toInt - b.toInt) := by
  apply BitVec.eq_of_toInt_eq
  rw [BitVec.toInt_sub, BitVec.toInt_ofInt]

theorem toInt_bounds (a : BitVec 64) : -2 ^ 63 ≤ a.toInt ∧ a.toInt < 2 ^ 63 :=
  ⟨BitVec.le_toInt a, BitVec.toInt_lt⟩

theorem sub_eq_zero_iff (a b : BitVec 64) : a - b = 0 ↔ a = b := by
  have ha := toInt_bounds a
  have hb := toInt_bounds b
  rw [sub_eq_ofInt, ofInt_eq_zero_iff (by omega) (by omega), ← BitVec.toInt_inj]
  omega

theorem msb_sub_bne_overflow (a b : BitVec 64) :
    ((a - b).msb != decide ((a - b).toInt ≠ a.toInt - b.toInt)) = decide (a.toInt < b.toInt) := by
  have ha := toInt_bounds a
  have hb := toInt_bounds b
  have h := msb_bne_overflow (d := a.toInt - b.toInt) (by omega) (by omega)
  rw [← sub_eq_ofInt] at h
  refine h.trans ?_
  rw [decide_eq_decide]
  omega

namespace CmpOp

variable (x y : Int64)

theorem evalInt_eq : CmpOp.eq.evalInt x y = decide (x.toBitVec = y.toBitVec) := by
  rw [evalInt, Bool.eq_iff_iff, beq_iff_eq, decide_eq_true_iff, Int64.toBitVec_inj]

theorem evalInt_ne : CmpOp.ne.evalInt x y = !decide (x.toBitVec = y.toBitVec) := by
  rw [← evalInt_eq]
  rfl

theorem evalInt_lt : CmpOp.lt.evalInt x y = decide (x.toBitVec.toInt < y.toBitVec.toInt) := by
  rw [evalInt, decide_eq_decide]
  exact Int64.lt_iff_toInt_lt

theorem evalInt_le : CmpOp.le.evalInt x y = decide (x.toBitVec.toInt ≤ y.toBitVec.toInt) := by
  rw [evalInt, decide_eq_decide]
  exact Int64.le_iff_toInt_le

end CmpOp

namespace Double

/-- How two numbers are ordered; a NaN is not ordered. -/
def order (x y : Double) : Option Ordering := x.toFloat.toModel.compare y.toFloat.toModel

variable (x y : Double)

theorem eq_eq_order : x.eq y = (x.order y == some .eq) := rfl

theorem lt_eq_order : x.lt y = (x.order y == some .lt) := by
  rw [Bool.eq_iff_iff, lt, decide_eq_true_iff]
  exact decide_eq_true_iff

theorem le_eq_order : x.le y = (x.order y).any (·.isLE) := by
  rw [Bool.eq_iff_iff, le, decide_eq_true_iff]
  exact decide_eq_true_iff

theorem order_swap : y.order x = (x.order y).map Ordering.swap := by
  unfold order Float.Model.compare
  cases x.toFloat.toModel.unpack with
  | notANumber => cases y.toFloat.toModel.unpack <;> rfl
  | infinity s =>
    cases y.toFloat.toModel.unpack with
    | infinity t => cases s <;> cases t <;> rfl
    | _ => cases s <;> rfl
  | zero s =>
    cases y.toFloat.toModel.unpack with
    | zero t => rfl
    | notANumber => rfl
    | infinity t | finite t => cases t <;> rfl
  | finite s m e =>
    cases y.toFloat.toModel.unpack with
    | notANumber => cases s <;> rfl
    | infinity t => cases s <;> cases t <;> rfl
    | zero t => cases s <;> rfl
    | finite t m' e' =>
      have hthen : (compare e' e).then (compare m' m) =
          ((compare e e').then (compare m m')).swap := by
        rw [Ordering.swap_then, Int.compare_swap, Nat.compare_swap]
      cases s <;> cases t
      · exact congrArg (some ∘ Ordering.swap) hthen
      · rfl
      · rfl
      · exact congrArg some hthen

end Double

section

variable {r k w w' mask : UInt32} {start n m : Nat}

theorem extractLsb'_field_of_le (hr : r.toNat < 2 ^ m) (hk : k.toNat < 32)
    (h : k.toNat + m ≤ start) : (r <<< k).toBitVec.extractLsb' start n = 0#n := by
  apply BitVec.eq_of_getLsbD_eq
  intro i hi
  rw [BitVec.getLsbD_extractLsb', UInt32.toBitVec_shiftLeft, BitVec.shiftLeft_eq',
    BitVec.getLsbD_shiftLeft, BitVec.toNat_umod, UInt32.toNat_toBitVec]
  have hmod : k.toNat % (32 : BitVec 32).toNat = k.toNat := Nat.mod_eq_of_lt hk
  rw [hmod]
  have hbit : r.toBitVec.getLsbD (start + i - k.toNat) = false := by
    apply Nat.testBit_lt_two_pow
    exact Nat.lt_of_lt_of_le hr (Nat.pow_le_pow_right Nat.two_pos (by omega))
  simp [hbit]

theorem extractLsb'_of_lt (hr : r.toNat < 2 ^ m) (h : m ≤ start) :
    r.toBitVec.extractLsb' start n = 0#n := by
  have hfield := extractLsb'_field_of_le (k := 0) (n := n) hr (by decide) (h.trans' (by simp))
  rwa [UInt32.shiftLeft_zero] at hfield

theorem extractLsb'_field_of_ge (hk : k.toNat < 32) (h : start + n ≤ k.toNat) :
    (r <<< k).toBitVec.extractLsb' start n = 0#n := by
  apply BitVec.eq_of_getLsbD_eq
  intro i hi
  rw [BitVec.getLsbD_extractLsb', UInt32.toBitVec_shiftLeft, BitVec.shiftLeft_eq',
    BitVec.getLsbD_shiftLeft, BitVec.toNat_umod, UInt32.toNat_toBitVec]
  have hmod : k.toNat % (32 : BitVec 32).toNat = k.toNat := Nat.mod_eq_of_lt hk
  rw [hmod]
  simp [show start + i < k.toNat by omega]

theorem extractLsb'_or_field (x y : UInt32) (start n : Nat) : (x ||| y).toBitVec.extractLsb' start n =
    x.toBitVec.extractLsb' start n ||| y.toBitVec.extractLsb' start n := by
  rw [UInt32.toBitVec_or, BitVec.extractLsb'_or]

theorem extractLsb'_extractLsb' {len : Nat} (x : BitVec 32) (start : Nat) {s n : Nat}
    (h : s + n ≤ len) :
    (x.extractLsb' start len).extractLsb' s n = x.extractLsb' (start + s) n := by
  apply BitVec.eq_of_getLsbD_eq
  intro i hi
  have hin : s + i < len := by omega
  simp [hi, hin, Nat.add_assoc]

theorem extractLsb'_and_mask (hmask : mask.toBitVec.extractLsb' start n = BitVec.allOnes n) :
    (w &&& mask).toBitVec.extractLsb' start n = w.toBitVec.extractLsb' start n := by
  rw [UInt32.toBitVec_and, BitVec.extractLsb'_and, hmask, BitVec.and_allOnes]

theorem toNat_and_lt (hmask : mask.toNat < 2 ^ m) : (w &&& mask).toNat < 2 ^ m := by
  rw [UInt32.toNat_and]
  exact Nat.and_lt_two_pow _ hmask

theorem extractLsb'_eq_of_and (h : w &&& mask = w' &&& mask)
    (hmask : mask.toBitVec.extractLsb' start n = BitVec.allOnes n) :
    w.toBitVec.extractLsb' start n = w'.toBitVec.extractLsb' start n := by
  apply BitVec.eq_of_getLsbD_eq
  intro i hi
  have hone := congrArg (·.getLsbD i) hmask
  have hbit := congrArg (·.toBitVec.getLsbD (start + i)) h
  simp only [BitVec.getLsbD_extractLsb', BitVec.getLsbD_allOnes, hi, decide_true,
    Bool.true_and] at hone
  simpa [hi, hone] using hbit

end

/-- The word of four bytes of a sequence, the lowest first. -/
def word32At (b : Nat → UInt8) (k : Nat) : UInt32 :=
  (b k).toUInt32 ||| (b (k + 1)).toUInt32 <<< 8 ||| (b (k + 2)).toUInt32 <<< 16 |||
    (b (k + 3)).toUInt32 <<< 24

theorem word32At_of_bytes32 {b : Nat → UInt8} {k : Nat} {w : UInt32}
    (h : ∀ i < 4, b (k + i) = (bytes32 w).getD i 0) : word32At b k = w := by
  unfold word32At
  have h0 : b k = (bytes32 w).getD 0 0 := h 0 (by omega)
  rw [h0, h 1 (by omega), h 2 (by omega), h 3 (by omega)]
  exact word_of_bytes w

/-- A sequence of bytes starts with a piece of code. -/
def Starts (b : Nat → UInt8) (code : List UInt8) : Prop := ∀ k < code.length, b k = code.getD k 0

namespace Starts

variable {b : Nat → UInt8} {code code' : List UInt8} {w : UInt32}

theorem left (h : Starts b (code ++ code')) : Starts b code := by
  intro k hk
  rw [h k (by rw [List.length_append]; omega), List.getD_append _ _ _ _ hk]

theorem right (h : Starts b (code ++ code')) (k : Nat) (hk : k < code'.length) :
    b (code.length + k) = code'.getD k 0 := by
  rw [h _ (by rw [List.length_append]; omega),
    List.getD_append_right _ _ _ _ (Nat.le_add_right _ _), Nat.add_sub_cancel_left]

theorem tail {k : Nat} {byte : UInt8} (h : Starts (fun i => b (k + i)) (byte :: code)) :
    Starts (fun i => b (k + 1 + i)) code := by
  intro i hi
  have hshift : k + 1 + i = k + (i + 1) := by omega
  exact (congrArg b hshift).trans (h (i + 1) (Nat.succ_lt_succ hi))

theorem word (h : Starts b (code ++ bytes32 w)) : word32At b code.length = w :=
  word32At_of_bytes32 h.right

end Starts

/-- Memory as instructions are fetched from it. -/
abbrev ByteMemory := BitVec 64 → UInt8

namespace ByteMemory

def bytesAt (mem : ByteMemory) (a : BitVec 64) (k : Nat) : UInt8 := mem (a + BitVec.ofNat 64 k)

def word (mem : ByteMemory) (a : BitVec 64) : UInt32 := word32At (mem.bytesAt a) 0

/-- Code stands at an address. -/
def Holds (mem : ByteMemory) (a : BitVec 64) (code : List UInt8) : Prop :=
  Starts (mem.bytesAt a) code

/-- Code at the lowest addresses. -/
def ofList (code : List UInt8) : ByteMemory := fun a => code.getD a.toNat 0

theorem holds_ofList {code : List UInt8} (h : code.length ≤ 2 ^ 64) : (ofList code).Holds 0 code := by
  intro k hk
  have hplace : (0 + BitVec.ofNat 64 k).toNat = k := by
    rw [show (0 : BitVec 64) = 0#64 from rfl, BitVec.zero_add, BitVec.toNat_ofNat,
      Nat.mod_eq_of_lt (hk.trans_le h)]
  exact congrArg (code.getD · 0) hplace

/-- An image is mapped at an address. -/
def Maps (mem : ByteMemory) (base : Nat) (image : Array UInt8) : Prop :=
  ∀ i < image.size, mem (BitVec.ofNat 64 (base + i)) = image.getD i 0

variable {mem : ByteMemory} {a : BitVec 64} {code code' : List UInt8} {base o : Nat}
  {image : Array UInt8} {w : UInt32}

theorem bytesAt_add (a : BitVec 64) (i k : Nat) :
    mem.bytesAt (a + BitVec.ofNat 64 i) k = mem.bytesAt a (i + k) := by
  rw [bytesAt, bytesAt, BitVec.add_assoc, ← BitVec.ofNat_add]

theorem Holds.left (h : mem.Holds a (code ++ code')) : mem.Holds a code := Starts.left h

theorem Holds.right (h : mem.Holds a (code ++ code')) :
    mem.Holds (a + BitVec.ofNat 64 code.length) code' := by
  intro k hk
  rw [bytesAt_add, Starts.right h k hk]

theorem Holds.word (h : mem.Holds a (bytes32 w)) : mem.word a = w :=
  word32At_of_bytes32 fun i hi => (congrArg _ (Nat.zero_add i)).trans (h i hi)

theorem Holds.word_cons {ws : List UInt32} (h : mem.Holds a ((w :: ws).flatMap bytes32)) :
    mem.word a = w ∧ mem.Holds (a + 4) (ws.flatMap bytes32) := by
  rw [List.flatMap_cons] at h
  exact ⟨h.left.word, h.right⟩

theorem Holds.word_single (h : mem.Holds a ([w].flatMap bytes32)) : mem.word a = w :=
  h.word_cons.1

theorem length_flatMap_bytes32 (ws : List UInt32) :
    (ws.flatMap bytes32).length = 4 * ws.length := by
  induction ws with
  | nil => rfl
  | cons w ws ih =>
    rw [List.flatMap_cons, List.length_append, ih, List.length_cons, Nat.mul_succ, Nat.add_comm]
    rfl

theorem Holds.words_append {ws ws' : List UInt32}
    (h : mem.Holds a ((ws ++ ws').flatMap bytes32)) : mem.Holds a (ws.flatMap bytes32) ∧
      mem.Holds (a + BitVec.ofNat 64 (4 * ws.length)) (ws'.flatMap bytes32) := by
  rw [List.flatMap_append] at h
  exact ⟨h.left, length_flatMap_bytes32 ws ▸ h.right⟩

theorem Maps.bytesAt (h : mem.Maps base image) {k : Nat} (hk : o + k < image.size) :
    mem.bytesAt (BitVec.ofNat 64 (base + o)) k = image.getD (o + k) 0 := by
  rw [ByteMemory.bytesAt, ← BitVec.ofNat_add, Nat.add_assoc, h _ hk]

theorem Maps.word32At (h : mem.Maps base image) {k : Nat} (hk : o + k + 4 ≤ image.size) :
    word32At (mem.bytesAt (BitVec.ofNat 64 (base + o))) k = read32 image (o + k) := by
  unfold SeaNodes.word32At
  rw [h.bytesAt (by omega), h.bytesAt (by omega), h.bytesAt (by omega), h.bytesAt (by omega)]
  rfl

theorem Maps.word (h : mem.Maps base image) (ho : o + 4 ≤ image.size) :
    mem.word (BitVec.ofNat 64 (base + o)) = read32 image o := h.word32At ho

end ByteMemory

/-- What an instruction leads to. -/
inductive Effect (σ : Type) where
  | next (s : σ)
  | fault

structure Cpu where
  State : Type
  step : ByteMemory → State → Effect State
  /-- The address of the next instruction. -/
  pc : State → BitVec 64
  int : State → Reg → BitVec 64
  float : State → Reg → Double

namespace Cpu

variable (cpu : Cpu) (mem : ByteMemory)

/-- Instructions lead from one state to another. -/
def Runs : cpu.State → cpu.State → Prop :=
  Relation.ReflTransGen fun s s' => cpu.step mem s = .next s'

/-- Instructions lead to one that faults. -/
def Faults (s : cpu.State) : Prop := ∃ s', cpu.Runs mem s s' ∧ cpu.step mem s' = .fault

variable {cpu mem} {s s' s'' : cpu.State}

theorem Runs.refl : cpu.Runs mem s s := Relation.ReflTransGen.refl

theorem Runs.head (h : cpu.step mem s = .next s') (h' : cpu.Runs mem s' s'') :
    cpu.Runs mem s s'' := Relation.ReflTransGen.head h h'

theorem Runs.single (h : cpu.step mem s = .next s') : cpu.Runs mem s s' :=
  Relation.ReflTransGen.single h

theorem Runs.trans (h : cpu.Runs mem s s') (h' : cpu.Runs mem s' s'') : cpu.Runs mem s s'' :=
  Relation.ReflTransGen.trans h h'

end Cpu

end SeaNodes

namespace SeaNodes

namespace ByteMemory

variable {mem : ByteMemory} {a x : BitVec 64} {v : BitVec 64}

def load (mem : ByteMemory) (a : BitVec 64) : BitVec 64 :=
  (mem (a + 7)).toBitVec ++ (mem (a + 6)).toBitVec ++ (mem (a + 5)).toBitVec ++
    (mem (a + 4)).toBitVec ++ (mem (a + 3)).toBitVec ++ (mem (a + 2)).toBitVec ++
    (mem (a + 1)).toBitVec ++ (mem (a + 0)).toBitVec

def store (mem : ByteMemory) (a v : BitVec 64) : ByteMemory := fun x =>
  if (x - a).toNat < 8 then ⟨v.extractLsb' (8 * (x - a).toNat) 8⟩ else mem x

theorem store_of_le (h : 8 ≤ (x - a).toNat) : mem.store a v x = mem x :=
  if_neg (Nat.not_lt_of_le h)

theorem add_sub_self (a k : BitVec 64) : a + k - a = k := by
  rw [BitVec.add_comm, BitVec.add_sub_cancel]

theorem store_add {k : BitVec 64} (hk : k.toNat < 8) :
    (mem.store a v (a + k)).toBitVec = v.extractLsb' (8 * k.toNat) 8 := by
  rw [store, add_sub_self, if_pos hk]

theorem load_store (mem : ByteMemory) (a v : BitVec 64) : (mem.store a v).load a = v := by
  rw [load, store_add (k := 7) (by decide), store_add (k := 6) (by decide),
    store_add (k := 5) (by decide), store_add (k := 4) (by decide),
    store_add (k := 3) (by decide), store_add (k := 2) (by decide),
    store_add (k := 1) (by decide), store_add (k := 0) (by decide)]
  change v.extractLsb' 56 8 ++ v.extractLsb' 48 8 ++ v.extractLsb' 40 8 ++ v.extractLsb' 32 8 ++
    v.extractLsb' 24 8 ++ v.extractLsb' 16 8 ++ v.extractLsb' 8 8 ++ v.extractLsb' 0 8 = v
  simp (disch := decide) only [BitVec.extractLsb'_append_extractLsb'_eq_extractLsb',
    BitVec.extractLsb'_eq_self]

theorem load_store_of_apart {d : BitVec 64} (hlow : 8 ≤ d.toNat) (hhigh : d.toNat ≤ 2 ^ 64 - 8) :
    (mem.store a v).load (a + d) = mem.load (a + d) := by
  have hbyte (k : BitVec 64) (hk : k.toNat < 8) :
      mem.store a v (a + d + k) = mem (a + d + k) := by
    apply store_of_le
    rw [BitVec.add_assoc, add_sub_self, BitVec.toNat_add]
    omega
  rw [load, hbyte 7 (by decide), hbyte 6 (by decide), hbyte 5 (by decide), hbyte 4 (by decide),
    hbyte 3 (by decide), hbyte 2 (by decide), hbyte 1 (by decide), hbyte 0 (by decide), load]

def words (mem : ByteMemory) (a : BitVec 64) (n : Nat) : List (BitVec 64) :=
  (List.range n).map fun i => mem.load (a + BitVec.ofNat 64 (8 * i))

theorem words_one (mem : ByteMemory) (a : BitVec 64) : mem.words a 1 = [mem.load a] := by
  change [mem.load (a + 0#64)] = _
  rw [BitVec.add_zero]

theorem words_two (mem : ByteMemory) (a : BitVec 64) :
    mem.words a 2 = [mem.load a, mem.load (a + 8)] := by
  change [mem.load (a + 0#64), mem.load (a + 8)] = _
  rw [BitVec.add_zero]

theorem words_store_store (mem : ByteMemory) (a v w : BitVec 64) :
    ((mem.store a v).store (a + 8) w).words a 2 = [v, w] := by
  have hlow : ((mem.store a v).store (a + 8) w).load (a + 8 + -8) =
      (mem.store a v).load (a + 8 + -8) := load_store_of_apart (by decide) (by decide)
  rw [BitVec.add_assoc, show (8 : BitVec 64) + -8 = 0#64 by decide, BitVec.add_zero] at hlow
  rw [words_two, hlow, load_store, load_store]

theorem store_store_of_le {w : BitVec 64} (h : 16 ≤ (x - a).toNat) :
    (mem.store a v).store (a + 8) w x = mem x := by
  have hsub : (x - (a + 8)).toNat = (x - a).toNat - 8 := by bv_omega
  rw [store_of_le (by omega), store_of_le (by omega)]

end ByteMemory

/-- A processor with a stack in memory. -/
structure StackCpu extends Cpu where
  sp : State → BitVec 64
  data : State → ByteMemory
  /-- What a function with calls keeps in its frame, the return address last. -/
  link : State → List (BitVec 64)
  /-- Where a return goes. -/
  returnTo : State → BitVec 64

namespace StackCpu

variable (m : StackCpu)

/-- Where the link is kept in a frame. -/
def linkPlace (sp : BitVec 64) (size link : Nat) : BitVec 64 := sp + BitVec.ofNat 64 (size - link)

/-- A function has got its frame, with what is kept of the link at its top. Memory outside of the
link has not changed. -/
structure Enters (size link : Nat) (s s' : m.State) : Prop where
  sp : m.sp s' = m.sp s - BitVec.ofNat 64 size
  kept : (m.data s').words (linkPlace (m.sp s') size link) (link / 8) = if link = 0 then [] else m.link s
  outside : ∀ a, link ≤ (a - linkPlace (m.sp s') size link).toNat → m.data s' a = m.data s a
  link : link = 0 → m.link s' = m.link s

/-- A function has given up its frame and has the link back. -/
structure Leaves (size link : Nat) (s s' : m.State) : Prop where
  sp : m.sp s' = m.sp s + BitVec.ofNat 64 size
  data : m.data s' = m.data s
  link : m.link s' = if link = 0 then m.link s else
    (m.data s).words (linkPlace (m.sp s) size link) (link / 8)

/-- The code gets a frame for a function. -/
def EntersBy (code : List UInt8) (size link : Nat) : Prop :=
  ∀ mem s, mem.Holds (m.pc s) code →
    ∃ s', m.Runs mem s s' ∧ m.pc s' = m.pc s + BitVec.ofNat 64 code.length ∧ m.Enters size link s s'

/-- The code gives up a frame. The instruction at its end goes where the link says, and takes from the
stack what a call has pushed. -/
def LeavesBy (code : List UInt8) (size link pushed : Nat) : Prop :=
  ∀ mem s, mem.Holds (m.pc s) code → ∃ s' s'', m.Runs mem s s' ∧ m.Leaves size link s s' ∧
    m.step mem s' = .next s'' ∧ m.pc s'' = m.returnTo s' ∧ m.sp s'' = m.sp s' + BitVec.ofNat 64 pushed

end StackCpu

end SeaNodes
