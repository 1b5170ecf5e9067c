import Mathlib.Algebra.Group.Nat.Defs
import Mathlib.Data.List.Nodup
import Mathlib.Data.List.Count
import SeaNodes.Isa.X64

namespace SeaNodes

def ArgLoc.offset? : ArgLoc → Option UInt32
  | .reg _ => none
  | .stack offset => some offset

namespace CallConv

variable {cc : CallConv} {classes earlier later : List RegClass} {locs : List ArgLoc} {t : Taken}
  {c d : RegClass} {r : Reg} {o : UInt32} {i j m n : Nat}

theorem toNat_area (cc : CallConv) (n : Nat) :
    (cc.area n).toNat = (cc.shadow.toNat + 8 * n) % 2 ^ 32 := by
  have h : (8 : UInt32).toNat = 8 := rfl
  rw [area, UInt32.toNat_add, UInt32.toNat_mul, h, Nat.toUInt32_eq, UInt32.toNat_ofNat']
  omega

/-- Offsets are 32 bits wide, so as many slots can be told apart. -/
theorem area_eq_iff : cc.area m = cc.area n ↔ m % 2 ^ 29 = n % 2 ^ 29 := by
  rw [← UInt32.toNat_inj, toNat_area, toNat_area]
  omega

/-- The register of its class, by its number, that an argument of class `c` is up for: that of its
position, or the first one that is left. -/
def turn (cc : CallConv) (earlier : List RegClass) (c : RegClass) : Nat :=
  if cc.positional then earlier.length else earlier.count c

def Taken.used (t : Taken) : RegClass → Nat
  | .int => t.ints
  | .float => t.floats

/-- The stack slots among some places, in order. -/
def slots (locs : List ArgLoc) : List UInt32 := locs.filterMap ArgLoc.offset?

/-- What arguments of some classes have been given: one that has no register to its turn has the next
stack slot. -/
structure Placed (cc : CallConv) (classes : List RegClass) (locs : List ArgLoc) (t : Taken) :
    Prop where
  length : locs.length = classes.length
  position : t.position = classes.length
  used : cc.positional = false → ∀ c, t.used c = min (classes.count c) (cc.args c).length
  slots : slots locs = (List.range t.stack).map cc.area
  loc : ∀ i c, classes[i]? = some c → locs[i]? = some
    (match (cc.args c)[cc.turn (classes.take i) c]? with
      | some r => .reg r
      | none => .stack (cc.area (CallConv.slots (locs.take i)).length))

theorem placed_nil (cc : CallConv) : Placed cc [] [] {} where
  length := rfl
  position := rfl
  used _ c := by cases c <;> exact (Nat.zero_min _).symm
  slots := rfl
  loc _ _ h := nomatch h

theorem slots_append (locs locs' : List ArgLoc) : slots (locs ++ locs') = slots locs ++ slots locs' :=
  List.filterMap_append

theorem place_cases (cc : CallConv) (t : Taken) (c : RegClass) :
    (cc.place t c).2.position = t.position + 1 ∧
      ((∃ r, (cc.args c)[if cc.positional then t.position else t.used c]? = some r ∧
          (cc.place t c).1 = .reg r ∧ (cc.place t c).2.stack = t.stack ∧
          ∀ d, (cc.place t c).2.used d = t.used d + if c = d then 1 else 0) ∨
        (cc.args c)[if cc.positional then t.position else t.used c]? = none ∧
          (cc.place t c).1 = .stack (cc.area t.stack) ∧
          (cc.place t c).2.stack = t.stack + 1 ∧ ∀ d, (cc.place t c).2.used d = t.used d) := by
  unfold place
  cases c with
  | int =>
    dsimp only [Taken.used]
    split
    case h_1 r hr _ => exact ⟨rfl, .inl ⟨r, hr, rfl, rfl, fun d => by cases d <;> rfl⟩⟩
    case h_2 hc => cases hc
    case h_3 hr => exact ⟨rfl, .inr ⟨hr, rfl, rfl, fun d => by cases d <;> rfl⟩⟩
  | float =>
    dsimp only [Taken.used]
    split
    case h_1 hc => cases hc
    case h_2 r hr _ => exact ⟨rfl, .inl ⟨r, hr, rfl, rfl, fun d => by cases d <;> rfl⟩⟩
    case h_3 hr => exact ⟨rfl, .inr ⟨hr, rfl, rfl, fun d => by cases d <;> rfl⟩⟩

namespace Placed

theorem next (h : Placed cc classes locs t) (c : RegClass) :
    (cc.args c)[if cc.positional then t.position else t.used c]? =
      (cc.args c)[cc.turn classes c]? := by
  unfold turn
  cases hpos : cc.positional with
  | true => rw [if_pos rfl, if_pos rfl, h.position]
  | false =>
    rw [if_neg nofun, if_neg nofun, h.used hpos]
    rcases Nat.lt_or_ge (classes.count c) (cc.args c).length with hlt | hge
    · rw [Nat.min_eq_left (Nat.le_of_lt hlt)]
    · rw [Nat.min_eq_right hge, List.getElem?_eq_none (Nat.le_refl _), List.getElem?_eq_none hge]

theorem length_slots (h : Placed cc classes locs t) : (CallConv.slots locs).length = t.stack := by
  rw [h.slots, List.length_map, List.length_range]

theorem used_place (h : Placed cc classes locs t) (hpos : cc.positional = false) (c d : RegClass) :
    (cc.place t c).2.used d = min ((classes ++ [c]).count d) (cc.args d).length := by
  have hturn : cc.turn classes c = classes.count c := if_neg (hpos ▸ nofun)
  obtain ⟨-, hplace⟩ := cc.place_cases t c
  rw [h.next, hturn] at hplace
  rw [List.count_append, List.count_singleton]
  by_cases hcd : c = d
  · subst hcd
    simp only [beq_self_eq_true, if_true]
    rcases hplace with ⟨r, hr, -, -, hused⟩ | ⟨hnone, -, -, hused⟩
    · have hlt := (List.getElem?_eq_some_iff.mp hr).1
      rw [hused, h.used hpos, if_pos rfl]
      omega
    · have hge := List.getElem?_eq_none_iff.mp hnone
      rw [hused, h.used hpos]
      omega
  · have hsame : (cc.place t c).2.used d = t.used d := by
      rcases hplace with ⟨-, -, -, -, hused⟩ | ⟨-, -, -, hused⟩
      · rw [hused, if_neg hcd, Nat.add_zero]
      · exact hused d
    rw [hsame, h.used hpos, if_neg (fun heq => hcd (beq_iff_eq.mp heq)), Nat.add_zero]

theorem place (h : Placed cc classes locs t) (c : RegClass) :
    Placed cc (classes ++ [c]) (locs ++ [(cc.place t c).1]) (cc.place t c).2 := by
  obtain ⟨hposition, hplace⟩ := cc.place_cases t c
  rw [h.next] at hplace
  refine ⟨?_, ?_, fun hpos d => h.used_place hpos c d, ?_, fun i d hd => ?_⟩
  · rw [List.length_append, List.length_append, h.length, List.length_singleton,
      List.length_singleton]
  · rw [hposition, h.position, List.length_append, List.length_singleton]
  · rw [slots_append, h.slots]
    rcases hplace with ⟨r, -, hloc, hstack, -⟩ | ⟨-, hloc, hstack, -⟩
    · rw [hloc, hstack]
      exact List.append_nil _
    · rw [hloc, hstack, List.range_succ, List.map_append]
      rfl
  · rcases Nat.lt_or_ge i classes.length with hlt | hge
    · have hlt' : i < locs.length := h.length.symm ▸ hlt
      rw [List.getElem?_append_left hlt] at hd
      rw [List.getElem?_append_left hlt', List.take_append_of_le_length (Nat.le_of_lt hlt),
        List.take_append_of_le_length (Nat.le_of_lt hlt')]
      exact h.loc i d hd
    · have hlt := (List.getElem?_eq_some_iff.mp hd).1
      rw [List.length_append, List.length_singleton] at hlt
      obtain rfl : i = classes.length := by omega
      rw [List.getElem?_concat_length] at hd
      obtain rfl := Option.some.inj hd
      rw [List.take_left, ← h.length, List.getElem?_concat_length, List.take_left, h.length_slots]
      rcases hplace with ⟨r, hr, hloc, -, -⟩ | ⟨hnone, hloc, -, -⟩
      · rw [hr, hloc]
      · rw [hnone, hloc]

theorem placeAll (h : Placed cc earlier locs t) (classes : List RegClass) :
    Placed cc (earlier ++ classes) (locs ++ (cc.placeAll t classes).1)
      (cc.placeAll t classes).2 := by
  induction classes generalizing earlier locs t with
  | nil =>
    rw [List.append_nil]
    exact (List.append_nil locs).symm ▸ h
  | cons c rest ih =>
    have hrest := ih (h.place c)
    rwa [List.append_assoc, List.append_assoc] at hrest

end Placed

theorem placed_assign (cc : CallConv) (classes : List RegClass) :
    Placed cc classes (cc.assign classes).1 (cc.placeAll {} classes).2 :=
  (placed_nil cc).placeAll classes

theorem taken_placeAll (cc : CallConv) (t : Taken) (classes : List RegClass) :
    (cc.placeAll t classes).2.stack + (cc.placeAll t classes).2.used .int +
      (cc.placeAll t classes).2.used .float =
        t.stack + t.used .int + t.used .float + classes.length := by
  induction classes generalizing t with
  | nil => rfl
  | cons c rest ih =>
    have hrest := ih (cc.place t c).2
    obtain ⟨-, ⟨r, -, -, hstack, hused⟩ | ⟨-, -, hstack, hused⟩⟩ := cc.place_cases t c
    · have hone : (if c = .int then 1 else 0) + (if c = .float then 1 else 0) = 1 := by
        cases c <;> rfl
      rw [hstack, hused, hused] at hrest
      rw [List.length_cons, placeAll]
      dsimp only
      omega
    · rw [hstack, hused, hused] at hrest
      rw [List.length_cons, placeAll]
      dsimp only
      omega

theorem placeAll_append (cc : CallConv) (t : Taken) (classes later : List RegClass) :
    (cc.placeAll t (classes ++ later)).1 =
      (cc.placeAll t classes).1 ++ (cc.placeAll (cc.placeAll t classes).2 later).1 := by
  induction classes generalizing t with
  | nil => rfl
  | cons c rest ih => exact congrArg ((cc.place t c).1 :: ·) (ih (cc.place t c).2)

theorem turn_le (cc : CallConv) (h : i ≤ j) (c : RegClass) :
    cc.turn (classes.take i) c ≤ cc.turn (classes.take j) c := by
  have hsub : (classes.take i).Sublist (classes.take j) := List.take_sublist_take_left h
  unfold turn
  split
  · exact hsub.length_le
  · exact hsub.count_le c

theorem turn_lt (cc : CallConv) (h : i < j) (hc : classes[i]? = some c) :
    cc.turn (classes.take i) c < cc.turn (classes.take j) c := by
  have hnext : cc.turn (classes.take (i + 1)) c = cc.turn (classes.take i) c + 1 := by
    unfold turn
    rw [List.take_add_one, hc, Option.toList_some, List.length_append, List.count_append,
      List.length_singleton, List.count_singleton_self]
    split <;> rfl
  have hle : cc.turn (classes.take (i + 1)) c ≤ _ := cc.turn_le h c
  omega

theorem exists_count_take (h : n < classes.count c) :
    ∃ i, classes[i]? = some c ∧ (classes.take i).count c = n := by
  induction classes generalizing n with
  | nil => cases h
  | cons d rest ih =>
    rw [List.count_cons] at h
    by_cases hd : d = c
    · subst hd
      cases n with
      | zero => exact ⟨0, rfl, rfl⟩
      | succ n =>
        rw [if_pos (beq_self_eq_true d)] at h
        obtain ⟨i, hi, hcount⟩ := ih (Nat.lt_of_succ_lt_succ h)
        exact ⟨i + 1, hi, by rw [List.take_succ_cons, List.count_cons_self, hcount]⟩
    · rw [if_neg (fun heq => hd (beq_iff_eq.mp heq))] at h
      obtain ⟨i, hi, hcount⟩ := ih h
      exact ⟨i + 1, hi, by rw [List.take_succ_cons, List.count_cons_of_ne hd, hcount]⟩

namespace Placed

variable (h : Placed cc classes locs t)
include h

theorem getElem?_reg (hc : classes[i]? = some c) (hr : locs[i]? = some (.reg r)) :
    (cc.args c)[cc.turn (classes.take i) c]? = some r := by
  have hloc := h.loc i c hc
  rw [hr, Option.some.injEq] at hloc
  split at hloc
  case h_1 _ hget => rw [hget, ArgLoc.reg.inj hloc]
  case h_2 => cases hloc

theorem stack_iff (hc : classes[i]? = some c) :
    locs[i]? = some (.stack o) ↔ (cc.args c).length ≤ cc.turn (classes.take i) c ∧
      o = cc.area (CallConv.slots (locs.take i)).length := by
  rw [h.loc i c hc, Option.some.injEq, ← List.getElem?_eq_none_iff]
  split
  case h_1 _ hget => rw [hget]; exact ⟨nofun, fun h => nomatch h.1⟩
  case h_2 hget => rw [hget, ArgLoc.stack.injEq, eq_comm]; exact ⟨fun h => ⟨rfl, h⟩, And.right⟩

theorem exists_class (hi : i < locs.length) : ∃ c, classes[i]? = some c :=
  ⟨_, List.getElem?_eq_getElem (h.length ▸ hi)⟩

theorem taken (hpos : cc.positional = false) (hc : classes[i]? = some c)
    (ho : locs[i]? = some (.stack o)) (hr : r ∈ cc.args c) : .reg r ∈ locs.take i := by
  obtain ⟨hge, -⟩ := (h.stack_iff hc).mp ho
  obtain ⟨n, hn⟩ := List.mem_iff_getElem?.mp hr
  have hlt := (List.getElem?_eq_some_iff.mp hn).1
  rw [turn, if_neg (hpos ▸ nofun)] at hge
  obtain ⟨j, hj, hcount⟩ := exists_count_take (Nat.lt_of_lt_of_le hlt hge)
  have hji : j < i := Nat.lt_of_lt_of_le (List.getElem?_eq_some_iff.mp hj).1
    (List.length_take_le i classes)
  rw [List.getElem?_take_of_lt hji] at hj
  rw [List.take_take, Nat.min_eq_left (Nat.le_of_lt hji)] at hcount
  have hloc := h.loc j c hj
  rw [turn, if_neg (hpos ▸ nofun), hcount, hn] at hloc
  exact List.mem_iff_getElem?.mpr ⟨j, (List.getElem?_take_of_lt hji).trans hloc⟩

theorem reg_unique (hint : cc.intArgs.Nodup) (hfloat : cc.floatArgs.Nodup)
    (hdisjoint : cc.intArgs.Disjoint cc.floatArgs) (hi : locs[i]? = some (.reg r))
    (hj : locs[j]? = some (.reg r)) : i = j := by
  obtain ⟨c, hc⟩ := h.exists_class (List.getElem?_eq_some_iff.mp hi).1
  obtain ⟨d, hd⟩ := h.exists_class (List.getElem?_eq_some_iff.mp hj).1
  have hri := h.getElem?_reg hc hi
  have hrj := h.getElem?_reg hd hj
  have hmem : ∀ {c n}, (cc.args c)[n]? = some r → r ∈ cc.args c := List.mem_of_getElem?
  have hcd : c = d := by
    cases c <;> cases d
    case int.int | float.float => rfl
    case int.float => exact (hdisjoint (hmem hri) (hmem hrj)).elim
    case float.int => exact (hdisjoint (hmem hrj) (hmem hri)).elim
  subst hcd
  have hnodup : (cc.args c).Nodup := by
    cases c
    · exact hint
    · exact hfloat
  have hturn := (List.getElem?_inj (List.getElem?_eq_some_iff.mp hri).1 hnodup).mp
    (hri.trans hrj.symm)
  rcases Nat.lt_trichotomy i j with hlt | heq | hgt
  · exact absurd hturn (Nat.ne_of_lt (cc.turn_lt hlt hc))
  · exact heq
  · exact absurd hturn.symm (Nat.ne_of_lt (cc.turn_lt hgt hd))

end Placed

theorem slots_take_add_one (ho : locs[i]? = some (.stack o)) :
    (slots (locs.take (i + 1))).length = (slots (locs.take i)).length + 1 := by
  rw [List.take_add_one, ho, slots_append, List.length_append]
  rfl

theorem length_slots_take_le (locs : List ArgLoc) (h : i ≤ j) :
    (slots (locs.take i)).length ≤ (slots (locs.take j)).length :=
  ((List.take_sublist_take_left h).filterMap _).length_le

theorem nodup_map_area_iff (cc : CallConv) (n : Nat) :
    ((List.range n).map cc.area).Nodup ↔ n ≤ 2 ^ 29 := by
  rw [List.nodup_map_iff_inj_on List.nodup_range]
  constructor
  · intro h
    by_contra hn
    have h0 : 0 ∈ List.range n := List.mem_range.mpr (by omega)
    have hwrap : 2 ^ 29 ∈ List.range n := List.mem_range.mpr (by omega)
    exact absurd (h 0 h0 (2 ^ 29) hwrap (area_eq_iff.mpr (by decide))) (by decide)
  · intro h k hk m hm heq
    rw [List.mem_range] at hk hm
    rw [area_eq_iff] at heq
    omega

namespace Placed

variable (h : Placed cc classes locs t)
include h

theorem slot_unique (hfew : (CallConv.slots locs).length ≤ 2 ^ 29)
    (hi : locs[i]? = some (.stack o)) (hj : locs[j]? = some (.stack o)) (hle : i ≤ j) : i = j := by
  obtain ⟨c, hc⟩ := h.exists_class (List.getElem?_eq_some_iff.mp hi).1
  obtain ⟨d, hd⟩ := h.exists_class (List.getElem?_eq_some_iff.mp hj).1
  have harea := ((h.stack_iff hc).mp hi).2.symm.trans ((h.stack_iff hd).mp hj).2
  rw [area_eq_iff] at harea
  by_contra hne
  have hnext := slots_take_add_one hi
  have hbefore := length_slots_take_le locs (i := i + 1) (j := j) (by omega)
  have hlast := slots_take_add_one hj
  have hall : (CallConv.slots (locs.take (j + 1))).length ≤ _ :=
    ((List.take_sublist (j + 1) locs).filterMap _).length_le
  change _ ≤ (CallConv.slots locs).length at hall
  omega

theorem nodup_iff
    (hreg : ∀ (i j : Nat) r, locs[i]? = some (.reg r) → locs[j]? = some (.reg r) → i = j) :
    locs.Nodup ↔ (CallConv.slots locs).length ≤ 2 ^ 29 := by
  constructor
  · intro hnodup
    rw [h.length_slots, ← nodup_map_area_iff cc, ← h.slots]
    refine hnodup.filterMap fun x y o hx hy => ?_
    cases x <;> cases y <;> cases hx <;> cases hy
    rfl
  · intro hfew
    rw [List.nodup_iff_getElem?_ne_getElem?]
    intro i j hij hj heq
    rw [List.getElem?_eq_getElem hj] at heq
    cases hloc : locs[j] with
    | reg r =>
      rw [hloc] at heq
      exact absurd (hreg i j r heq (hloc ▸ List.getElem?_eq_getElem hj)) (Nat.ne_of_lt hij)
    | stack o =>
      rw [hloc] at heq
      exact absurd (h.slot_unique hfew heq (hloc ▸ List.getElem?_eq_getElem hj)
        (Nat.le_of_lt hij)) (Nat.ne_of_lt hij)

end Placed

/-- How the places of arguments of some classes and the area for them are to be. -/
structure Assigned (cc : CallConv) (classes : List RegClass) (locs : List ArgLoc)
    (size : UInt32) : Prop where
  /-- Every argument has one place. -/
  length : locs.length = classes.length
  /-- No register is the place of two arguments. -/
  registers : ∀ (i j : Nat) r, locs[i]? = some (.reg r) → locs[j]? = some (.reg r) → i = j
  /-- All places are distinct, for as many stack slots as there are 32-bit offsets that are 8 apart. -/
  distinct : locs.Nodup ↔ (slots locs).length ≤ 2 ^ 29
  /-- A register is one of the class of the argument and, by position, the one at its position. -/
  ofClass : ∀ (i : Nat) c r, classes[i]? = some c → locs[i]? = some (.reg r) →
    r ∈ cc.args c ∧ (cc.positional → (cc.args c)[i]? = some r)
  /-- An argument is on the stack only if there is no register for its position, or every register
  of its class is the place of an argument before it. -/
  exhausted : ∀ (i : Nat) c o, classes[i]? = some c → locs[i]? = some (.stack o) →
    if cc.positional then (cc.args c).length ≤ i else ∀ r ∈ cc.args c, .reg r ∈ locs.take i
  /-- After an argument on the stack all others of its class are there too. -/
  stays : ∀ (i j : Nat) c o, i ≤ j → classes[i]? = some c → classes[j]? = some c →
    locs[i]? = some (.stack o) → ∃ o', locs[j]? = some (.stack o')
  /-- The slots follow each other above the shadow, in the order of the arguments. -/
  offsets : (slots locs).map UInt32.toNat =
    (List.range (slots locs).length).map fun k => (cc.shadow.toNat + 8 * k) % 2 ^ 32
  /-- The area is that of the shadow and the slots. -/
  size : size.toNat = (cc.shadow.toNat + 8 * (slots locs).length) % 2 ^ 32
  /-- Arguments that follow do not change the places. -/
  before : ∀ later, (cc.assign (classes ++ later)).1.take classes.length = locs

/-- A convention gives the arguments their places one after the other, and no place twice while there are
offsets for the stack slots. -/
theorem assigned_assign (cc : CallConv) (hint : cc.intArgs.Nodup) (hfloat : cc.floatArgs.Nodup)
    (hdisjoint : cc.intArgs.Disjoint cc.floatArgs) (classes : List RegClass) :
    Assigned cc classes (cc.assign classes).1 (cc.assign classes).2 := by
  have h := placed_assign cc classes
  have hreg := fun i j r => h.reg_unique (i := i) (j := j) (r := r) hint hfloat hdisjoint
  constructor
  case length => exact h.length
  case registers => exact hreg
  case distinct => exact h.nodup_iff hreg
  case ofClass =>
    intro i c r hc hr
    have hget := h.getElem?_reg hc hr
    refine ⟨List.mem_of_getElem? hget, fun hpos => ?_⟩
    have hlt := (List.getElem?_eq_some_iff.mp hc).1
    rwa [turn, if_pos hpos, List.length_take_of_le (Nat.le_of_lt hlt)] at hget
  case exhausted =>
    intro i c o hc ho
    cases hpos : cc.positional with
    | true =>
      have hge := ((h.stack_iff hc).mp ho).1
      have hlt := (List.getElem?_eq_some_iff.mp hc).1
      rwa [turn, if_pos hpos, List.length_take_of_le (Nat.le_of_lt hlt)] at hge
    | false => exact fun r hr => h.taken hpos hc ho hr
  case stays =>
    intro i j c o hij hc hd ho
    have hge := ((h.stack_iff hc).mp ho).1
    exact ⟨_, (h.stack_iff hd).mpr ⟨Nat.le_trans hge (cc.turn_le hij c), rfl⟩⟩
  case offsets =>
    rw [h.length_slots, h.slots, List.map_map]
    exact List.map_congr_left fun k _ => cc.toNat_area k
  case size =>
    rw [h.length_slots]
    exact cc.toNat_area _
  case before =>
    intro later
    have happend : (cc.assign (classes ++ later)).1 = (cc.assign classes).1 ++ _ :=
      cc.placeAll_append {} classes later
    rw [happend, ← h.length, List.take_left]

/-- Six arguments of which two have no register for their position. -/
theorem nodup_assign_win64 :
    (X64.conv .win64).intArgs.Nodup ∧ (X64.conv .win64).floatArgs.Nodup ∧
      (X64.conv .win64).intArgs.Disjoint (X64.conv .win64).floatArgs ∧
      (X64.conv .win64).assign [.int, .float, .int, .int, .float, .int] =
        ([.reg 1, .reg 17, .reg 8, .reg 9, .stack 32, .stack 40], 48) ∧
      ((X64.conv .win64).assign [.int, .float, .int, .int, .float, .int]).1.Nodup := by
  have hint : (X64.conv .win64).intArgs.Nodup := by decide
  have hfloat : (X64.conv .win64).floatArgs.Nodup := by decide
  have hdisjoint : (X64.conv .win64).intArgs.Disjoint (X64.conv .win64).floatArgs :=
    List.disjoint_left.mpr (by decide)
  refine ⟨hint, hfloat, hdisjoint, by decide, ?_⟩
  have h := assigned_assign (X64.conv .win64) hint hfloat hdisjoint
    [.int, .float, .int, .int, .float, .int]
  exact h.distinct.mpr (by decide)

/-- With one slot more than there are offsets, the last argument is where the first one on the stack
is. -/
theorem not_nodup_assign_systemV :
    (X64.conv .systemV).intArgs.Nodup ∧ (X64.conv .systemV).floatArgs.Nodup ∧
      (X64.conv .systemV).intArgs.Disjoint (X64.conv .systemV).floatArgs ∧
      ¬ ((X64.conv .systemV).assign (List.replicate (2 ^ 29 + 7) .int)).1.Nodup := by
  have hint : (X64.conv .systemV).intArgs.Nodup := by decide
  have hfloat : (X64.conv .systemV).floatArgs.Nodup := by decide
  have hdisjoint : (X64.conv .systemV).intArgs.Disjoint (X64.conv .systemV).floatArgs :=
    List.disjoint_left.mpr (by decide)
  refine ⟨hint, hfloat, hdisjoint, fun hnodup => ?_⟩
  generalize hclasses : List.replicate (2 ^ 29 + 7) RegClass.int = classes at hnodup
  have hlength : classes.length = 2 ^ 29 + 7 := by rw [← hclasses, List.length_replicate]
  have h := placed_assign (X64.conv .systemV) classes
  have hfew := (h.nodup_iff fun i j r => h.reg_unique hint hfloat hdisjoint).mp hnodup
  have hints := h.used rfl .int
  have hfloats := h.used rfl .float
  have hregs : ((X64.conv .systemV).args .int).length = 6 := rfl
  have hnone : classes.count .float = 0 := by
    rw [← hclasses, List.count_replicate]
    rfl
  have htaken := taken_placeAll (X64.conv .systemV) {} classes
  have hstart : ({} : Taken).stack + ({} : Taken).used .int + ({} : Taken).used .float = 0 := rfl
  rw [h.length_slots] at hfew
  omega

end CallConv

end SeaNodes
