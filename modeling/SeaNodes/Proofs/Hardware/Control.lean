import SeaNodes.Proofs.Code.Resolved
import SeaNodes.Proofs.Hardware.Tests

namespace SeaNodes

variable {cpu : Cpu} {lo mid hi : Nat}

namespace Cpu

/-- An instruction that starts between two addresses leads from one state to another. -/
def StepsWithin (cpu : Cpu) (mem : ByteMemory) (lo hi : Nat) (s s' : cpu.State) : Prop :=
  (∃ a, lo ≤ a ∧ a < hi ∧ cpu.pc s = BitVec.ofNat 64 a) ∧ cpu.step mem s = .next s'

/-- The instructions between two addresses, of which there is at least one unless there is no room for
it, lead from one state to another. -/
def Executes (cpu : Cpu) (mem : ByteMemory) (lo hi : Nat) (s s' : cpu.State) : Prop :=
  if lo = hi then s' = s else Relation.TransGen (cpu.StepsWithin mem lo hi) s s'

variable {mem : ByteMemory} {s s' s'' : cpu.State}

namespace Executes

theorem refl : cpu.Executes mem lo lo s s := (if_pos rfl).mpr rfl

theorem single {a : Nat} (hpc : cpu.pc s = BitVec.ofNat 64 a) (hlo : lo ≤ a) (hhi : a < hi)
    (hstep : cpu.step mem s = .next s') : cpu.Executes mem lo hi s s' := by
  rw [Executes, if_neg (hlo.trans_lt hhi).ne]
  exact .single ⟨⟨a, hlo, hhi, hpc⟩, hstep⟩

theorem widen {lo' hi' : Nat} (h : cpu.Executes mem lo hi s s') (hlt : lo < hi) (hlo : lo' ≤ lo)
    (hhi : hi ≤ hi') : cpu.Executes mem lo' hi' s s' := by
  rw [Executes, if_neg hlt.ne] at h
  rw [Executes, if_neg (hlo.trans_lt (hlt.trans_le hhi)).ne]
  refine Relation.TransGen.mono (fun x y h => ?_) _ _ h
  obtain ⟨⟨a, ha, ha', hpc⟩, hstep⟩ := h
  exact ⟨⟨a, hlo.trans ha, ha'.trans_le hhi, hpc⟩, hstep⟩

theorem trans (h : cpu.Executes mem lo mid s s') (h' : cpu.Executes mem mid hi s' s'')
    (hle : lo ≤ mid) (hle' : mid ≤ hi) : cpu.Executes mem lo hi s s'' := by
  rcases hle.eq_or_lt with rfl | hlt
  · rw [Executes, if_pos rfl] at h
    rwa [h] at h'
  · rcases hle'.eq_or_lt with rfl | hlt'
    · rw [Executes, if_pos rfl] at h'
      rwa [h']
    · have hfirst := h.widen hlt le_rfl hle'
      have hsecond := h'.widen hlt' hle le_rfl
      rw [Executes, if_neg (hlt.trans hlt').ne] at hfirst hsecond ⊢
      exact hfirst.trans hsecond

end Executes

end Cpu

/-- An image in memory, and where its blocks are. -/
structure Loaded where
  mem : ByteMemory
  base : Nat
  image : Array UInt8
  place : Nat → Nat
  maps : mem.Maps base image

/-- The address of an offset in the image. -/
def Loaded.at (m : Loaded) (site : Nat) : BitVec 64 := BitVec.ofNat 64 (m.base + site)

theorem ofNat_add_ofInt {p q : Nat} {d : Int} (h : (p : Int) + d = q) :
    BitVec.ofNat 64 p + BitVec.ofInt 64 d = BitVec.ofNat 64 q := by
  rw [← BitVec.ofInt_natCast, ← BitVec.ofInt_add, h, BitVec.ofInt_natCast]

namespace Loaded

variable {m : Loaded} {site : Nat}

theorem at_add (m : Loaded) (site k : Nat) : m.at site + BitVec.ofNat 64 k = m.at (site + k) := by
  rw [Loaded.at, Loaded.at, ← BitVec.ofNat_add, Nat.add_assoc]

theorem at_add_ofInt {b : Nat} {d : Int} (h : (m.base : Int) + site + d = m.base + m.place b) :
    m.at site + BitVec.ofInt 64 d = m.at (m.place b) :=
  ofNat_add_ofInt (by push_cast; exact h)

variable {form : List Item}

theorem holds (h : Stands m.image m.base m.place form site) (hplain : fixupsOf form = []) :
    m.mem.Holds (m.at site) (bytesOf form) := by
  intro k hk
  have hin := h.inside
  rw [Loaded.at, m.maps.bytesAt (by omega), Array.getD_eq_getD_getElem?, h.code k hk fun x hx => ?_,
    List.getD_eq_getElem?_getD]
  rw [hplain] at hx
  cases hx

theorem bytesAt (h : Stands m.image m.base m.place form site) {k : Nat} (hk : k < (bytesOf form).length)
    (hfree : ∀ x ∈ fixupsOf form, k < x.offset ∨ x.offset + x.kind.width ≤ k) :
    m.mem.bytesAt (m.at site) k = (bytesOf form).getD k 0 := by
  have hin := h.inside
  rw [Loaded.at, m.maps.bytesAt (by omega), Array.getD_eq_getD_getElem?, h.code k hk hfree,
    List.getD_eq_getElem?_getD]

end Loaded

/-- What code that only moves control does to the states of a processor. -/
structure Control (cpu : Cpu) where
  goto : cpu.State → BitVec 64 → cpu.State
  goto_pc : ∀ s, goto s (cpu.pc s) = s
  pc_goto : ∀ s a, cpu.pc (goto s a) = a
  int_goto : ∀ s a, cpu.int (goto s a) = cpu.int s
  float_goto : ∀ s a, cpu.float (goto s a) = cpu.float s
  /-- The integer registers that it does not change. -/
  kept : RegMask

/-- The values of the operands of an instruction. -/
def Cpu.readings (cpu : Cpu) (s : cpu.State) (regs : OperandRegs) : Readings where
  int k := cpu.int s (regs.u k)
  float k := cpu.float s (regs.u k)

/-- Integer registers of a mask are kept, and all float registers. -/
structure Cpu.Keeps (cpu : Cpu) (kept : RegMask) (s s' : cpu.State) : Prop where
  int : ∀ r, kept.contains r → cpu.int s' r = cpu.int s r
  float : cpu.float s' = cpu.float s

namespace Cpu.Keeps

variable {kept : RegMask} {s s' s'' : cpu.State}

theorem refl : cpu.Keeps kept s s := ⟨fun _ _ => rfl, rfl⟩

theorem trans (h : cpu.Keeps kept s s') (h' : cpu.Keeps kept s' s'') : cpu.Keeps kept s s'' :=
  ⟨fun r hr => (h'.int r hr).trans (h.int r hr), h'.float.trans h.float⟩

end Cpu.Keeps

namespace Control

variable (C : Control cpu) (m : Loaded)

/-- Control goes from one offset to another within the code up to `stop`. -/
def Goes (stop : Nat) (s : cpu.State) (site target : Nat) : Prop :=
  ∃ s', cpu.Executes m.mem (m.base + site) (m.base + stop) (C.goto s (m.at site)) s' ∧
    cpu.pc s' = m.at target ∧ cpu.Keeps C.kept s s'

/-- Control goes from the beginning of a form to its end, and the state changes. -/
def FormPasses (form : List Item) (s s' : cpu.State) (site : Nat) : Prop :=
  cpu.Executes m.mem (m.base + site) (m.base + (site + (bytesOf form).length))
    (C.goto s (m.at site)) (C.goto s' (m.at (site + (bytesOf form).length)))

def FormJumps (form : List Item) (test : Bool) (b : Nat) (s : cpu.State) (site : Nat) : Prop :=
  0 < (bytesOf form).length ∧
    if test then C.Goes m (site + (bytesOf form).length) s site (m.place b)
    else C.FormPasses m form s s site

def Passes (p : Piece) (s s' : cpu.State) : Prop :=
  ∀ form ∈ p.forms, ∀ site, Stands m.image m.base m.place form site → C.FormPasses m form s s' site

/-- A piece is left for a block if a test holds, and passed if not. -/
def Jumps (p : Piece) (test : Bool) (b : Nat) (s : cpu.State) : Prop :=
  ∀ form ∈ p.forms, ∀ site, Stands m.image m.base m.place form site →
    C.FormJumps m form test b s site

def Arrives (stop : Nat) (ps : List Piece) (s : cpu.State) (target : Nat) : Prop :=
  ∀ site, StandUpTo m.image m.base m.place stop ps site → C.Goes m stop s site target

variable {C m} {stop target site b : Nat} {p : Piece} {ps : List Piece} {form : List Item}
  {s s' : cpu.State} {test : Bool}

theorem FormJumps.single (hlength : 0 < (bytesOf form).length)
    (hstep : cpu.step m.mem (C.goto s (m.at site)) =
      .next (C.goto s (if test then m.at (m.place b) else m.at (site + (bytesOf form).length)))) :
    C.FormJumps m form test b s site := by
  have hexec := Cpu.Executes.single (C.pc_goto s (m.at site)) le_rfl
    (Nat.add_lt_add_left (Nat.lt_add_of_pos_right hlength) m.base) hstep
  refine ⟨hlength, ?_⟩
  cases test with
  | true => exact ⟨_, hexec, C.pc_goto _ _, fun r _ => by rw [C.int_goto], C.float_goto _ _⟩
  | false => exact hexec

/-- An instruction that skips a jump unless a test holds. -/
theorem FormJumps.around {first : Item} {far : List Item} (hlength : 0 < first.bytes.length)
    (hstep : cpu.step m.mem (C.goto s (m.at site)) = .next (C.goto s (if test then
      m.at (site + first.bytes.length) else m.at (site + (bytesOf (first :: far)).length))))
    (hfar : C.FormJumps m far true b s (site + first.bytes.length)) :
    C.FormJumps m (first :: far) test b s site := by
  have hsum : (bytesOf (first :: far)).length = first.bytes.length + (bytesOf far).length :=
    List.length_append
  refine ⟨by omega, ?_⟩
  cases test with
  | true =>
    obtain ⟨-, s', hexec, hpc, hkeeps⟩ := hfar
    have hfirst := Cpu.Executes.single (C.pc_goto s (m.at site)) le_rfl
      (Nat.add_lt_add_left (Nat.lt_add_of_pos_right hlength) m.base) hstep
    rw [hsum, ← Nat.add_assoc]
    refine ⟨s', hfirst.trans hexec ?_ ?_, hpc, hkeeps⟩ <;> omega
  | false => exact .single (C.pc_goto s (m.at site)) le_rfl (by omega) hstep

theorem Passes.fixed {i : Item} (hplain : i.fixup = none) (hlength : 0 < i.bytes.length)
    (hstep : ∀ site, m.mem.Holds (m.at site) i.bytes → cpu.step m.mem (C.goto s (m.at site)) =
      .next (C.goto s' (m.at (site + i.bytes.length)))) : C.Passes m (.fixed i) s s' := by
  intro form hform site h
  obtain rfl := List.mem_singleton.mp hform
  have hbytes : bytesOf [i] = i.bytes := List.append_nil _
  have hfixups : fixupsOf [i] = [] := by simp [fixupsOf, hplain]
  have hholds := Loaded.holds h hfixups
  rw [hbytes] at hholds
  rw [FormPasses, hbytes]
  exact .single (C.pc_goto s (m.at site)) le_rfl
    (Nat.add_lt_add_left (Nat.lt_add_of_pos_right hlength) m.base) (hstep site hholds)

namespace Arrives

theorem nil : C.Arrives m stop [] s stop := by
  intro site h
  cases h
  exact ⟨_, .refl, C.pc_goto _ _, fun r _ => by rw [C.int_goto], C.float_goto _ _⟩

theorem pass (h : C.Passes m p s s') (hkeeps : cpu.Keeps C.kept s s')
    (hrest : C.Arrives m stop ps s' target) : C.Arrives m stop (p :: ps) s target := by
  intro site hstand
  cases hstand with
  | @cons _ _ form _ hform hthere hstand =>
    obtain ⟨s'', hexec, hpc, hkeeps'⟩ := hrest _ hstand
    refine ⟨s'', (h form hform site hthere).trans hexec ?_ ?_, hpc, hkeeps.trans hkeeps'⟩
    · exact Nat.add_le_add_left (Nat.le_add_right _ _) _
    · exact Nat.add_le_add_left hstand.le _

/-- The first piece decides, unless it is passed. -/
theorem jump (h : C.Jumps m p test b s) (htrue : test = true → target = m.place b)
    (hfalse : test = false → C.Arrives m stop ps s target) :
    C.Arrives m stop (p :: ps) s target := by
  cases test with
  | true =>
    intro site hstand
    cases hstand with
    | @cons _ _ form _ hform hthere hstand =>
      obtain ⟨hpos, s', hexec, hpc, hkeeps⟩ := h form hform site hthere
      refine ⟨s', hexec.widen ?_ le_rfl ?_, htrue rfl ▸ hpc, hkeeps⟩
      · exact Nat.add_lt_add_left (Nat.lt_add_of_pos_right hpos) _
      · exact Nat.add_le_add_left hstand.le _
  | false => exact pass (fun form hform site hthere => (h form hform site hthere).2) .refl (hfalse rfl)

variable {around : Surroundings}

/-- A block is reached by a jump, or because it comes next. -/
theorem reach (h : C.Jumps m p true b s) (hnext : around.fallsTo b → m.place b = stop) :
    C.Arrives m stop (if around.fallsTo b then [] else [p]) s (m.place b) := by
  split_ifs with hfalls
  · exact hnext hfalls ▸ nil
  · exact jump h (fun _ => rfl) fun h => by cases h

/-- One test decides, whichever block comes next. -/
theorem decide {yes no : Piece} {t f : Nat} (hyes : C.Jumps m yes test t s)
    (hno : C.Jumps m no (!test) f s) (hnext : around.fallsTo t → m.place t = stop)
    (hrest : C.Arrives m stop ps s (m.place f)) :
    C.Arrives m stop (if around.fallsTo t then [no] else yes :: ps) s
      (m.place (if test then t else f)) := by
  by_cases hfalls : around.fallsTo t
  · rw [if_pos hfalls]
    refine jump hno (fun h => ?_) fun h => ?_
    · rw [if_neg (by simpa using h)]
    · rw [if_pos (by simpa using h), hnext hfalls]
      exact nil
  · rw [if_neg hfalls]
    refine jump hyes (fun h => ?_) fun h => ?_
    · rw [if_pos h]
    · rw [if_neg (by simp [h])]
      exact hrest

end Arrives

end Control

end SeaNodes
