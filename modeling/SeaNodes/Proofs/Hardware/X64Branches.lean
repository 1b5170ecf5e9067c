import SeaNodes.Proofs.Hardware.Control
import SeaNodes.Proofs.Hardware.Processors
import SeaNodes.Proofs.Isa.Fields
import SeaNodes.Proofs.Isa.X64Banks

namespace SeaNodes.X64

/-- Jumps change nothing but the address of the next instruction. -/
def control (abi : Abi) : Control cpu where
  goto s a := { s with rip := a }
  goto_pc _ := rfl
  pc_goto _ _ := rfl
  int_goto _ _ := rfl
  float_goto _ _ := rfl
  kept := (bank .int).diff (file abi).scratch

variable {abi : Abi} {m : Loaded} {site n b : Nat} {d : Int} {c : Cond} {s : State}

theorem step_jumpIf
    (hdecode : decode (m.mem.bytesAt (m.at site)) = some (.jumpIf c.bits (.ofInt 64 d), n))
    (hexact : (m.base : Int) + (site + n : Nat) + d = m.base + m.place b) :
    cpu.step m.mem ((control abi).goto s (m.at site)) = .next ((control abi).goto s
      (if c.holds s.flags then m.at (m.place b) else m.at (site + n))) := by
  have hstep := step_of_decode (s := (control abi).goto s (m.at site)) hdecode
  rw [hstep, ← Loaded.at_add_ofInt hexact, ← Loaded.at_add]
  by_cases h : c.holds s.flags
  · rw [if_pos h]
    exact congrArg Effect.next (if_pos h)
  · rw [if_neg h]
    exact congrArg Effect.next (if_neg h)

theorem step_jump (hdecode : decode (m.mem.bytesAt (m.at site)) = some (.jump (.ofInt 64 d), n))
    (hexact : (m.base : Int) + (site + n : Nat) + d = m.base + m.place b) :
    cpu.step m.mem ((control abi).goto s (m.at site)) =
      .next ((control abi).goto s (m.at (m.place b))) := by
  have hstep := step_of_decode (s := (control abi).goto s (m.at site)) hdecode
  rw [hstep, ← Loaded.at_add_ofInt hexact, ← Loaded.at_add]
  rfl

variable {text : String}

theorem stands_last {bytes disp : List UInt8} {kind : RelocKind}
    (h : Stands m.image m.base m.place
      [⟨bytes ++ disp, text, some ⟨bytes.length, kind, .block b⟩⟩] site) :
    (∀ k < bytes.length, m.mem.bytesAt (m.at site) k = bytes.getD k 0) ∧
      site + bytes.length + disp.length ≤ m.image.size ∧
      kind.address m.base m.image (site + bytes.length) = m.base + m.place b := by
  have hbytes : bytesOf [⟨bytes ++ disp, text, some ⟨bytes.length, kind, .block b⟩⟩] =
      bytes ++ disp := List.append_nil _
  have hmem : (⟨bytes.length, kind, .block b⟩ : Fixup) ∈
      fixupsOf [⟨bytes ++ disp, text, some ⟨bytes.length, kind, .block b⟩⟩] :=
    List.mem_singleton_self _
  have hin := h.inside
  rw [hbytes, List.length_append, ← Nat.add_assoc] at hin
  refine ⟨fun k hk => ?_, hin, h.exact _ hmem b rfl⟩
  rw [Loaded.bytesAt h (by rw [hbytes, List.length_append]; omega) fun x hx => ?_, hbytes,
    List.getD_append _ _ _ _ hk]
  rw [List.mem_singleton.mp hx]
  exact .inl hk

theorem signed8_eq (bytes : List UInt8) (h : Stands m.image m.base m.place
      [⟨bytes ++ [0], text, some ⟨bytes.length, .x86Rel8, .block b⟩⟩] site) :
    (∀ k < bytes.length, m.mem.bytesAt (m.at site) k = bytes.getD k 0) ∧
      ∃ d : Int, signed8 (m.mem.bytesAt (m.at site)) bytes.length = .ofInt 64 d ∧
        (m.base : Int) + (site + (bytes.length + 1) : Nat) + d = m.base + m.place b := by
  obtain ⟨hbytes, hin, hexact⟩ := stands_last h
  rw [List.length_singleton] at hin
  refine ⟨hbytes, (m.image.getD (site + bytes.length) 0).toBitVec.toInt, ?_, ?_⟩
  · rw [signed8, Loaded.at, m.maps.bytesAt hin]
    rfl
  · simp only [RelocKind.address] at hexact
    push_cast at hexact ⊢
    omega

theorem signed32_eq (bytes : List UInt8) (h : Stands m.image m.base m.place
      [⟨bytes ++ imm32 0, text, some ⟨bytes.length, .x86Rel32, .block b⟩⟩] site) :
    (∀ k < bytes.length, m.mem.bytesAt (m.at site) k = bytes.getD k 0) ∧
      ∃ d : Int, signed32 (m.mem.bytesAt (m.at site)) bytes.length = .ofInt 64 d ∧
        (m.base : Int) + (site + (bytes.length + 4) : Nat) + d = m.base + m.place b := by
  obtain ⟨hbytes, hin, hexact⟩ := stands_last h
  rw [show (imm32 0).length = 4 from rfl] at hin
  refine ⟨hbytes, (read32 m.image (site + bytes.length)).toBitVec.toInt, ?_, ?_⟩
  · rw [signed32, Loaded.at, m.maps.word32At hin]
    rfl
  · simp only [RelocKind.address] at hexact
    push_cast at hexact ⊢
    omega

theorem jumps_jumpPiece (c : Option Cond) (b : Nat) (s : State) :
    (control abi).Jumps m (jumpPiece c b) (c.elim true (·.holds s.flags)) b s := by
  intro form hform site h
  cases c with
  | some c =>
    rcases List.mem_pair.mp hform with rfl | rfl
    · obtain ⟨hbytes, d, hd, hexact⟩ := signed8_eq [0x70 + c.code] h
      have hdecode := decode_jumpIfShort (hbytes 0 Nat.one_pos)
      exact .single Nat.two_pos (step_jumpIf (hd ▸ hdecode) hexact)
    · obtain ⟨hbytes, d, hd, hexact⟩ := signed32_eq [0x0f, 0x80 + c.code] h
      have hdecode := decode_jumpIfLong (hbytes 0 Nat.two_pos) (hbytes 1 (Nat.lt_succ_self 1))
      exact .single (Nat.succ_pos 5) (step_jumpIf (hd ▸ hdecode) hexact)
  | none =>
    rcases List.mem_pair.mp hform with rfl | rfl
    · obtain ⟨hbytes, d, hd, hexact⟩ := signed8_eq [0xeb] h
      have hdecode := decode_jumpShort (hbytes 0 Nat.one_pos)
      exact .single Nat.two_pos (step_jump (hd ▸ hdecode) hexact)
    · obtain ⟨hbytes, d, hd, hexact⟩ := signed32_eq [0xe9] h
      have hdecode := decode_jumpLong (hbytes 0 Nat.one_pos)
      exact .single (Nat.succ_pos 4) (step_jump (hd ▸ hdecode) hexact)

variable {stop : Nat} {around : Surroundings}

theorem arrives_reach (b : Nat) (hnext : around.fallsTo b → m.place b = stop) :
    (control abi).Arrives m stop (reach around b) s (m.place b) :=
  .reach (jumps_jumpPiece none b s) hnext

theorem arrives_branchPieces (hnext : ∀ b, around.fallsTo b → m.place b = stop) (o : Outcome)
    (t f : Nat) : (control abi).Arrives m stop (branchPieces around o t f) s
      (m.place (if o.holds s.flags then t else f)) := by
  have hdecide (c : Cond) : (control abi).Arrives m stop
      (if around.fallsTo t then [jumpPiece (some c.invert) f]
        else jumpPiece (some c) t :: reach around f) s
      (m.place (if c.holds s.flags then t else f)) := by
    refine .decide (jumps_jumpPiece (some c) t s) ?_ (hnext t) (arrives_reach f (hnext f))
    rw [← Cond.holds_invert]
    exact jumps_jumpPiece (some c.invert) f s
  cases o with
  | flags c => exact hdecide c
  | floatEq =>
    have hnoParity : Cond.noParity.holds s.flags = !Cond.parity.holds s.flags :=
      Cond.holds_invert .parity s.flags
    refine .jump (jumps_jumpPiece (some .parity) f s) (fun h => ?_) fun h => ?_
    all_goals
      change Cond.parity.holds s.flags = _ at h
      rw [Outcome.holds, hnoParity, h]
    · rw [Bool.not_true, Bool.and_false]
      rfl
    · rw [Bool.not_false, Bool.and_true]
      exact hdecide .equal
  | floatNe =>
    refine .jump (jumps_jumpPiece (some .parity) t s) (fun h => ?_) fun h => ?_
    all_goals
      change Cond.parity.holds s.flags = _ at h
      rw [Outcome.holds, h]
    · rw [Bool.or_true]
      rfl
    · rw [Bool.or_false]
      refine .jump (jumps_jumpPiece (some .notEqual) t s) (fun h => ?_) fun h => ?_
      all_goals
        change Cond.notEqual.holds s.flags = _ at h
        rw [h]
      · rfl
      · exact arrives_reach f (hnext f)

theorem passes_of_decode {i : Item} {j : Instr} {f : Flags} (hplain : i.fixup = none)
    (hpos : 0 < i.bytes.length)
    (hdecode : ∀ {bytes}, Starts bytes i.bytes → decode bytes = some (j, i.bytes.length))
    (hexec : ∀ s' n, s'.regs = s.regs → s'.xmms = s.xmms →
      exec s' j n = .next { s'.past n with flags := f }) :
    (control abi).Passes m (.fixed i) s { s with flags := f } := by
  refine .fixed hplain hpos fun site h => ?_
  have hstep := step_of_decode (s := (control abi).goto s (m.at site)) (hdecode h)
  rw [hstep, hexec ((control abi).goto s (m.at site)) _ rfl rfl, ← Loaded.at_add]
  rfl

theorem passes_compareItem {t : Compare} {regs : OperandRegs} {i : Item}
    (hi : compareItem t regs = .ok i) :
    (control abi).Passes m (.fixed i) s { s with flags := t.flags (cpu.readings s regs) } := by
  have hint {k : Nat} {x : Gpr} (h : gpr (regs.u k) = .ok x) :
      (cpu.readings s regs).int k = s.regs x := int_of_gpr h
  have hfloat {k : Nat} {x : Xmm} (h : xmm (regs.u k) = .ok x) :
      (cpu.readings s regs).float k = s.xmms x := float_of_xmm h
  cases t with
  | regs =>
    obtain ⟨x, hx, hi⟩ := Except.bind_eq_ok hi
    obtain ⟨y, hy, hi⟩ := Except.bind_eq_ok hi
    cases hi
    have hlength : (Alu.cmp.regs x y).length = 3 := length_direct
    refine passes_of_decode (j := .cmp x y) rfl (hlength ▸ Nat.succ_pos 2) (fun h => ?_)
      fun s' n hregs _ => ?_
    · exact hlength ▸ decode_cmp h
    · rw [exec, hregs, Compare.flags, hint hx, hint hy]
  | imm v =>
    obtain ⟨x, hx, hi⟩ := Except.bind_eq_ok hi
    cases hi
    have hpos : 0 < (Alu.cmp.imm x v).length := by
      unfold Alu.imm
      split_ifs <;> simp [direct]
    refine passes_of_decode rfl hpos decode_cmpImm fun s' n hregs _ => ?_
    rw [exec, hregs, Compare.flags, hint hx]
  | zero =>
    obtain ⟨x, hx, hi⟩ := Except.bind_eq_ok hi
    cases hi
    have hlength : (testRegs x x).length = 3 := length_direct
    refine passes_of_decode (j := .test x x) rfl (hlength ▸ Nat.succ_pos 2) (fun h => ?_)
      fun s' n hregs _ => ?_
    · exact hlength ▸ decode_test h
    · rw [exec, hregs, Compare.flags, hint hx]
  | float =>
    obtain ⟨x, hx, hi⟩ := Except.bind_eq_ok hi
    obtain ⟨y, hy, hi⟩ := Except.bind_eq_ok hi
    cases hi
    have hpos : 0 < (Sse.ucomisd.regs x y).length := by simp [Sse.regs, sseRegs, direct]
    refine passes_of_decode rfl hpos decode_ucomisd fun s' n _ hxmms => ?_
    rw [exec, hxmms, Compare.flags, hfloat hx, hfloat hy]

theorem holdFields_jumpPiece (c : Option Cond) (b : Nat) {ps : List Piece} (h : HoldFields ps) :
    HoldFields (jumpPiece c b :: ps) := by
  cases c with
  | some c =>
    refine .sized (soundItems_last (by decide : 1 ≤ 2) fun _ h => ?_)
      (soundItems_last (by decide : 4 ≤ 6) fun _ h => ?_) h <;> cases h
  | none =>
    refine .sized (soundItems_last (by decide : 1 ≤ 2) fun _ h => ?_)
      (soundItems_last (by decide : 4 ≤ 5) fun _ h => ?_) h <;> cases h

theorem holdFields_reach (around : Surroundings) (b : Nat) : HoldFields (reach around b) := by
  unfold reach
  split_ifs
  · exact .nil
  · exact holdFields_jumpPiece none b .nil

theorem holdFields_branchPieces (around : Surroundings) (o : Outcome) (t f : Nat) :
    HoldFields (branchPieces around o t f) := by
  have hdecide (c : Cond) : HoldFields (if around.fallsTo t then [jumpPiece (some c.invert) f]
      else jumpPiece (some c) t :: reach around f) := by
    split_ifs
    · exact holdFields_jumpPiece _ f .nil
    · exact holdFields_jumpPiece _ t (holdFields_reach around f)
  cases o with
  | flags c => exact hdecide c
  | floatEq => exact holdFields_jumpPiece _ f (hdecide .equal)
  | floatNe => exact holdFields_jumpPiece _ t (holdFields_jumpPiece _ t (holdFields_reach around f))

variable {t : Test} {yes no : Nat} {regs : OperandRegs} {ps : List Piece}

theorem holdFields_branch (h : expand around (.branch t yes no) regs = .ok ps) : HoldFields ps := by
  obtain ⟨i, hi, h⟩ := Except.bind_eq_ok h
  cases h
  exact .fixed (.plain (ensures_compareItem t.compare regs i hi) .nil)
    (holdFields_branchPieces around t.outcome yes no)

theorem holdFields_jump (h : expand around (.jump b) regs = .ok ps) : HoldFields ps := by
  cases h
  exact holdFields_reach around b

theorem arrives_branch (hnext : ∀ b, around.fallsTo b → m.place b = stop)
    (h : expand around (.branch t yes no) regs = .ok ps) : (control abi).Arrives m stop ps s
      (m.place (if t.holds (cpu.readings s regs) then yes else no)) := by
  obtain ⟨i, hi, h⟩ := Except.bind_eq_ok h
  cases h
  refine .pass (passes_compareItem hi) ⟨fun _ _ => rfl, rfl⟩ ?_
  exact arrives_branchPieces hnext t.outcome yes no

theorem arrives_jump (hnext : ∀ b, around.fallsTo b → m.place b = stop)
    (h : expand around (.jump b) regs = .ok ps) :
    (control abi).Arrives m stop ps s (m.place b) := by
  cases h
  exact arrives_reach b (hnext b)

end SeaNodes.X64
