import SeaNodes.Compile
import SeaNodes.Proofs.Code.Fields

namespace SeaNodes

theorem RelocKind.isApt_of_ne {kind : RelocKind} {target : RelocTarget}
    (h : ∀ scale, kind ≠ .a64AdrpLo12 scale) : kind.IsApt target :=
  fun scale hscale => absurd hscale (h scale)

theorem SoundPieces.one {i : Item} (hi : i.fixup = none) : SoundPieces [.fixed i] := .cons hi .nil

theorem SoundPieces.plain {is : List Item} (h : ∀ i ∈ is, i.fixup = none) :
    SoundPieces (is.map .fixed) := .ofItems (.of_plain h)

namespace X64

theorem soundItems_last {bytes : List UInt8} {text : String} {kind : RelocKind}
    {target : RelocTarget} (hwidth : kind.width ≤ bytes.length)
    (hkind : ∀ scale, kind ≠ .a64AdrpLo12 scale) :
    SoundItems [{ bytes, text, fixup := some ⟨bytes.length - kind.width, kind, target⟩ }] :=
  .field rfl (Nat.sub_add_cancel hwidth) (RelocKind.isApt_of_ne hkind) .nil

theorem soundPieces_jumpPiece (c : Option Cond) (target : Nat) :
    SoundPieces [jumpPiece c target] := by
  cases c with
  | some c =>
    exact .sized (soundItems_last (by decide : 1 ≤ 2) nofun)
      (soundItems_last (by decide : 4 ≤ 6) nofun) .nil
  | none =>
    exact .sized (soundItems_last (by decide : 1 ≤ 2) nofun)
      (soundItems_last (by decide : 4 ≤ 5) nofun) .nil

theorem soundPieces_reach (s : Surroundings) (b : Nat) : SoundPieces (reach s b) := by
  unfold reach
  split_ifs
  · exact .nil
  · exact soundPieces_jumpPiece none b

theorem soundPieces_branchPieces (s : Surroundings) (o : Outcome) (t f : Nat) :
    SoundPieces (branchPieces s o t f) := by
  have hdecide (c : Cond) : SoundPieces
      (if s.fallsTo t then [jumpPiece (some c.invert) f]
        else jumpPiece (some c) t :: reach s f) := by
    split_ifs
    · exact soundPieces_jumpPiece _ f
    · exact (soundPieces_jumpPiece _ t).append (soundPieces_reach s f)
  cases o with
  | flags c => exact hdecide c
  | floatEq => exact (soundPieces_jumpPiece _ f).append (hdecide .equal)
  | floatNe =>
    exact (soundPieces_jumpPiece _ t).append
      ((soundPieces_jumpPiece _ t).append (soundPieces_reach s f))

theorem le_length_memory (before opcode : List UInt8) (w : Bool) (reg : Fin 16) :
    4 ≤ (memory before w opcode reg .relative).length := by
  have hoperand : (Mem.operandBytes reg .relative).length = 5 := rfl
  rw [memory, List.length_append, hoperand]
  omega

theorem soundPieces_relocated {bytes : List UInt8} (text : String) (target : RelocTarget)
    (h : 4 ≤ bytes.length) : SoundPieces [.fixed (relocated bytes text target)] :=
  .ofItems (@soundItems_last bytes text .x86Rel32 target h nofun)

theorem ensures_load (c : RegClass) (d : Reg) (m : Mem) :
    Except.Ensures (load c d m) (·.fixup = none) := by
  cases c <;> exact .after fun _ => .ok rfl

theorem ensures_store (c : RegClass) (m : Mem) (u : Reg) :
    Except.Ensures (store c m u) (·.fixup = none) := by
  cases c <;> exact .after fun _ => .ok rfl

theorem ensures_compareItem (c : Compare) (regs : OperandRegs) :
    Except.Ensures (compareItem c regs) (·.fixup = none) := by
  cases c with
  | regs | float => exact .after fun _ => .after fun _ => .ok rfl
  | imm | zero => exact .after fun _ => .ok rfl

theorem fixup_of_mem_setItems (o : Outcome) (d : Gpr) : ∀ i ∈ setItems o d, i.fixup = none := by
  cases o <;> simp [setItems, setItem]

theorem ensures_aluItems (op : AluOp) (regs : OperandRegs) :
    Except.Ensures (aluItems op regs) fun is => ∀ i ∈ is, i.fixup = none := by
  cases op with
  | div => exact .after fun _ => .ok (by simp)
  | shl | shr | sar => exact .after fun _ => .ok (by simp)
  | _ => exact .after fun _ => .after fun _ => .ok (by simp)

theorem ensures_aluImmItem (op : AluOp) (v : Int64) (regs : OperandRegs) :
    Except.Ensures (aluImmItem op v regs) (·.fixup = none) := by
  refine .after fun _ => ?_
  cases op with
  | mul => exact .after fun _ => .ok rfl
  | div => exact .error _
  | _ => exact .ok rfl

theorem ensures_expand (s : Surroundings) (op : MachOp Test) (regs : OperandRegs) :
    Except.Ensures (expand s op regs) SoundPieces := by
  cases op with
  | params => exact .ok .nil
  | copy c => cases c <;> exact .after fun _ => .after fun _ => .ok (.one rfl)
  | spill | storeArg => exact .bind (ensures_store _ _ _) fun _ h => .ok (.one h)
  | reload | loadParam => exact .bind (ensures_load _ _ _) fun _ h => .ok (.one h)
  | const | neg | zeroFloat => exact .after fun _ => .ok (.one rfl)
  | loadPool => exact .after fun _ => .ok (soundPieces_relocated _ _ (le_length_memory ..))
  | alu op => exact .bind (ensures_aluItems op regs) fun _ h => .ok (.plain h)
  | aluImm op v => exact .bind (ensures_aluImmItem op v regs) fun _ h => .ok (.one h)
  | setIf t =>
    refine .bind (ensures_compareItem t.compare regs) fun _ h => .after fun d => .ok ?_
    exact .cons h (.plain (fixup_of_mem_setItems t.outcome d))
  | floatArith | toFloat => exact .after fun _ => .after fun _ => .ok (.one rfl)
  | load => exact .after fun _ => .bind (ensures_load _ _ _) fun _ h => .ok (.one h)
  | store => exact .after fun _ => .bind (ensures_store _ _ _) fun _ h => .ok (.one h)
  | branch t a b =>
    refine .bind (ensures_compareItem t.compare regs) fun _ h => .ok ?_
    exact .cons h (soundPieces_branchPieces s t.outcome a b)
  | jump b => exact .ok (soundPieces_reach s b)
  | ret =>
    refine .ok (.plain (List.forall_mem_append.mpr ⟨?_, ?_⟩))
    · split_ifs <;> simp
    · simp
  | call => exact .ok (soundPieces_relocated _ _ (by decide))
  | callSymbol => exact .ok (soundPieces_relocated _ _ (le_length_memory ..))

theorem isSound (abi : Abi) : (isa abi).IsSound where
  prologue f := by
    refine .of_plain (?_ : ∀ i ∈ X64.prologue f, i.fixup = none)
    unfold X64.prologue
    split_ifs <;> simp
  expand := ensures_expand

end X64

namespace Arm64

theorem soundItems_jumpItem (target : Nat) : SoundItems [jumpItem target] := .word rfl .nil

theorem soundPieces_reach (s : Surroundings) (b : Nat) : SoundPieces (reach s b) := by
  unfold reach
  split_ifs
  · exact .nil
  · exact .ofItems (soundItems_jumpItem b)

theorem soundPieces_branchPiece (c : Cond) (target : Nat) : SoundPieces [branchPiece c target] :=
  .sized (.word rfl .nil) (.plain rfl (soundItems_jumpItem target)) .nil

theorem soundPieces_branchPieces (s : Surroundings) (c : Cond) (t f : Nat) :
    SoundPieces (branchPieces s c t f) := by
  unfold branchPieces
  split_ifs
  · exact soundPieces_branchPiece _ f
  · exact (soundPieces_branchPiece _ t).append (soundPieces_reach s f)

theorem soundPieces_poolPiece (e : PoolEntry) (literal low : UInt32) (dst : String) :
    SoundPieces [poolPiece e literal low dst] := by
  refine .sized (.word rfl .nil) (.words rfl (fun scale hscale => ?_) .nil) .nil
  cases hscale
  exact ⟨Nat.le_refl 3, e, rfl⟩

theorem ensures_indexed (k : Access) (c : RegClass) (t : Reg) (base index : Num) :
    Except.Ensures (k.indexed c t base index) (·.fixup = none) :=
  .after fun _ => .ok rfl

theorem ensures_atOffset (k : Access) (c : RegClass) (t : Reg) (base : Num) (offset : Int64) :
    Except.Ensures (k.atOffset c t base offset) fun is => ∀ i ∈ is, i.fixup = none := by
  unfold Access.atOffset
  split_ifs
  · exact .after fun _ => .ok (by simp [Item.word])
  · refine .bind (ensures_indexed k c t base scratch) fun i hi => .ok ?_
    exact List.forall_mem_append.mpr ⟨List.forall_mem_map.mpr fun _ _ => rfl, by simpa using hi⟩

theorem ensures_compareItem (c : Compare) (regs : OperandRegs) :
    Except.Ensures (compareItem c regs) (·.fixup = none) := by
  cases c with
  | regs | float => exact .after fun _ => .after fun _ => .ok rfl
  | imm v =>
    refine .after fun _ => ?_
    split_ifs <;> exact .ok rfl

theorem ensures_aluImmItem (op : AluOp) (v : Int64) (regs : OperandRegs) :
    Except.Ensures (aluImmItem op v regs) (·.fixup = none) := by
  refine .after fun _ => .after fun _ => ?_
  cases op with
  | add =>
    dsimp only
    split_ifs <;> exact .ok rfl
  | shl | shr | sar => exact .ok rfl
  | _ => exact .error _

theorem fixup_of_mem_moveSp (mnemonic : String) (encode : Num → Num → UInt32 → Bool → UInt32)
    (bytes : UInt32) : ∀ i ∈ moveSp mnemonic encode bytes, i.fixup = none := by
  refine List.forall_mem_append.mpr ⟨?_, ?_⟩ <;> split_ifs <;> simp [Item.word]

theorem ensures_expand (s : Surroundings) (op : MachOp Test) (regs : OperandRegs) :
    Except.Ensures (expand s op regs) SoundPieces := by
  cases op with
  | params => exact .ok .nil
  | copy c => cases c <;> exact .after fun _ => .after fun _ => .ok (.one rfl)
  | spill | storeArg | reload | loadParam =>
    exact .bind (ensures_atOffset _ _ _ _ _) fun _ h => .ok (.plain h)
  | const v =>
    refine .after fun n => .ok ?_
    have hplain : SoundPieces (((movImm n v).map fun w => Item.word w.1 w.2).map .fixed) :=
      .plain (List.forall_mem_map.mpr fun _ _ => rfl)
    rwa [List.map_map] at hplain
  | loadPool e => exact .after fun _ => .ok (soundPieces_poolPiece e _ _ _)
  | zeroFloat => exact .after fun _ => .ok (.one rfl)
  | alu | floatArith => exact .after fun _ => .after fun _ => .after fun _ => .ok (.one rfl)
  | aluImm op v => exact .bind (ensures_aluImmItem op v regs) fun _ h => .ok (.one h)
  | neg | toFloat => exact .after fun _ => .after fun _ => .ok (.one rfl)
  | setIf t =>
    exact .bind (ensures_compareItem t.compare regs) fun _ h => .after fun _ => .ok
      (.cons h (.one rfl))
  | load c disp | store c disp =>
    refine .after fun _ => ?_
    cases disp with
    | some o => exact .bind (ensures_atOffset _ _ _ _ _) fun _ h => .ok (.plain h)
    | none => exact .after fun _ => .bind (ensures_indexed _ _ _ _ _) fun _ h => .ok (.one h)
  | branch t a b =>
    refine .bind (ensures_compareItem t.compare regs) fun _ h => .ok ?_
    exact .cons h (soundPieces_branchPieces s t.cond a b)
  | jump b => exact .ok (soundPieces_reach s b)
  | ret =>
    refine .ok (.plain (List.forall_mem_append.mpr ⟨List.forall_mem_append.mpr
      ⟨fixup_of_mem_moveSp _ _ _, ?_⟩, by simp [Item.word]⟩))
    split_ifs <;> simp [Item.word]
  | call => exact .ok (.ofItems (.word rfl .nil))
  | callSymbol name =>
    exact .ok ((soundPieces_poolPiece (.symbol name) _ _ _).append (.one rfl))

theorem isSound : isa.IsSound where
  prologue f := by
    refine .of_plain (List.forall_mem_append.mpr ⟨?_, fixup_of_mem_moveSp _ _ _⟩)
    split_ifs <;> simp [Item.word]
  expand := ensures_expand

end Arm64

namespace RiscV

theorem soundItems_farItems (target : RelocTarget) (name : String) (via : Num) (second : UInt32)
    (text : String) {rest : List Item} (h : SoundItems rest) :
    SoundItems (farItems target name via second text ++ rest) := by
  refine .words rfl (RelocKind.isApt_of_ne fun scale => ?_) h
  exact nofun

theorem soundItems_farJump (target : Nat) : SoundItems (farJump target) :=
  soundItems_farItems _ _ _ _ _ .nil

theorem soundPieces_reach (s : Surroundings) (b : Nat) : SoundPieces (reach s b) := by
  unfold reach
  split_ifs
  · exact .nil
  · exact .sized (.word rfl .nil) (soundItems_farJump b) .nil

theorem soundPieces_branchPiece (c : Cond) (a b : Num) (target : Nat) :
    SoundPieces [branchPiece c a b target] :=
  .sized (.word rfl .nil) (.plain rfl (soundItems_farJump target)) .nil

theorem soundPieces_branchPieces (s : Surroundings) (c : Cond) (a b : Num) (t f : Nat) :
    SoundPieces (branchPieces s c a b t f) := by
  unfold branchPieces
  split_ifs
  · exact soundPieces_branchPiece _ a b f
  · exact (soundPieces_branchPiece _ a b t).append (soundPieces_reach s f)

theorem fixup_of_mem_constItems (d : Num) (v : Int) : ∀ i ∈ constItems d v, i.fixup = none :=
  List.forall_mem_map.mpr fun _ _ => rfl

theorem fixup_of_mem_access (op : OpImm) (r : Num) (name : String) (base : Num) (offset : Int) :
    ∀ i ∈ access op r name base offset, i.fixup = none := by
  unfold access
  split_ifs
  · simp [Item.word]
  · refine List.forall_mem_append.mpr ⟨fixup_of_mem_constItems _ _, ?_⟩
    simp [op3Item, Item.word]

theorem fixup_of_mem_moveSp (delta : Int) : ∀ i ∈ moveSp delta, i.fixup = none := by
  unfold moveSp
  split_ifs
  · simp
  · simp [Item.word]
  · refine List.forall_mem_append.mpr ⟨fixup_of_mem_constItems _ _, ?_⟩
    simp [op3Item, Item.word]

theorem ensures_loadItems (c : RegClass) (d : Reg) (base : Num) (offset : Int) :
    Except.Ensures (loadItems c d base offset) fun is => ∀ i ∈ is, i.fixup = none :=
  .after fun _ => .ok (fixup_of_mem_access _ _ _ _ _)

theorem ensures_storeItems (c : RegClass) (u : Reg) (base : Num) (offset : Int) :
    Except.Ensures (storeItems c u base offset) fun is => ∀ i ∈ is, i.fixup = none :=
  .after fun _ => .ok (fixup_of_mem_access _ _ _ _ _)

theorem fixup_of_mem_setItems (c : Cond) (d a b : Num) : ∀ i ∈ setItems c d a b, i.fixup = none := by
  unfold setItems
  cases c
  case eq | ne =>
    dsimp only
    split_ifs <;> simp [op3Item, Item.word]
  case lt | ge => simp [op3Item, flip, Item.word]

theorem ensures_expand (s : Surroundings) (op : MachOp Test) (regs : OperandRegs) :
    Except.Ensures (expand s op regs) SoundPieces := by
  cases op with
  | params => exact .ok .nil
  | copy c => cases c <;> exact .after fun _ => .after fun _ => .ok (.one rfl)
  | spill | storeArg => exact .bind (ensures_storeItems _ _ _ _) fun _ h => .ok (.plain h)
  | reload | loadParam => exact .bind (ensures_loadItems _ _ _ _) fun _ h => .ok (.plain h)
  | const v => exact .after fun _ => .ok (.plain (fixup_of_mem_constItems _ _))
  | loadPool e => exact .after fun _ => .ok (.ofItems (soundItems_farItems _ _ _ _ _ .nil))
  | zeroFloat => exact .after fun _ => .ok (.one rfl)
  | alu | floatArith => exact .after fun _ => .after fun _ => .after fun _ => .ok (.one rfl)
  | aluImm op v =>
    refine .after fun _ => .after fun _ => ?_
    cases opImmOf? op with
    | some k => exact .ok (.one rfl)
    | none => exact .error _
  | neg | toFloat => exact .after fun _ => .after fun _ => .ok (.one rfl)
  | setIf t =>
    cases t with
    | int c l r =>
      exact .after fun _ => .after fun _ => .after fun _ => .ok (.plain (fixup_of_mem_setItems _ _ _ _))
    | float op =>
      refine .after fun _ => .after fun _ => .after fun _ => .ok (.plain ?_)
      refine List.forall_mem_cons.mpr ⟨rfl, ?_⟩
      split_ifs <;> simp [flip, Item.word]
  | load c disp =>
    refine .after fun _ => ?_
    cases disp with
    | some o => exact .bind (ensures_loadItems _ _ _ _) fun _ h => .ok (.plain h)
    | none =>
      exact .after fun _ => .bind (ensures_loadItems _ _ _ _) fun _ h => .ok (.cons rfl (.plain h))
  | store c disp =>
    refine .after fun _ => ?_
    cases disp with
    | some o => exact .bind (ensures_storeItems _ _ _ _) fun _ h => .ok (.plain h)
    | none =>
      exact .after fun _ => .bind (ensures_storeItems _ _ _ _) fun _ h => .ok (.cons rfl (.plain h))
  | branch t a b =>
    cases t with
    | int c l r =>
      exact .after fun _ => .after fun _ => .ok (soundPieces_branchPieces s c _ _ a b)
    | float op =>
      exact .after fun _ => .after fun _ => .ok
        (.cons rfl (soundPieces_branchPieces s _ t0 zero a b))
  | jump b => exact .ok (soundPieces_reach s b)
  | ret =>
    refine .ok (.plain (List.forall_mem_append.mpr ⟨List.forall_mem_append.mpr
      ⟨?_, fixup_of_mem_moveSp _⟩, by simp [Item.word]⟩))
    split_ifs
    · exact fixup_of_mem_access _ _ _ _ _
    · simp
  | call i =>
    exact .ok (.sized (.word rfl .nil) (soundItems_farItems _ _ _ _ _ .nil) .nil)
  | callSymbol name => exact .ok (.ofItems (soundItems_farItems _ _ _ _ _ (.plain rfl .nil)))

theorem isSound : isa.IsSound where
  prologue f := by
    refine .of_plain (List.forall_mem_append.mpr ⟨fixup_of_mem_moveSp _, ?_⟩)
    split_ifs
    · exact fixup_of_mem_access _ _ _ _ _
    · simp
  expand := ensures_expand

end RiscV

theorem Target.isSound_isa (t : Target) : t.isa.2.IsSound := by
  unfold Target.isa
  cases t.arch
  · exact X64.isSound t.abi
  · exact Arm64.isSound
  · exact RiscV.isSound

end SeaNodes
