import SeaNodes.Isa.RiscV
import SeaNodes.Proofs.Code.Fields

namespace SeaNodes

def InWords (ps : List Piece) : Prop :=
  ∀ p ∈ ps, ∀ form ∈ p.forms, ∀ i ∈ form, i.bytes.length = 4

namespace InWords

variable {ps qs : List Piece}

theorem nil : InWords [] := fun _ h => absurd h List.not_mem_nil

theorem append (hp : InWords ps) (hq : InWords qs) : InWords (ps ++ qs) :=
  List.forall_mem_append.mpr ⟨hp, hq⟩

theorem flatten {pss : List (List Piece)} (h : ∀ ps ∈ pss, InWords ps) : InWords pss.flatten := by
  intro p hp
  obtain ⟨ps, hps, hp⟩ := List.mem_flatten.mp hp
  exact h ps hps p hp

theorem items {is : List Item} (h : ∀ i ∈ is, i.bytes.length = 4) : InWords (is.map .fixed) := by
  refine List.forall_mem_map.mpr fun i hi form hform => ?_
  obtain rfl := List.mem_singleton.mp hform
  exact List.forall_mem_singleton.mpr (h i hi)

theorem one {i : Item} (h : i.bytes.length = 4) : InWords [.fixed i] :=
  items (List.forall_mem_singleton.mpr h)

theorem sized {short wide : List Item} (hshort : ∀ i ∈ short, i.bytes.length = 4)
    (hwide : ∀ i ∈ wide, i.bytes.length = 4) : InWords [.sized short wide] := by
  refine List.forall_mem_singleton.mpr fun form hform => ?_
  rcases List.mem_pair.mp hform with rfl | rfl
  · exact hshort
  · exact hwide

end InWords

theorem Draft.dvd_blocks_encode {d : Draft} (h : ∀ ps ∈ d.blocks, InWords ps) (long : BitSet) :
    ∀ offset ∈ (d.encode long).blocks, 4 ∣ offset := by
  have hpush (site : Option Nat) (form : List Item) (hform : ∀ i ∈ form, i.bytes.length = 4)
      (e : Encoded) (he : 4 ∣ e.code.size) : 4 ∣ (form.foldl (Encoded.push site) e).code.size := by
    induction form generalizing e with
    | nil => exact he
    | cons i form ih =>
      rw [List.forall_mem_cons] at hform
      refine ih hform.2 _ ?_
      rw [Encoded.size_push, hform.1]
      exact Nat.dvd_add he (Nat.dvd_refl 4)
  refine (encode_induction (P := fun e => 4 ∣ e.code.size ∧ ∀ offset ∈ e.blocks, 4 ∣ offset) long
    ⟨Nat.dvd_zero 4, fun b hb => absurd hb (Array.not_mem_empty b)⟩ (fun e he => ⟨he.1, ?_⟩)
    (fun _ he => he) fun e form site hform he _ => ⟨?_, ?_⟩).2
  · intro b hb
    rcases Array.mem_push.mp hb with hb | rfl
    · exact he.2 b hb
    · exact he.1
  · obtain ⟨p, hp, hform⟩ := List.mem_flatMap.mp hform
    obtain ⟨ps, hps, hp⟩ := List.mem_flatten.mp hp
    exact hpush site form (h ps hps p hp form hform) e he.1
  · rw [Encoded.field_foldl_push Encoded.blocks fun _ _ => rfl]
    exact he.2

namespace RiscV

theorem length_of_mem_constItems (d : Num) (v : Int) : ∀ i ∈ constItems d v, i.bytes.length = 4 :=
  List.forall_mem_map.mpr fun _ _ => rfl

theorem length_of_mem_access (op : OpImm) (r : Num) (name : String) (base : Num) (offset : Int) :
    ∀ i ∈ access op r name base offset, i.bytes.length = 4 := by
  unfold access
  split_ifs
  · exact List.forall_mem_singleton.mpr rfl
  · refine List.forall_mem_append.mpr ⟨length_of_mem_constItems _ _, ?_⟩
    exact List.forall_mem_cons.mpr ⟨rfl, List.forall_mem_singleton.mpr rfl⟩

theorem length_of_mem_moveSp (delta : Int) : ∀ i ∈ moveSp delta, i.bytes.length = 4 := by
  unfold moveSp
  split_ifs
  · exact fun _ h => absurd h List.not_mem_nil
  · exact List.forall_mem_singleton.mpr rfl
  · exact List.forall_mem_append.mpr
      ⟨length_of_mem_constItems _ _, List.forall_mem_singleton.mpr rfl⟩

theorem length_of_mem_farItems (target : RelocTarget) (name : String) (via : Num) (second : UInt32)
    (text : String) : ∀ i ∈ farItems target name via second text, i.bytes.length = 4 :=
  List.forall_mem_cons.mpr ⟨rfl, List.forall_mem_singleton.mpr rfl⟩

theorem length_of_mem_setItems (c : Cond) (d a b : Num) :
    ∀ i ∈ setItems c d a b, i.bytes.length = 4 := by
  unfold setItems
  cases c
  case eq | ne =>
    dsimp only
    split_ifs <;> simp [op3Item, Item.word, bytes32]
  case lt | ge => simp [op3Item, flip, Item.word, bytes32]

theorem inWords_jumpPiece (b : Nat) : InWords [jumpPiece b] :=
  .sized (List.forall_mem_singleton.mpr rfl) (length_of_mem_farItems _ _ _ _ _)

theorem inWords_branchPiece (c : Cond) (x y : Num) (b : Nat) : InWords [branchPiece c x y b] :=
  .sized (List.forall_mem_singleton.mpr rfl)
    (List.forall_mem_cons.mpr ⟨rfl, length_of_mem_farItems _ _ _ _ _⟩)

theorem inWords_reach (s : Surroundings) (b : Nat) : InWords (reach s b) := by
  unfold reach
  split_ifs
  · exact .nil
  · exact inWords_jumpPiece b

theorem inWords_branchPieces (s : Surroundings) (c : Cond) (x y : Num) (t f : Nat) :
    InWords (branchPieces s c x y t f) := by
  unfold branchPieces
  split_ifs
  · exact inWords_branchPiece _ x y f
  · exact (inWords_branchPiece _ x y t).append (inWords_reach s f)

theorem ensures_inWords (s : Surroundings) (op : MachOp Test) (regs : OperandRegs) :
    Except.Ensures (expand s op regs) InWords := by
  have hload (c : RegClass) (d : Reg) (base : Num) (offset : Int) :
      Except.Ensures (loadItems c d base offset) fun is => ∀ i ∈ is, i.bytes.length = 4 :=
    .after fun _ => .ok (length_of_mem_access _ _ _ _ _)
  have hstore (c : RegClass) (u : Reg) (base : Num) (offset : Int) :
      Except.Ensures (storeItems c u base offset) fun is => ∀ i ∈ is, i.bytes.length = 4 :=
    .after fun _ => .ok (length_of_mem_access _ _ _ _ _)
  cases op with
  | params => exact .ok .nil
  | copy c => cases c <;> exact .after fun _ => .after fun _ => .ok (.one rfl)
  | spill | storeArg => exact .bind (hstore _ _ _ _) fun _ h => .ok (.items h)
  | reload | loadParam => exact .bind (hload _ _ _ _) fun _ h => .ok (.items h)
  | const v => exact .after fun _ => .ok (.items (length_of_mem_constItems _ _))
  | loadPool e => exact .after fun _ => .ok (.items (length_of_mem_farItems _ _ _ _ _))
  | zeroFloat => exact .after fun _ => .ok (.one rfl)
  | alu | floatArith => exact .after fun _ => .after fun _ => .after fun _ => .ok (.one rfl)
  | aluImm op v =>
    refine .after fun _ => .after fun _ => ?_
    cases opImmOf? op with
    | some k => exact .ok (.one rfl)
    | none => exact .error _
  | neg | toFloat => exact .after fun _ => .after fun _ => .ok (.one rfl)
  | setIf t =>
    cases t with
    | int c l r =>
      exact .after fun _ => .after fun _ => .after fun _ => .ok (.items (length_of_mem_setItems _ _ _ _))
    | float op =>
      refine .after fun _ => .after fun _ => .after fun _ => .ok (.items ?_)
      refine List.forall_mem_cons.mpr ⟨rfl, ?_⟩
      split_ifs
      · exact List.forall_mem_singleton.mpr rfl
      · exact fun _ h => absurd h List.not_mem_nil
  | load c disp =>
    refine .after fun _ => ?_
    cases disp with
    | some o => exact .bind (hload _ _ _ _) fun _ h => .ok (.items h)
    | none =>
      exact .after fun _ => .bind (hload _ _ _ _) fun _ h =>
        .ok (.items (List.forall_mem_cons.mpr ⟨rfl, h⟩))
  | store c disp =>
    refine .after fun _ => ?_
    cases disp with
    | some o => exact .bind (hstore _ _ _ _) fun _ h => .ok (.items h)
    | none =>
      exact .after fun _ => .bind (hstore _ _ _ _) fun _ h =>
        .ok (.items (List.forall_mem_cons.mpr ⟨rfl, h⟩))
  | branch t a b =>
    cases t with
    | int c l r => exact .after fun _ => .after fun _ => .ok (inWords_branchPieces s c _ _ a b)
    | float op =>
      exact .after fun _ => .after fun _ => .ok
        ((InWords.one rfl).append (inWords_branchPieces s _ t0 zero a b))
  | jump b => exact .ok (inWords_reach s b)
  | ret =>
    refine .ok (.items (List.forall_mem_append.mpr ⟨List.forall_mem_append.mpr
      ⟨?_, length_of_mem_moveSp _⟩, List.forall_mem_singleton.mpr rfl⟩))
    split_ifs
    · exact length_of_mem_access _ _ _ _ _
    · exact fun _ h => absurd h List.not_mem_nil
  | call i =>
    exact .ok (.sized (List.forall_mem_singleton.mpr rfl) (length_of_mem_farItems _ _ _ _ _))
  | callSymbol name =>
    exact .ok (.items (List.forall_mem_append.mpr
      ⟨length_of_mem_farItems _ _ _ _ _, List.forall_mem_singleton.mpr rfl⟩))

theorem dvd_blocks {names : Array String} {a : Allocated Test} {d : Draft}
    (hd : a.draft isa names = .ok d) (long : BitSet) : ∀ offset ∈ (d.encode long).blocks, 4 ∣ offset := by
  refine d.dvd_blocks_encode (fun ps hps => ?_) long
  obtain ⟨blocks, hblocks, hd⟩ := Except.bind_eq_ok hd
  obtain rfl := Except.ok.inj hd
  obtain ⟨⟨block, i⟩, -, hpieces⟩ := Except.exists_of_mem_mapM hblocks hps
  obtain ⟨pss, hpss, rfl⟩ := Allocated.exists_of_blockPieces hpieces
  refine InWords.append ?_ (.flatten fun qs hqs => ?_)
  · split_ifs
    · refine .items (List.forall_mem_append.mpr ⟨length_of_mem_moveSp _, ?_⟩)
      split_ifs
      · exact length_of_mem_access _ _ _ _ _
      · exact fun _ h => absurd h List.not_mem_nil
    · exact .nil
  · obtain ⟨inst, -, hqs⟩ := Except.exists_of_mem_mapM hpss hqs
    obtain ⟨regs, -, hqs⟩ := Except.bind_eq_ok hqs
    split_ifs at hqs
    · obtain rfl := Except.ok.inj hqs
      exact .nil
    · exact ensures_inWords _ inst.op regs qs hqs

end RiscV

end SeaNodes
