import SeaNodes.Proofs.Eval.OnCourse

namespace SeaNodes

namespace Graph

/-- Whether a value that comes from outside the function, or from a cast, is a member of the type it is
declared with. -/
def declares (g : Graph) (n : NodeId) (v : Value) : Bool :=
  match g.op n with
  | .param _ | .load | .proj (_ + 1) | .cast => (g.decl n).has v
  | _ => true

/-- Whether a value that comes from outside the function is a member of the type it is declared with,
and one that comes from a cast a member of the type that the analysis gave the cast. -/
def accepts (g : Graph) (n : NodeId) (v : Value) : Bool :=
  match g.op n with
  | .param _ | .load | .proj (_ + 1) => (g.decl n).has v
  | .cast => (g.ty (some n)).has v
  | _ => true

theorem accepts_of_declares {g : Graph} {n : NodeId} {v : Value} (hop : g.op n ≠ .cast)
    (h : g.declares n v) : g.accepts n v := by
  revert h
  unfold declares accepts
  split <;> simp_all

/-- Casts hang on control that is no branch, and ask for what their operand can be. -/
structure CastsFit (g : Graph) : Prop where
  ctrl : ∀ n ∈ g.live, g.op n = .cast → ∀ c ∈ g.input n 0, g.op c ≠ .fork
  common : ∀ n ∈ g.live, g.op n = .cast →
    g.ty (g.input n 1) = .top ∨ (g.ty (g.input n 1)).join (g.decl n) ≠ .top

instance (g : Graph) : Decidable g.CastsFit :=
  decidable_of_iff ((∀ n ∈ g.live, g.op n = .cast → ∀ c ∈ g.input n 0, g.op c ≠ .fork) ∧
      ∀ n ∈ g.live, g.op n = .cast →
        g.ty (g.input n 1) = .top ∨ (g.ty (g.input n 1)).join (g.decl n) ≠ .top)
    ⟨fun h => ⟨h.1, h.2⟩, fun h => ⟨h.ctrl, h.common⟩⟩

/-- Operators get operands they are defined for: what is negated is an integer, and a known float
decides no live branch. -/
structure OperandsFit (g : Graph) : Prop where
  neg : ∀ n ∈ g.live, g.op n = .neg → g.ty (g.input n 1) = .top ∨ (g.ty (g.input n 1)).isInt
  fork : ∀ n ∈ g.live, g.op n = .fork → g.ty (g.input n 0) = .ctrl →
    (g.ty (g.input n 1)).double? = none ∨ g.ty (some n) = .branch true true

instance (g : Graph) : Decidable g.OperandsFit :=
  decidable_of_iff ((∀ n ∈ g.live, g.op n = .neg →
      g.ty (g.input n 1) = .top ∨ (g.ty (g.input n 1)).isInt) ∧
      ∀ n ∈ g.live, g.op n = .fork → g.ty (g.input n 0) = .ctrl →
        (g.ty (g.input n 1)).double? = none ∨ g.ty (some n) = .branch true true)
    ⟨fun h => ⟨h.1, h.2⟩, fun h => ⟨h.neg, h.fork⟩⟩

variable {g : Graph} {n i : NodeId} {a : Activation} {v w : Value}

/-- A node without effects computes a member of its type from members of its inputs' types. -/
theorem Analyzed.has_of_pureValue (h : g.Analyzed) (hn : n ∈ g.live) (ha : a.graph = g)
    (hget : ∀ j w, a.get (g.input n j) = .ok w → (g.ty (g.input n j)).has w)
    (hneg : g.op n = .neg → g.ty (g.input n 1) = .top ∨ (g.ty (g.input n 1)).isInt)
    (hproj : ∀ k, g.op n = .proj k → ∃ src, g.input n 0 = some src ∧
      (g.op src = .alloc ∧ g.ty (some src) ≠ .top ∨ g.op src = .callEnd ∧ g.ty (some src) = .ctrl))
    (haccepts : g.accepts n v) (hv : a.pureValue n = .ok (some v)) : (g.ty (some n)).has v := by
  by_cases hcast : g.op n = .cast
  · simpa only [accepts, hcast] using haccepts
  · refine Ty.has_of_meet_eq (h.settled n hn hcast) ?_
    have hint {j : Nat} {x : Int64} (hx : a.getInt (g.input n j) = .ok x) :
        (g.ty (g.input n j)).has (.int x) := hget j _ (Activation.get_of_getInt hx)
    have hfloat {j : Nat} {x : Double} (hx : a.getFloat (g.input n j) = .ok x) :
        (g.ty (g.input n j)).has (.float x) := hget j _ (Activation.get_of_getFloat hx)
    unfold Activation.pureValue at hv
    rw [ha] at hv
    dsimp only at hv
    split at hv
    case h_1 => cases hv
    case h_2 t hop =>
      split at hv
      case h_2 => cases hv
      case h_1 x hx =>
        obtain rfl := Option.some.inj (Except.ok.inj hv)
        simp only [typeOf, hop]
        exact Ty.has_of_ofConst? hx
    case h_3 k hop =>
      simp only [accepts, hop] at haccepts
      simpa only [typeOf, hop] using haccepts
    case h_4 hop =>
      obtain rfl := Option.some.inj (Except.ok.inj hv)
      simp only [typeOf, hop]
      rfl
    case h_5 hop => exact absurd hop hcast
    case h_6 op hop =>
      obtain ⟨x, hx, hv⟩ := Except.bind_eq_ok hv
      obtain ⟨y, hy, hv⟩ := Except.bind_eq_ok hv
      obtain ⟨z, hz, hv⟩ := Except.bind_eq_ok hv
      obtain rfl := Option.some.inj (Except.ok.inj hv)
      simp only [typeOf, hop]
      exact Ty.has_arith (hint hx) (hint hy) hz
    case h_7 op hop =>
      obtain ⟨x, hx, hv⟩ := Except.bind_eq_ok hv
      obtain ⟨y, hy, hv⟩ := Except.bind_eq_ok hv
      obtain rfl := Option.some.inj (Except.ok.inj hv)
      simp only [typeOf, hop]
      exact Ty.has_floatArith (hfloat hx) (hfloat hy)
    case h_8 op hop =>
      obtain ⟨x, hx, hv⟩ := Except.bind_eq_ok hv
      obtain ⟨y, hy, hv⟩ := Except.bind_eq_ok hv
      obtain rfl := Option.some.inj (Except.ok.inj hv)
      simp only [typeOf, hop]
      exact Ty.has_bit (hint hx) (hint hy)
    case h_9 hop =>
      obtain ⟨x, hx, hv⟩ := Except.bind_eq_ok hv
      have hhas := hget 1 x hx
      simp only [typeOf, hop]
      split at hv
      case h_1 y =>
        rcases hneg hop with htop | hisInt
        · rw [htop] at hhas
          cases hhas
        · cases hty : g.ty (g.input n 1) with
          | int lo hi =>
            rw [hty] at hhas
            cases hhas
          | _ =>
            rw [hty] at hisInt
            cases hisInt
      case h_2 y =>
        obtain rfl := Option.some.inj (Except.ok.inj hv)
        exact Ty.has_neg hhas
      case h_3 => cases hv
    case h_10 hop =>
      obtain ⟨x, hx, hv⟩ := Except.bind_eq_ok hv
      obtain rfl := Option.some.inj (Except.ok.inj hv)
      simp only [typeOf, hop]
      exact Ty.has_not (hget 1 x hx)
    case h_11 op hop =>
      obtain ⟨x, hx, hv⟩ := Except.bind_eq_ok hv
      obtain ⟨y, hy, hv⟩ := Except.bind_eq_ok hv
      obtain rfl := Option.some.inj (Except.ok.inj hv)
      simp only [typeOf, hop]
      exact Ty.has_cmp (hget 1 x hx) (hget 2 y hy)
    case h_12 op hop =>
      obtain ⟨x, hx, hv⟩ := Except.bind_eq_ok hv
      obtain ⟨y, hy, hv⟩ := Except.bind_eq_ok hv
      obtain rfl := Option.some.inj (Except.ok.inj hv)
      simp only [typeOf, hop]
      exact Ty.has_floatCmp (hfloat hx) (hfloat hy)
    case h_13 hop =>
      obtain ⟨x, hx, hv⟩ := Except.bind_eq_ok hv
      obtain rfl := Option.some.inj (Except.ok.inj hv)
      simp only [typeOf, hop]
      exact Ty.has_toFloat (hint hx)
    case h_14 k hop =>
      obtain ⟨src, hsrc, hkind⟩ := hproj k hop
      rw [hsrc] at hv
      simp only [typeOf, hop, hsrc, op?]
      rcases hkind with ⟨halloc, htop⟩ | ⟨hend, hctrl⟩
      · simp only [op?, halloc] at hv
        split at hv
        case h_1 hcall => cases hcall
        case h_2 =>
          obtain rfl := Option.some.inj (Except.ok.inj hv)
          simp only [halloc, if_neg htop]
          rfl
        case h_3 => cases hv
      · simp only [op?, hend] at hv
        simp only [hend, hctrl, ne_eq, not_true, if_false]
        split at hv
        case h_1 =>
          simp only [accepts, hop] at haccepts
          exact haccepts
        case h_2 =>
          obtain rfl := Option.some.inj (Except.ok.inj hv)
          rfl
        case h_3 => cases hv
    case h_15 => cases hv

theorem has_foldl_phiType {e : Edge} {r : NodeId} {i : Nat} (hpred : g.ty (g.input r i) = .ctrl)
    (he : e.isSome) (hv : (g.ty e).has v) (es : List (Edge × Nat)) (t : Ty)
    (h : t.has v ∨ (e, i) ∈ es) : (es.foldl (fun t (e, i) =>
      if g.ty (g.inputOf (some r) i) = .ctrl ∧ e.isSome then t.meet (g.ty e) else t) t).has v := by
  induction es generalizing t with
  | nil => exact h.resolve_right List.not_mem_nil
  | cons e es ih =>
    rw [List.foldl_cons]
    apply ih
    rcases h with ht | hmem
    · left
      dsimp only
      split_ifs
      · exact Ty.has_meet (.inl ht)
      · exact ht
    · rcases List.mem_cons.mp hmem with rfl | hmem
      · left
        dsimp only
        rw [if_pos ⟨hpred, he⟩]
        exact Ty.has_meet (.inr hv)
      · exact .inr hmem

theorem has_phiType {r x : NodeId} {j : Nat} (hr : g.input n 0 = some r)
    (hlive : g.ty (some r) = .ctrl) (hclosed : (g.node r).inProgress = false)
    (hx : g.input n (j + 1) = some x) (hpred : g.ty (g.input r (j + 1)) = .ctrl)
    (hv : (g.ty (some x)).has v) : (g.phiType n).has v := by
  have hmem : (some x, j + 1) ∈ (g.inputs n).toList.zipIdx.drop 1 := by
    rw [input_eq_getElem?, Option.join_eq_some_iff] at hx
    refine List.mem_of_getElem? (i := j) ?_
    rw [List.getElem?_drop, List.getElem?_zipIdx, Array.getElem?_toList, Nat.add_comm 1 j, hx]
    simp
  have hopen : g.isOpen (some r) = false := hclosed
  unfold phiType
  dsimp only
  rw [hr, if_neg (not_not.mpr hlive), hopen, if_neg Bool.false_ne_true]
  exact has_foldl_phiType hpred rfl hv _ .top (.inr hmem)

end Graph

/-- A schedule of an analyzed graph. -/
structure Schedule.WellTyped (s : Schedule) (g : Graph) : Prop where
  covers : s.Covers g
  wellFormed : g.WellFormed
  shaped : g.Shaped
  analyzed : g.Analyzed
  operands : g.OperandsFit

namespace Point

/-- A run that stays within the types: its block is live, and every value is a member of the type of
its node. -/
structure Typed (g : Graph) (s : Schedule) (p : Point) : Prop where
  routine : p.act.routine = ⟨g, s⟩
  size : p.act.values.size = g.size
  lt : p.act.block < s.cfg.size
  walk : ∃ rest, s.cfg.Walk (p.act.block :: rest)
  live : g.ty (some (s.cfg.block p.act.block).head) = .ctrl
  available : ∃ pre, s.nodes p.act.block = pre ++ p.rest ∧ s.Available g p.act p.act.block pre
  has : ∀ n v, p.act.value n = some v → (g.ty (some n)).has v

/-- What a run takes from outside or from a cast on its way from `p` to `q` is as declared. -/
def Declares (p q : Point) : Prop :=
  ∀ n ∈ p.rest.head?, ∀ v ∈ q.act.value n, p.act.graph.declares n v

instance (p q : Point) : Decidable (p.Declares q) :=
  inferInstanceAs (Decidable (∀ n ∈ p.rest.head?, ∀ v ∈ q.act.value n, _ = true))

/-- What a run takes from outside on its way from `p` to `q` is as declared, and what it takes from a
cast is as analyzed. -/
def Accepts (p q : Point) : Prop :=
  ∀ n ∈ p.rest.head?, ∀ v ∈ q.act.value n, p.act.graph.accepts n v

instance (p q : Point) : Decidable (p.Accepts q) :=
  inferInstanceAs (Decidable (∀ n ∈ p.rest.head?, ∀ v ∈ q.act.value n, _ = true))

variable {g : Graph} {s : Schedule} {p q : Point} {n c : NodeId} {v w : Value} {rs : Routines}
  {k : Nat} {call : Machine.Caller} {m m' : Machine} {rest : List NodeId}

namespace Typed

theorem graph (h : p.Typed g s) : p.act.graph = g := congrArg Routine.graph h.routine

theorem has_of_get (h : p.Typed g s) (hs : s.WellTyped g) (hn : n ∈ g.live) (j : Nat)
    (hget : p.act.get (g.input n j) = .ok w) : (g.ty (g.input n j)).has w := by
  cases hi : g.input n j with
  | none =>
    rw [hi] at hget
    exact absurd hget Activation.get_none
  | some i =>
    rw [hi] at hget
    cases hvalue : p.act.value i with
    | some v =>
      rw [Activation.get_of_value hvalue, Except.ok.injEq] at hget
      exact hget ▸ h.has i v hvalue
    | none =>
      obtain ⟨t, hop, hconst⟩ := (Activation.get_of_not_value hvalue).mp hget
      rw [h.graph] at hop
      have hlt : i < g.size := Graph.lt_size_of_op_ne (by simp [hop])
      refine Ty.has_of_meet_eq (hs.analyzed.settled i (hs.wellFormed.input_live hn hi hlt)
        (by simp [hop])) ?_
      simp only [Graph.typeOf, hop]
      exact Ty.has_of_ofConst? hconst

theorem ty_of_mem_ctrl (h : p.Typed g s) (hs : s.WellTyped g)
    (hc : c ∈ (s.cfg.block p.act.block).ctrl) (hfork : g.op c ≠ .fork) : g.ty (some c) = .ctrl :=
  hs.analyzed.ty_of_mem_ctrl hs.shaped hs.covers.built h.live hc hfork

theorem listed (h : p.Typed g s) (hrest : p.rest = n :: rest) (hcode : (g.op n).isCode) :
    s.Listed g n p.act.block := by
  obtain ⟨pre, hsplit, -⟩ := h.available
  refine ⟨h.lt, hcode, ?_⟩
  rw [hsplit, hrest]
  simp

/-- A state of memory that a node uses, or an object that it is told of, is known by then. -/
theorem ty_ne_top_of_input (h : p.Typed g s) (hs : s.WellTyped g) (hrest : p.rest = n :: rest)
    (hcode : (g.op n).isCode) (hphi : g.op n ≠ .phi) {i : NodeId} {j : Nat}
    (hi : g.input n j = some i)
    (hop : (g.op i).isState ∨ g.op i = .alloc) : g.ty (some i) ≠ .top := by
  have hn := h.listed hrest hcode
  obtain ⟨hlive, -⟩ := hn.live hs.covers.runnable
  have hlt : i < g.size := Graph.lt_size_of_op_ne fun hstart => by
    rw [hstart] at hop
    exact hop.elim nofun nofun
  have hilive := hs.wellFormed.input_live hlive hi hlt
  have hdata : (g.op i).isCfg = false ∧ g.floats i = false ∧ (g.op i).isCode ∧
      Schedule.dataBlock? g s i ≠ .ok none := by
    have hmap {x : NodeId} {e : Edge} :
        some <$> s.pinnedBlock g x e ≠ (.ok none : Except Fault (Option BlockId)) := by
      cases s.pinnedBlock g x e <;> exact fun h => nomatch h
    unfold Graph.floats Schedule.dataBlock?
    rcases hop with hop | hop
    · cases hop' : g.op i with
      | startMem => exact ⟨rfl, rfl, rfl, fun h => nomatch h⟩
      | phi | store => exact ⟨rfl, rfl, rfl, hmap⟩
      | proj _ =>
        refine ⟨rfl, rfl, rfl, ?_⟩
        dsimp only
        split
        · split_ifs
          · exact hmap
          · exact hmap
        · exact fun h => nomatch h
      | _ =>
        rw [hop'] at hop
        exact nomatch hop
    · rw [hop]
      exact ⟨rfl, rfl, rfl, hmap⟩
  obtain ⟨hcfg, hfloats, hicode, hne⟩ := hdata
  have hplace := hs.covers.pinned.data i hilive hcfg hfloats
  cases hblock : s.blockOf.get i with
  | none =>
    rw [hblock] at hplace
    exact absurd hplace hne
  | some d =>
    obtain ⟨walk, hwalk⟩ := h.walk
    obtain ⟨pre, hsplit, havail⟩ := h.available
    rw [hrest] at hsplit
    obtain ⟨w, hw⟩ := Option.isSome_iff_exists.mp
      (havail.input hs.covers hwalk hn hphi hsplit hi hilive hicode hblock)
    exact Ty.ne_top_of_has (h.has i w hw)

theorem live_of_usesMemory (h : p.Typed g s) (hs : s.WellTyped g) (hrest : p.rest = n :: rest)
    (hop : (g.op n).usesMemory) : g.ctrlLive n ∧ g.ty (g.input n 1) ≠ .top := by
  have hcode : (g.op n).isCode := by
    cases hop' : g.op n <;> simp_all [Op.usesMemory, Op.isCode, Op.isCfg]
  have hn := h.listed hrest hcode
  obtain ⟨hmem, hfork⟩ := hs.shaped.memory n (hn.live hs.covers.runnable).1 hop
  constructor
  · obtain ⟨c, hc, hmem⟩ := hs.covers.ctrl_of_pinned hn (.inl hop)
    rw [hc] at hfork
    have hty := h.ty_of_mem_ctrl hs hmem (by simpa using hfork)
    simp [Graph.ctrlLive, hc, hty]
  · obtain ⟨i, hi, hstate⟩ := (Option.any_eq_true _ _).mp hmem
    rw [hi]
    refine h.ty_ne_top_of_input hs hrest hcode ?_ hi (.inl hstate)
    intro hphi
    rw [hphi] at hop
    cases hop

/-- What a node computes is a member of its type. -/
theorem has_of_stepNode (h : p.Typed g s) (hs : s.WellTyped g) (hrest : p.rest = n :: rest)
    (hstep : Machine.stepNode call m p.act n = (.ok (some v), m')) (haccepts : g.accepts n v) :
    (g.ty (some n)).has v := by
  have hcode : (g.op n).isCode := by
    by_contra hcode
    have heffect : (p.act.graph.op n).hasEffect = false := by
      rw [h.graph, Bool.eq_false_iff]
      exact fun heffect => hcode (Op.isCode_of_hasEffect heffect)
    rw [Machine.stepNode_of_pure heffect,
      Activation.pureValue_of_not_code (by rw [h.graph]; simpa using hcode)] at hstep
    cases (Prod.mk.inj hstep).1
  have hn := h.listed hrest hcode
  obtain ⟨hlive, hblock⟩ := hn.live hs.covers.runnable
  have hget (j : Nat) (w : Value) := h.has_of_get hs hlive j (w := w)
  have hsettled (hcast : g.op n ≠ .cast) (htype : (g.typeOf n).has v) : (g.ty (some n)).has v :=
    Ty.has_of_meet_eq (hs.analyzed.settled n hlive hcast) htype
  unfold Machine.stepNode at hstep
  rw [h.graph] at hstep
  split at hstep
  case h_1 hop =>
    obtain ⟨hctrl, hmem⟩ := h.live_of_usesMemory hs hrest (by rw [hop]; rfl)
    have hptr : g.ty (g.input n 2) ≠ .top := by
      cases hload : m.load p.act n with
      | error e =>
        rw [hload] at hstep
        cases (Prod.mk.inj hstep).1
      | ok x =>
        obtain ⟨obj, hobj, -⟩ := Except.bind_eq_ok hload
        rw [h.graph] at hobj
        exact Ty.ne_top_of_has (hget 2 obj hobj)
    refine hsettled (by simp [hop]) ?_
    simp only [Graph.accepts, hop] at haccepts
    simpa only [Graph.typeOf, hop, hctrl, hmem, hptr, Bool.not_true, Bool.false_eq_true, or_self,
      if_false] using haccepts
  case h_2 hop =>
    obtain ⟨hctrl, hmem⟩ := h.live_of_usesMemory hs hrest (by rw [hop]; rfl)
    split at hstep
    case h_2 => cases (Prod.mk.inj hstep).1
    case h_1 o i x htarget =>
      obtain ⟨obj, hobj, -⟩ := Except.bind_eq_ok htarget
      rw [h.graph] at hobj
      have hptr := Ty.ne_top_of_has (hget 2 obj hobj)
      obtain rfl := Option.some.inj (Except.ok.inj (Prod.mk.inj hstep).1)
      refine hsettled (by simp [hop]) ?_
      simp only [Graph.typeOf, hop, hctrl, hmem, hptr, Bool.not_true, Bool.false_eq_true, or_self,
        if_false]
      rfl
  case h_3 hop =>
    obtain ⟨hctrl, hmem⟩ := h.live_of_usesMemory hs hrest (by rw [hop]; rfl)
    split at hstep
    case h_2 => cases (Prod.mk.inj hstep).1
    case h_1 =>
      obtain rfl := Option.some.inj (Except.ok.inj (Prod.mk.inj hstep).1)
      refine hsettled (by simp [hop]) ?_
      simp only [Graph.typeOf, hop, hctrl, hmem, Bool.not_true, Bool.false_eq_true, or_self,
        if_false]
      rw [Ty.has_ref _ 0]
      exact hs.shaped.alloc n hlive hop
  case h_4 hop =>
    have hmem : n ∈ (s.cfg.block p.act.block).ctrl := by
      refine (hs.covers.built.chained.blockOf n _).mp ?_
      rw [← (hs.covers.pinned.ctrl n hlive (by rw [hop]; rfl) (by simp [hop]) (by simp [hop])).2]
      exact hblock
    rw [h.ty_of_mem_ctrl hs hmem (by simp [hop])]
    rfl
  case h_5 =>
    refine hs.analyzed.has_of_pureValue hlive h.graph hget (hs.operands.neg n hlive) ?_ haccepts
      (Prod.mk.inj hstep).1
    intro k hop
    obtain ⟨src, hsrc, hkind⟩ := (Option.any_eq_true _ _).mp (hs.shaped.proj n hlive (by rw [hop]))
    rw [Bool.or_eq_true, beq_iff_eq, beq_iff_eq] at hkind
    refine ⟨src, hsrc, ?_⟩
    rcases hkind with halloc | hend
    · exact .inl ⟨halloc, h.ty_ne_top_of_input hs hrest hcode (by simp [hop]) hsrc (.inr halloc)⟩
    · have hmem := (hs.covers.source_of_proj hn hop hsrc).2 (by simp [hend])
      exact .inr ⟨hend, h.ty_of_mem_ctrl hs hmem (by simp [hend])⟩

theorem permits_of_get (h : p.Typed g s) (hs : s.WellTyped g) {t : NodeId}
    (ht : (s.cfg.block p.act.block).terminator = some t) (hop : g.op t = .fork)
    (hget : p.act.get (g.input t 1) = .ok v) : (g.ty (some t)).permits v.isTruthy := by
  have hmem := List.mem_of_getLast? (hs.covers.built.chained.terminator _ t ht).1
  have hlive := hs.covers.built.chained.live _ t hmem
  have hctrl : g.ty (g.input t 0) = .ctrl := by
    rcases hs.covers.built.chained.head_or_continues hmem with hhead | ⟨pre, x, post, hsplit, hcont⟩
    · have hstarts := hs.covers.built.chained.starts _ h.lt
      rw [← hhead] at hstarts
      exact absurd hop (Schedule.isCode_eq_false_of_startsAt hs.wellFormed hstarts).2.1
    · rw [hcont.input]
      refine h.ty_of_mem_ctrl hs ?_ hcont.not_fork
      rw [hsplit]
      simp
  rcases hs.operands.fork t hlive hop hctrl with hfloat | hboth
  · exact hs.analyzed.permits_of_fork hlive hop hctrl (h.has_of_get hs hlive 1 hget) hfloat
  · rw [hboth]
    cases v.isTruthy <;> rfl

variable {b : BlockId} {j : Nat}

/-- The block that control goes on to is live, and so is the edge on which it comes to a region. -/
theorem live_of_leave (h : p.Typed g s) (hs : s.WellTyped g)
    (hleave : p.act.leave = .ok (.inl b)) (hb : b < s.cfg.size)
    (hj : (s.cfg.block b).preds[j]? = some p.act.block) :
    g.ty (some (s.cfg.block b).head) = .ctrl ∧ ((g.op (s.cfg.block b).head).isRegion →
      g.ty (g.input (s.cfg.block b).head (j + 1)) = .ctrl) := by
  have hheadLive : (s.cfg.block b).head ∈ g.live := by
    refine hs.covers.built.chained.live b _ (List.mem_of_mem_head? ?_)
    rw [hs.covers.built.chained.head b hb]
    exact rfl
  unfold Activation.leave at hleave
  rw [h.graph, h.routine] at hleave
  dsimp only at hleave
  split at hleave
  case h_1 hterm =>
    cases hsucc : (s.cfg.block p.act.block).succs.head? with
    | none =>
      rw [hsucc] at hleave
      exact nomatch hleave
    | some d =>
      rw [hsucc] at hleave
      obtain rfl := Sum.inl.inj (Except.ok.inj hleave)
      obtain ⟨hregion, hnofork⟩ := hs.covers.built.region_of_jump h.lt hterm hsucc
      obtain ⟨x, hx, hxmem⟩ := hs.covers.built.input_of_pred hb hregion hj
      have hty := h.ty_of_mem_ctrl hs hxmem (hnofork x hxmem)
      refine ⟨hs.analyzed.ty_of_region hheadLive hregion hx hty, fun _ => ?_⟩
      rw [hx]
      exact hty
  case h_2 t hterm =>
    split at hleave
    case h_1 =>
      split at hleave
      · obtain ⟨w, -, hleave⟩ := Except.bind_eq_ok hleave
        exact nomatch hleave
      · exact nomatch hleave
    case h_2 hop =>
      obtain ⟨w, hw, hleave⟩ := Except.bind_eq_ok hleave
      have hsucc : (s.cfg.block p.act.block).succs[if w.isTruthy then 0 else 1]? = some b := by
        cases hget : (s.cfg.block p.act.block).succs[if w.isTruthy then 0 else 1]? with
        | none =>
          rw [hget] at hleave
          exact nomatch hleave
        | some d =>
          rw [hget] at hleave
          exact congrArg some (Sum.inl.inj (Except.ok.inj hleave))
      obtain ⟨hside, hinput⟩ :=
        hs.covers.built.side_of_fork hs.wellFormed h.lt hterm hop hsucc
      refine ⟨hs.analyzed.ty_of_side hheadLive hside hinput (h.permits_of_get hs hterm hop hw), ?_⟩
      intro hregion
      rw [hside] at hregion
      exact nomatch hregion
    case h_3 => exact nomatch hleave

theorem head_live (hs : s.WellTyped g) (hb : b < s.cfg.size) :
    (s.cfg.block b).head ∈ g.live := by
  refine hs.covers.built.chained.live b _ (List.mem_of_mem_head? ?_)
  rw [hs.covers.built.chained.head b hb]
  exact rfl

theorem has_of_phi (h : p.Typed g s) (hs : s.WellTyped g) (hn : s.Listed g n b)
    (hop : g.op n = .phi) (hlive : g.ty (some (s.cfg.block b).head) = .ctrl)
    (hedge : (g.op (s.cfg.block b).head).isRegion →
      g.ty (g.input (s.cfg.block b).head (j + 1)) = .ctrl)
    (hget : p.act.get (g.input n (j + 1)) = .ok v) : (g.ty (some n)).has v := by
  have hnlive := (hn.live hs.covers.runnable).1
  have hhas := h.has_of_get hs hnlive (j + 1) hget
  obtain ⟨hr, hregion⟩ := hs.covers.head_of_phi hs.shaped.phisOnRegions hn hop
  refine Ty.has_of_meet_eq (hs.analyzed.settled n hnlive (by simp [hop])) ?_
  simp only [Graph.typeOf, hop]
  cases hx : g.input n (j + 1) with
  | none =>
    rw [hx] at hget
    exact absurd hget Activation.get_none
  | some x =>
    rw [hx] at hhas
    exact Graph.has_phiType hr hlive (hs.shaped.closed _ (head_live hs hn.lt)) hx (hedge hregion) hhas

theorem onCourse (h : p.Typed g s) : p.OnCourse g s :=
  ⟨h.routine, h.size, h.lt, h.walk, h.available⟩

theorem enter (h : p.Typed g s) (hs : s.WellTyped g) (hrest : p.rest = [])
    (hleave : p.act.leave = .ok (.inl b)) {a' : Activation}
    (htake : (p.act.goTo b).takePhis = .ok a') : (ofEntered a' p.machine).Typed g s := by
  have hblock : a'.block = b := (Activation.sameCall_takePhis htake).block
  have hb := Schedule.lt_of_takePhis_goTo h.routine htake
  obtain ⟨j, hidx, hkeep, hset⟩ := Activation.takePhis_spec (a := p.act.goTo b) rfl htake
  have hgoto : (p.act.goTo b).routine = ⟨g, s⟩ := h.routine
  have hgraph : (p.act.goTo b).graph = g := h.graph
  have hj : (s.cfg.block b).preds[j]? = some p.act.block := by
    rw [hgoto] at hidx
    exact Activation.getElem?_of_idxOf? hidx
  obtain ⟨hlive, hedge⟩ := h.live_of_leave hs hleave hb hj
  refine { h.onCourse.enter hs.covers hrest htake with live := ?_, has := fun n v hv => ?_ }
  · show g.ty (some (s.cfg.block a'.block).head) = .ctrl
    rwa [hblock]
  · by_cases hphi : n ∈ (p.act.goTo b).phiNodes
    · obtain ⟨w, hget, hvalue⟩ := hset n hphi
      obtain ⟨hmem, hop⟩ := Activation.mem_phiNodes.mp hphi
      rw [hgraph] at hop hget
      rw [hgoto] at hmem
      have hn : s.Listed g n b := ⟨hb, by simp [hop, Op.isCode, Op.isCfg], hmem⟩
      have hnodup : (p.act.goTo b).phiNodes.Nodup := by
        unfold Activation.phiNodes
        rw [hgoto]
        exact (hs.covers.runnable.lists.nodup b hb).filter _
      have hlt : n < (p.act.goTo b).values.size := by
        show n < p.act.values.size
        rw [h.size]
        exact (Graph.mem_live.mp (hn.live hs.covers.runnable).1).1
      rw [Option.some.inj (hv.symm.trans (hvalue hnodup hlt))]
      exact h.has_of_phi hs hn hop hlive hedge hget
    · exact h.has n v ((hkeep n hphi).symm.trans hv)

theorem next (h : p.Typed g s) (hs : s.WellTyped g) (hnext : p.next rs k = some q)
    (haccepts : p.Accepts q) : q.Typed g s := by
  have hcourse := h.onCourse.next hs.covers hnext
  rcases next_cases hnext with ⟨n, rest, r, m', hrest, hstep, rfl⟩ | ⟨b, a', hrest, hleave, htake, rfl⟩
  · cases r with
    | none => exact { hcourse with live := h.live, has := h.has }
    | some v =>
      refine { hcourse with live := h.live, has := fun x w hx => ?_ }
      by_cases hxn : n = x
      · subst hxn
        have hvalue : (p.act.set n v).value n = some v :=
          Activation.value_set_self (h.onCourse.lt_of_stepNode hstep)
        rw [Option.some.inj (hx.symm.trans hvalue)]
        refine h.has_of_stepNode hs hrest hstep ?_
        rw [← h.graph]
        exact haccepts n (by rw [hrest]; rfl) v hvalue
      · exact h.has x w ((Activation.value_set_of_ne hxn).symm.trans hx)
  · exact h.enter hs hrest hleave htake

theorem ofCall (hs : s.WellTyped g) (args : Array Value) (depth : Nat) (m : Machine) :
    (Point.ofCall ⟨g, s⟩ args depth m).Typed g s :=
  { OnCourse.ofCall hs.covers (fun _ hn =>
      hs.covers.ne_phi_of_entry hs.wellFormed hs.shaped.phisOnRegions hn) args depth m with
    live := by
      show g.ty (some (s.cfg.block Cfg.entry).head) = .ctrl
      rw [hs.covers.head_entry hs.wellFormed]
      exact hs.shaped.start
    has := fun n v hv => by
      rw [show (Point.ofCall ⟨g, s⟩ args depth m).act = .ofCall ⟨g, s⟩ args depth from rfl,
        Schedule.value_ofCall] at hv
      exact nomatch hv }

end Typed

/-- A run in which each move accepts what it takes. -/
def Accepted (rs : Routines) : Point → Point → Prop :=
  Relation.ReflTransGen fun p q => (∃ k, p.next rs k = some q) ∧ p.Accepts q

theorem Typed.accepted (h : p.Typed g s) (hs : s.WellTyped g) (hrun : Accepted rs p q) :
    q.Typed g s := by
  induction hrun with
  | refl => exact h
  | tail _ hstep ih =>
    obtain ⟨⟨k, hnext⟩, haccepts⟩ := hstep
    exact ih.next hs hnext haccepts

/-- A cast whose operand can be what it asks for gives a member of its type. -/
theorem Typed.accepts_of_declares (h : p.Typed g s) (hs : s.WellTyped g) (hcasts : g.CastsFit)
    (hsettled : ∀ n ∈ g.live, g.IsSettled n) (hnext : p.next rs k = some q)
    (hdeclares : p.Declares q) : p.Accepts q := by
  intro n hn v hv
  have hdecl := hdeclares n hn v hv
  rw [h.graph] at hdecl ⊢
  by_cases hop : g.op n = .cast
  case neg => exact Graph.accepts_of_declares hop hdecl
  have hcode : (g.op n).isCode := by rw [hop]; rfl
  simp only [Graph.declares, Graph.accepts, hop] at hdecl ⊢
  rcases next_cases hnext with ⟨m, rest, r, m', hrest, hstep, rfl⟩ | ⟨b, a', hrest, -, -, -⟩
  case inr =>
    rw [hrest] at hn
    cases hn
  rw [hrest] at hn
  obtain rfl := Option.some.inj hn
  have hlisted := h.listed hrest hcode
  have hlive := (hlisted.live hs.covers.runnable).1
  cases r with
  | none => exact h.has m v hv
  | some w =>
    have hvalue : (p.act.set m w).value m = some w :=
      Activation.value_set_self (h.onCourse.lt_of_stepNode hstep)
    obtain rfl := Option.some.inj (hv.symm.trans hvalue)
    rw [Machine.stepNode_of_pure (by rw [h.graph, hop]; rfl)] at hstep
    have hpure := (Prod.mk.inj hstep).1
    simp only [Activation.pureValue, h.graph, hop] at hpure
    obtain ⟨w, hget, hpure⟩ := Except.bind_eq_ok hpure
    obtain rfl := Option.some.inj (Except.ok.inj hpure)
    have hhas := h.has_of_get hs hlive 1 hget
    have hknown := Ty.ne_top_of_has hhas
    have hctrl : g.ctrlLive m := by
      cases hc : g.input m 0 with
      | none => simp [Graph.ctrlLive, hc]
      | some c =>
        have hmem := hs.covers.ctrl_of_cast hlisted hop hc
        simp [Graph.ctrlLive, hc, h.ty_of_mem_ctrl hs hmem (hcasts.ctrl m hlive hop c hc)]
    refine Ty.has_of_meet_eq (hsettled m hlive) ?_
    simp only [Graph.typeOf, hop, hctrl, hknown, Bool.not_true, Bool.false_eq_true, or_self,
      if_false]
    exact Ty.has_join hhas hdecl ((hcasts.common m hlive hop).resolve_left hknown)

/-- A run in which arguments, loaded values, results of calls and casts are as declared. -/
def Conforms (rs : Routines) : Point → Point → Prop :=
  Relation.ReflTransGen fun p q => (∃ k, p.next rs k = some q) ∧ p.Declares q

theorem Typed.conforms (h : p.Typed g s) (hs : s.WellTyped g) (hcasts : g.CastsFit)
    (hsettled : ∀ n ∈ g.live, g.IsSettled n) (hrun : Conforms rs p q) : q.Typed g s := by
  induction hrun with
  | refl => exact h
  | tail _ hstep ih =>
    obtain ⟨⟨k, hnext⟩, hdeclares⟩ := hstep
    exact ih.next hs hnext (ih.accepts_of_declares hs hcasts hsettled hnext hdeclares)

end Point

end SeaNodes
