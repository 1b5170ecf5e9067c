import SeaNodes.Compile
import SeaNodes.Proofs.Flow.Reached
import SeaNodes.Proofs.Isa.Arm64Banks
import SeaNodes.Proofs.Isa.RiscVBanks
import SeaNodes.Proofs.Isa.X64Banks
import SeaNodes.Proofs.Opt.Gate
import SeaNodes.Proofs.Opt.Monotone
import SeaNodes.Proofs.Schedule.Lists
import SeaNodes.Proofs.Select.Selected

namespace SeaNodes

/-- The banks of a target. -/
def Target.banks : (t : Target) → t.isa.2.Banks
  | ⟨.x64, abi⟩ => X64.banks abi
  | ⟨.arm64, _⟩ => Arm64.banks
  | ⟨.riscv64, _⟩ => RiscV.banks

namespace Ty

variable {a b : Ty}

theorem isFloat_of_meet_eq (ha : a.isFloat) (h : a.meet b = a) (hb : b ≠ .top) : b.isFloat := by
  cases a with
  | float x =>
    cases b with
    | float y => rfl
    | top => exact absurd rfl hb
    | _ => exact nomatch h
  | _ => exact nomatch ha

theorem isFloat_of_eq_meet (hb : b.isFloat) (h : a.meet b = a) (ha : a ≠ .bottom) : a.isFloat := by
  cases b with
  | float y =>
    cases a with
    | float x => rfl
    | bottom => exact absurd rfl ha
    | _ => exact nomatch h
  | _ => exact nomatch hb

theorem isInt_neg (ha : a ≠ .top) : a.neg.isInt := by
  unfold neg
  split
  · exact absurd rfl ha
  · split_ifs <;> rfl
  · rfl

theorem floatArith_ne_top (op : ArithOp) (ha : a ≠ .top) (hb : b ≠ .top) :
    a.floatArith op b ≠ .top := by
  unfold floatArith
  split
  · exact absurd rfl ha
  · exact absurd rfl hb
  · exact nofun
  · exact nofun

theorem toFloat_ne_top (ha : a ≠ .top) : a.toFloat ≠ .top := by
  unfold toFloat
  rw [if_neg ha]
  split <;> exact nofun

end Ty

theorem of_ite_eq_none {α : Type} {c : Prop} [Decidable c] {x : α}
    (h : (if c then none else some x) = none) : c := by
  by_contra hc
  rw [if_neg hc] at h
  exact nomatch h

namespace Graph

variable {g : Graph} {n : NodeId} {e : Edge}

/-- What neither the analysis nor the gate looks at. -/
structure Plain (g : Graph) : Prop where
  consts : ∀ n ∈ g.live, g.op n ≠ .const .top
  /-- The offset of an access is a word. -/
  offsets : ∀ n ∈ g.live, g.op n = .load ∨ g.op n = .store → g.edgeClass (g.input n 3) = .int
  casts : ∀ n ∈ g.live, g.op n = .cast → g.edgeClass (g.input n 1) = g.classOf n

instance (g : Graph) : Decidable g.Plain :=
  decidable_of_iff ((∀ n ∈ g.live, g.op n ≠ .const .top) ∧
      (∀ n ∈ g.live, g.op n = .load ∨ g.op n = .store → g.edgeClass (g.input n 3) = .int) ∧
      ∀ n ∈ g.live, g.op n = .cast → g.edgeClass (g.input n 1) = g.classOf n)
    ⟨fun ⟨h₁, h₂, h₃⟩ => ⟨h₁, h₂, h₃⟩, fun h => ⟨h.consts, h.offsets, h.casts⟩⟩

/-- A branch or negation of a float. -/
def TestsFloat (g : Graph) (n : NodeId) : Prop :=
  (g.op n = .fork ∨ g.op n = .not) ∧ g.edgeClass (g.input n 1) = .float

instance (g : Graph) (n : NodeId) : Decidable (g.TestsFloat n) :=
  inferInstanceAs (Decidable (_ ∧ _))

theorem classOf_of_ty (h : g.ty (some n) ≠ .top) :
    g.classOf n = if (g.ty (some n)).isFloat then .float else .int := by
  unfold classOf
  cases hty : g.ty (some n) <;> first | rfl | exact absurd hty h

/-- A constant is in a register of its own type's class, any other value goes by the type that the
analysis left on it. -/
theorem exists_edgeClass_eq (hg : g.Analyzed) (hn : n ∈ g.live) (hty : g.ty (some n) ≠ .top) :
    ∃ t, (g.ty (some n)).meet t = g.ty (some n) ∧ (t = .top → g.op n = .const .top) ∧
      g.edgeClass (some n) = if t.isFloat then .float else .int := by
  by_cases hconst : ∃ t, g.op n = .const t
  · obtain ⟨t, ht⟩ := hconst
    have hsettled := hg.settled n hn (by simp [ht])
    have htype : g.typeOf n = t := by simp only [typeOf, ht]
    rw [IsSettled, htype] at hsettled
    exact ⟨t, hsettled, fun htop => htop ▸ ht, by simp only [edgeClass, ht]⟩
  · refine ⟨g.ty (some n), Ty.meet_self _, fun htop => absurd htop hty, ?_⟩
    rw [edgeClass_of_not_const fun t ht => hconst ⟨t, ht⟩, classOf_of_ty hty]

theorem lt_size_of_ty (h : g.ty (some n) ≠ .top) : n < g.size := by
  by_contra hbig
  refine h ?_
  rw [ty, node, Array.getD_eq_getD_getElem?, Array.getElem?_eq_none (Nat.le_of_not_lt hbig)]
  rfl

theorem edgeClass_eq_int (hg : g.WellFormed) (ha : g.Analyzed) (hn : n ∈ g.live) {i : Nat}
    (hty : (g.ty (g.input n i)).isInt ∨ (g.ty (g.input n i)).isRef) :
    g.edgeClass (g.input n i) = .int := by
  have hnot (t : Ty) (ht : t.isInt ∨ t.isRef) : t ≠ .top ∧ t ≠ .bottom ∧ t.isFloat = false := by
    cases t <;> simp_all [Ty.isInt, Ty.isRef, Ty.isFloat]
  obtain ⟨htop, hbottom, hfloat⟩ := hnot _ hty
  rcases hm : g.input n i with _ | m
  · rfl
  · rw [hm] at htop hbottom hfloat
    obtain ⟨t, hmeet, -, hclass⟩ :=
      exists_edgeClass_eq ha (hg.input_live hn hm (lt_size_of_ty htop)) htop
    rw [hclass, if_neg]
    intro ht
    rw [Ty.isFloat_of_eq_meet ht hmeet hbottom] at hfloat
    cases hfloat

theorem edgeClass_eq_float (hg : g.WellFormed) (ha : g.Analyzed) (hplain : g.Plain)
    (hn : n ∈ g.live) {i : Nat} (hty : (g.ty (g.input n i)).isFloat) :
    g.edgeClass (g.input n i) = .float := by
  rcases hm : g.input n i with _ | m
  · rw [hm] at hty
    exact nomatch hty
  · rw [hm] at hty
    have htop : g.ty (some m) ≠ .top := by
      intro h
      rw [h] at hty
      exact nomatch hty
    have hmlive := hg.input_live hn hm (lt_size_of_ty htop)
    obtain ⟨t, hmeet, hconst, hclass⟩ := exists_edgeClass_eq ha hmlive htop
    rw [hclass, if_pos]
    exact Ty.isFloat_of_meet_eq hty hmeet fun h => hplain.consts m hmlive (hconst h)

theorem classOf_eq_int (hg : g.Analyzed) (hn : n ∈ g.live) (hcast : g.op n ≠ .cast)
    (htype : (g.typeOf n).isInt) : g.classOf n = .int := by
  have hsettled := hg.settled n hn hcast
  have hty : g.ty (some n) ≠ .top ∧ (g.ty (some n)).isFloat = false := by
    rw [IsSettled] at hsettled
    cases ht : g.typeOf n with
    | int l h =>
      rw [ht] at hsettled
      cases hty : g.ty (some n) with
      | top =>
        rw [hty] at hsettled
        cases hsettled
      | float x =>
        rw [hty] at hsettled
        cases hsettled
      | _ => exact ⟨fun h => (by cases h), rfl⟩
    | _ =>
      rw [ht] at htype
      cases htype
  rw [classOf_of_ty hty.1, hty.2]
  rfl

theorem classOf_eq_float (hg : g.Analyzed) (hn : n ∈ g.live) (hop : (g.op n).makesFloat)
    (htype : g.typeOf n ≠ .top) : g.classOf n = .float := by
  have hcast : g.op n ≠ .cast := by
    intro h
    rw [h] at hop
    cases hop
  have hsettled := hg.settled n hn hcast
  have hkind := hg.kinds.float n hn hop
  cases hty : g.ty (some n) with
  | float x =>
    rw [classOf_of_ty (by simp [hty]), hty]
    rfl
  | top =>
    rw [IsSettled, hty] at hsettled
    exact absurd ((Ty.top_meet _).symm.trans hsettled) htype
  | _ =>
    rw [hty] at hkind
    cases hkind

/-- The operands of a node that passed the gate are of the classes that its operation demands,
unless it tests a float. -/
theorem classesFit_of_typeCheck {ctx : Context} {name : String} (hg : g.WellFormed)
    (ha : g.Analyzed) (hplain : g.Plain) (hcheck : g.typeCheck ctx name = .ok ())
    (hn : n ∈ g.live) (htest : ¬ g.TestsFloat n) : g.ClassesFit n := by
  have hint {n : NodeId} (hn : n ∈ g.live) {i : Nat} (h : (g.ty (g.input n i)).isInt) :
      g.edgeClass (g.input n i) = .int := edgeClass_eq_int hg ha hn (.inl h)
  have hfloat {n : NodeId} (hn : n ∈ g.live) {i : Nat} (h : (g.ty (g.input n i)).isFloat) :
      g.edgeClass (g.input n i) = .float := edgeClass_eq_float hg ha hplain hn h
  have hchecked {n : NodeId} (hn : n ∈ g.live) := (nodeFault?_of_typeCheck hcheck).2 n hn
  have hcompared {n : NodeId} {op : CmpOp} (hn : n ∈ g.live)
      (hop : g.op n = .cmp op ∨ g.op n = .floatCmp op) : g.TestFits (some n) := by
    have hfault := hchecked hn
    unfold nodeFault? at hfault
    unfold TestFits
    rcases hop with hop | hop <;> rw [hop] at hfault <;> simp only [op?, hop] at hfault ⊢
    · have hadmits := of_ite_eq_none hfault
      simp only [Op.admits, Bool.or_eq_true, Bool.and_eq_true] at hadmits
      rcases hadmits with ⟨h₁, h₂⟩ | ⟨⟨-, h₁⟩, h₂⟩
      · exact ⟨hint hn h₁, hint hn h₂⟩
      · exact ⟨edgeClass_eq_int hg ha hn (.inr h₁), edgeClass_eq_int hg ha hn (.inr h₂)⟩
    · have hfloats := of_ite_eq_none hfault
      rw [Bool.and_eq_true] at hfloats
      exact ⟨hfloat hn hfloats.1, hfloat hn hfloats.2⟩
  have hint' {e : Edge} (h : g.edgeClass e ≠ .float) : g.edgeClass e = .int := by
    cases hc : g.edgeClass e with
    | int => rfl
    | float => exact absurd hc h
  have hne {t : Ty} (h : t.isInt ∨ t.isFloat) : t ≠ .top := by
    rintro rfl
    rcases h with h | h <;> cases h
  have haddress (h : g.op n = .load ∨ g.op n = .store) : g.edgeClass (g.input n 2) = .int := by
    have hnull := accessesNotNull_of_typeCheck hcheck n hn h
    refine edgeClass_eq_int hg ha hn (.inr ?_)
    cases hty : g.ty (g.input n 2) <;> rw [hty] at hnull <;> first | rfl | cases hnull
  have hfault := hchecked hn
  unfold nodeFault? at hfault
  unfold ClassesFit
  dsimp only at hfault ⊢
  cases hop : g.op n
  all_goals
    rw [hop] at hfault
    dsimp only at hfault ⊢
  case arith op =>
    have hints := of_ite_eq_none hfault
    simp only [Op.admits, Bool.or_false, Bool.and_eq_true] at hints
    refine ⟨classOf_eq_int ha hn (by simp [hop]) ?_, hint hn hints.1, hint hn hints.2⟩
    simp only [typeOf, hop]
    exact Ty.isInt_arith op (hne (.inl hints.1)) (hne (.inl hints.2))
  case bit op =>
    have hints := of_ite_eq_none hfault
    simp only [Op.admits, Bool.or_false, Bool.and_eq_true] at hints
    refine ⟨classOf_eq_int ha hn (by simp [hop]) ?_, hint hn hints.1, hint hn hints.2⟩
    simp only [typeOf, hop]
    exact Ty.isInt_bit op (hne (.inl hints.1)) (hne (.inl hints.2))
  case floatArith op =>
    have hfloats := of_ite_eq_none hfault
    rw [Bool.and_eq_true] at hfloats
    refine ⟨classOf_eq_float ha hn (by rw [hop]; rfl) ?_, hfloat hn hfloats.1, hfloat hn hfloats.2⟩
    simp only [typeOf, hop]
    exact Ty.floatArith_ne_top op (hne (.inr hfloats.1)) (hne (.inr hfloats.2))
  case neg =>
    have h₁ := of_ite_eq_none hfault
    refine ⟨classOf_eq_int ha hn (by simp [hop]) ?_, hint hn h₁⟩
    simp only [typeOf, hop]
    exact Ty.isInt_neg (hne (.inl h₁))
  case toFloat =>
    have h₁ := of_ite_eq_none hfault
    refine ⟨classOf_eq_float ha hn (by rw [hop]; rfl) ?_, hint hn h₁⟩
    simp only [typeOf, hop]
    exact Ty.toFloat_ne_top (hne (.inl h₁))
  case not => exact hint' fun h => htest ⟨.inr hop, h⟩
  case cmp op => exact hcompared hn (.inl hop)
  case floatCmp op => exact hcompared hn (.inr hop)
  case load => exact ⟨haddress (.inl hop), hplain.offsets n hn (.inl hop)⟩
  case store => exact ⟨haddress (.inr hop), hplain.offsets n hn (.inr hop)⟩
  case cast => exact hplain.casts n hn hop
  case fork =>
    -- a comparison is checked by itself, whatever else is tested is tested as it is
    have htested := hint' fun h => htest ⟨.inl hop, h⟩
    rcases hm : g.input n 1 with _ | m
    · rfl
    · by_cases hlt : m < g.size
      · have hmlive := hg.input_live hn hm hlt
        rw [hm] at htested
        cases hmop : g.op m with
        | cmp op => exact hcompared hmlive (.inl hmop)
        | floatCmp op => exact hcompared hmlive (.inr hmop)
        | _ =>
          simp only [TestFits, op?, hmop]
          exact htested
      · rw [hm] at htested
        simp only [TestFits, op?, op_of_size_le (Nat.le_of_not_lt hlt)]
        exact htested

end Graph

theorem Schedule.live_of_mem_nodes {g : Graph} {s : Schedule} {b : BlockId} {n : NodeId}
    (hg : g.WellFormed) (hs : g.schedule = .ok s) (hb : b ∈ s.layout) (hn : n ∈ s.nodes b) :
    n ∈ g.live := by
  obtain ⟨c, hc, hof⟩ := ofGraph_of_schedule hs
  have hbuilt := hof.built hg hc
  have hlt : b < s.cfg.size := by
    obtain ⟨loops, hloops⟩ := hof.cfg
    rw [layout, hloops] at hb
    rw [hloops, Cfg.size_setLoopDepths]
    exact (Cfg.mem_rpo_of_ofGraph hg hc).mp hb
  exact (hof.placed hg hbuilt hlt hn).1

/-- A function that compiles is drafted, unless it tests a float. -/
theorem exists_draft_of_accepted {p : Program} {cfg : OptConfig} {fs : List Scheduled}
    {ctx : Context} (hp : p.schedule cfg = .ok (fs, ctx)) {f : Scheduled} (hf : f ∈ fs)
    (hg : f.graph.WellFormed) (hshape : f.graph.Shaped) (hplain : f.graph.Plain)
    (htests : ∀ n ∈ f.graph.live, ¬ f.graph.TestsFloat n) (t : Target) (alloc : AllocConfig)
    {index : Nat} {a : Allocated t.isa.1} {m : MachineSummary}
    (hcompile : f.compile t.isa.2 alloc index = .ok (a, m)) (names : Array String) :
    ∃ d, a.draft t.isa.2 names = .ok d := by
  have haccepted := Program.accepted_of_schedule hp hf
  obtain ⟨ctx', name, hcheck⟩ := haccepted.checked
  have hanalyzed := haccepted.optimal.analyzed_of_wellFormed hg hshape
  obtain ⟨selected, hselect, hcompile⟩ := Except.bind_eq_ok hcompile
  rcases hallocate : selected.allocate t.isa.2.file alloc with ⟨outcome, func⟩
  rw [hallocate] at hcompile
  obtain ⟨allocation, rfl, hframe⟩ := Except.bind_eq_ok hcompile
  obtain ⟨frame, -, hdone⟩ := Except.bind_eq_ok hframe
  obtain ⟨rfl, rfl⟩ := Prod.mk.inj (Except.ok.inj hdone)
  obtain ⟨hencodable, hphis⟩ := Isa.encodable_select t.banks hselect fun b hb n hn => by
    have hlive := Schedule.live_of_mem_nodes hg haccepted.schedule hb hn
    exact Graph.classesFit_of_typeCheck hg hanalyzed hplain hcheck hlive (htests n hlive)
  obtain ⟨hencodable', hphis', hverify⟩ := hencodable.allocate hphis hallocate
  exact Allocated.exists_draft hencodable' hphis' hverify names

/-- Chooses by its argument, which is the result as well. -/
def chooseBy (t : TypeExpr) : Program where
  functions := [{
    name := "f", params := [("x", t)], ret := t
    body := [.branch (.var "x") [.ret (.var "x")] [], .ret (.var "x")] }]

/-- A condition that is an integer is drafted. -/
theorem chooseBy_int_drafted : ∃ (f : Scheduled) (ctx : Context),
    (chooseBy .int).schedule {} = .ok ([f], ctx) ∧ (f.graph.WellFormed ∧ f.graph.Shaped ∧
      f.graph.Plain ∧ ∀ n ∈ f.graph.live, ¬ f.graph.TestsFloat n) ∧
    ∃ a m, f.compile (Target.ofArch .arm64).isa.2 {} 0 = .ok (a, m) ∧
      ∃ d, a.draft (Target.ofArch .arm64).isa.2 #["f"] = .ok d := by
  obtain ⟨⟨fs, ctx⟩, hp, hlength, hall⟩ := Except.exists_of_any (x := (chooseBy .int).schedule {})
    (p := fun p => p.1.length = 1 ∧ ∀ f ∈ p.1, (f.graph.WellFormed ∧ f.graph.Shaped ∧
      f.graph.Plain ∧ ∀ n ∈ f.graph.live, ¬ f.graph.TestsFloat n) ∧
      (f.compile (Target.ofArch .arm64).isa.2 {} 0).toOption.any fun _ => True)
    (by decide +kernel)
  obtain ⟨f, rfl⟩ := List.length_eq_one_iff.mp hlength
  obtain ⟨hf, hcompile⟩ := hall f (List.mem_singleton_self f)
  obtain ⟨⟨a, m⟩, ham, -⟩ := Except.exists_of_any hcompile
  obtain ⟨hg, hshape, hplain, htests⟩ := id hf
  exact ⟨f, ctx, hp, hf, a, m, ham, exists_draft_of_accepted hp (List.mem_singleton_self f) hg hshape
    hplain htests _ {} ham _⟩

/-- The gate lets a float through as a condition, and the encoder has no test for it. -/
theorem chooseBy_float_internal : ((chooseBy .float).compile {}).map (fun _ => ()) =
    .error (.internal .encode none (.wrongBank 16 "a GPR")) := by
  decide +kernel

end SeaNodes
