import SeaNodes.Proofs.Tables
import SeaNodes.Source.Context

namespace SeaNodes

def Layout.structName? (l : Layout) : Option String := if l.elem.isNone then some l.name else none

theorem Layout.structName?_eq_some_iff {l : Layout} {name : String} :
    l.structName? = some name ↔ l.elem = none ∧ l.name = name := by
  cases h : l.elem <;> simp [structName?, h]

theorem Ty.ref_inj {s s' : StructId} {n n' : Bool} : ref s n = ref s' n' ↔ s = s' ∧ n = n' := by
  unfold ref
  cases n <;> cases n' <;> simp

/-- A table finds the entry of an array that has a key, and no two entries have the same one. -/
def Indexes {κ α : Type} [BEq κ] (table : List (κ × Nat)) (key : α → Option κ) (xs : Array α) : Prop :=
  ∀ k i, table.lookup k = some i ↔ ∃ x, xs[i]? = some x ∧ key x = some k

namespace Indexes

variable {κ α : Type} [BEq κ] {table : List (κ × Nat)} {key : α → Option κ} {xs : Array α} {x : α}
  {k : κ}

theorem empty (key : α → Option κ) : Indexes [] key #[] := by
  intro k i
  simp

theorem exists_push {p : α → Prop} {i : Nat} :
    (∃ y, (xs.push x)[i]? = some y ∧ p y) ↔ i = xs.size ∧ p x ∨ ∃ y, xs[i]? = some y ∧ p y := by
  rw [Array.getElem?_push]
  split_ifs with hi
  · simp [hi]
  · simp [hi]

theorem push_of_key [LawfulBEq κ] (h : Indexes table key xs) (hkey : key x = some k)
    (hnew : table.lookup k = none) : Indexes ((k, xs.size) :: table) key (xs.push x) := by
  intro k' i
  rw [exists_push, hkey, List.lookup_cons]
  by_cases hk : k' = k
  · subst hk
    rw [beq_self_eq_true, ← h k' i, hnew]
    simp [eq_comm]
  · rw [beq_eq_false_iff_ne.mpr hk, ← h k' i]
    simp [Ne.symm hk]

theorem push_of_none (h : Indexes table key xs) (hkey : key x = none) :
    Indexes table key (xs.push x) := by
  intro k' i
  rw [exists_push, hkey, h k' i]
  simp

theorem modify (h : Indexes table key xs) {f : α → α} (hf : ∀ x, key (f x) = key x) (j : Nat) :
    Indexes table key (xs.modify j f) := by
  intro k i
  rw [h k i, Array.getElem?_modify]
  split_ifs
  · simp [hf]
  · rfl

end Indexes

namespace Context

variable {c c' c'' : Context} {e e₁ e₂ : TypeExpr} {t t₁ t₂ : Ty} {s : StructId} {l : Layout}

/-- The tables tell where the layouts and signatures are. -/
structure Indexed (c : Context) : Prop where
  structs : Indexes c.structs Layout.structName? c.layouts
  arrays : Indexes c.arrays Layout.elem c.layouts
  functions : Indexes c.functionIndex (fun f => some f.name) c.functions

/-- All layouts keep their numbers, what is found is found again, and functions stay as they are. -/
structure Keeps (c c' : Context) : Prop where
  layouts : ∀ (s : StructId) l, c.layouts[s]? = some l → c'.layouts[s]? = some l
  structs : ∀ name s, c.structId? name = some s → c'.structId? name = some s
  arrays : ∀ t s, c.arrayId? t = some s → c'.arrayId? t = some s
  functions : c'.functions = c.functions ∧ c'.functionIndex = c.functionIndex
  indexed : c.Indexed → c'.Indexed

theorem Keeps.refl (c : Context) : c.Keeps c :=
  ⟨fun _ _ => id, fun _ _ => id, fun _ _ => id, ⟨rfl, rfl⟩, id⟩

theorem Keeps.trans (h : c.Keeps c') (h' : c'.Keeps c'') : c.Keeps c'' where
  layouts s l hl := h'.layouts s l (h.layouts s l hl)
  structs name s hs := h'.structs name s (h.structs name s hs)
  arrays t s hs := h'.arrays t s (h.arrays t s hs)
  functions := ⟨h'.functions.1.trans h.functions.1, h'.functions.2.trans h.functions.2⟩
  indexed hc := h'.indexed (h.indexed hc)

namespace Indexed

theorem structId?_eq_some_iff (h : c.Indexed) {name : String} : c.structId? name = some s ↔
    ∃ l, c.layouts[s]? = some l ∧ l.elem = none ∧ l.name = name :=
  (h.structs name s).trans
    (exists_congr fun _ => and_congr_right fun _ => Layout.structName?_eq_some_iff)

theorem arrayId?_eq_some_iff (h : c.Indexed) :
    c.arrayId? t = some s ↔ ∃ l, c.layouts[s]? = some l ∧ l.elem = some t :=
  h.arrays t s

theorem functionIndex?_eq_some_iff (h : c.Indexed) {name : String} {i : Nat} :
    c.functionIndex? name = some i ↔ ∃ f, c.functions[i]? = some f ∧ f.name = name :=
  (h.functions name i).trans
    (exists_congr fun _ => and_congr_right fun _ => Option.some_inj)

theorem arrayId?_ne_of_structId? (h : c.Indexed) {name : String} (hs : c.structId? name = some s)
    (t : Ty) : c.arrayId? t ≠ some s := by
  intro harray
  obtain ⟨l, hl, hnone, -⟩ := h.structId?_eq_some_iff.mp hs
  obtain ⟨l', hl', hsome⟩ := h.arrayId?_eq_some_iff.mp harray
  rw [Option.some.inj (hl.symm.trans hl'), hsome] at hnone
  cases hnone

end Indexed

theorem keeps_internArray (c : Context) (t : Ty) : c.Keeps (c.internArray t).2 := by
  unfold internArray
  split
  case h_1 => exact .refl c
  case h_2 hnew =>
    refine ⟨fun s l hl => ?_, fun _ _ => id, fun t' s hs => ?_, ⟨rfl, rfl⟩, fun h => ?_⟩
    · rw [Array.getElem?_push_lt (Array.getElem?_eq_some_iff.mp hl).1]
      rwa [← Array.getElem?_eq_getElem]
    · have hne : t' ≠ t := fun heq => by
        rw [heq, hnew] at hs
        cases hs
      rwa [arrayId?, List.lookup_cons, beq_eq_false_iff_ne.mpr hne]
    · exact ⟨h.structs.push_of_none rfl, h.arrays.push_of_key rfl hnew, h.functions⟩

theorem arrayId?_internArray (c : Context) (t : Ty) :
    (c.internArray t).2.arrayId? t = some (c.internArray t).1 := by
  unfold internArray
  split
  case h_1 => assumption
  case h_2 => exact List.lookup_cons_self

/-- The lattice type of a declared type whose layouts are all there. -/
inductive Means (c : Context) : TypeExpr → Ty → Prop where
  | int : Means c .int .anyInt
  | float : Means c .float .anyFloat
  | ref {name : String} {s : StructId} (nullable : Bool) (h : c.structId? name = some s) :
      Means c (.ref name nullable) (.ref s nullable)
  | array {elem : TypeExpr} {t : Ty} {s : StructId} (nullable : Bool) (helem : Means c elem t)
      (h : c.arrayId? t = some s) : Means c (.array elem nullable) (.ref s nullable)

namespace Means

theorem of_keeps (hc : c.Keeps c') (h : c.Means e t) : c'.Means e t := by
  induction h with
  | int => exact .int
  | float => exact .float
  | ref nullable h => exact .ref nullable (hc.structs _ _ h)
  | array nullable _ h ih => exact .array nullable ih (hc.arrays _ _ h)

theorem resolveInPlace_eq (h : c.Means e t) : c.resolveInPlace e = (.ok t, c) := by
  induction h with
  | int | float => rfl
  | ref nullable h => rw [resolveInPlace, h]
  | array nullable _ h ih => simp only [resolveInPlace, ih, internArray, h]

/-- A layout is of one struct or one array, so it tells the declared type. -/
theorem injective (hc : c.Indexed) (h₁ : c.Means e₁ t₁) (h₂ : c.Means e₂ t₂) (ht : t₁ = t₂) :
    e₁ = e₂ := by
  induction h₁ generalizing e₂ t₂ with
  | int =>
    cases h₂ with
    | int => rfl
    | _ => exact nomatch ht
  | float =>
    cases h₂ with
    | float => rfl
    | _ => exact nomatch ht
  | ref nullable h =>
    cases h₂ with
    | int | float => exact nomatch ht
    | ref nullable' h' =>
      obtain ⟨rfl, rfl⟩ := Ty.ref_inj.mp ht
      obtain ⟨l, hl, -, rfl⟩ := hc.structId?_eq_some_iff.mp h
      obtain ⟨l', hl', -, rfl⟩ := hc.structId?_eq_some_iff.mp h'
      rw [Option.some.inj (hl.symm.trans hl')]
    | array nullable' helem' h' =>
      obtain ⟨rfl, rfl⟩ := Ty.ref_inj.mp ht
      exact absurd h' (hc.arrayId?_ne_of_structId? h _)
  | array nullable helem h ih =>
    cases h₂ with
    | int | float => exact nomatch ht
    | ref nullable' h' =>
      obtain ⟨rfl, rfl⟩ := Ty.ref_inj.mp ht
      exact absurd h (hc.arrayId?_ne_of_structId? h' _)
    | array nullable' helem' h' =>
      obtain ⟨rfl, rfl⟩ := Ty.ref_inj.mp ht
      obtain ⟨l, hl, helem₁⟩ := hc.arrayId?_eq_some_iff.mp h
      obtain ⟨l', hl', helem₂⟩ := hc.arrayId?_eq_some_iff.mp h'
      rw [Option.some.inj (hl.symm.trans hl'), helem₂] at helem₁
      rw [ih helem' (Option.some.inj helem₁).symm]

end Means

/-- What resolving a declared type does. -/
structure Resolves (c : Context) (e : TypeExpr) (r : Except Fault Ty) (c' : Context) : Prop where
  keeps : c.Keeps c'
  means : ∀ t, r = .ok t → c'.Means e t
  unchanged : ∀ f, r = .error f → c' = c

theorem resolveInPlace_array {nullable : Bool} (h : c.resolveInPlace e = (.ok t, c')) :
    c.resolveInPlace (.array e nullable) =
      (.ok (.ref (c'.internArray t).1 nullable), (c'.internArray t).2) := by
  rw [resolveInPlace, h]

theorem resolves (c : Context) (e : TypeExpr) :
    c.Resolves e (c.resolveInPlace e).1 (c.resolveInPlace e).2 := by
  induction e with
  | int => exact ⟨.refl c, fun _ h => Except.ok.inj h ▸ .int, fun _ _ => rfl⟩
  | float => exact ⟨.refl c, fun _ h => Except.ok.inj h ▸ .float, fun _ _ => rfl⟩
  | ref name nullable =>
    unfold resolveInPlace
    split
    · rename_i s hs
      exact ⟨.refl c, fun _ h => Except.ok.inj h ▸ .ref nullable hs, fun _ _ => rfl⟩
    · exact ⟨.refl c, nofun, fun _ _ => rfl⟩
  | array elem nullable ih =>
    generalize hq : c.resolveInPlace elem = q at ih
    obtain ⟨r, c'⟩ := q
    cases r with
    | ok t =>
      have hkeeps := keeps_internArray c' t
      rw [resolveInPlace_array hq]
      dsimp only at ih ⊢
      have hmeans := Means.array nullable ((ih.means t rfl).of_keeps hkeeps)
        (arrayId?_internArray c' t)
      refine ⟨ih.keeps.trans hkeeps, ?_, ?_⟩
      · rintro _ ⟨⟩
        exact hmeans
      · rintro _ ⟨⟩
    | error f =>
      rw [resolveInPlace, hq]
      exact ⟨ih.keeps, nofun, fun _ _ => ih.unchanged f rfl⟩

/-- The context after resolving declared types one after the other, with or without success. -/
def resolveEach (c : Context) (es : List TypeExpr) : Context :=
  es.foldl (fun c e => (c.resolveInPlace e).2) c

theorem keeps_resolveEach (c : Context) (es : List TypeExpr) : c.Keeps (c.resolveEach es) := by
  induction es generalizing c with
  | nil => exact .refl c
  | cons e es ih => exact (c.resolves e).keeps.trans (ih (c.resolveInPlace e).2)

namespace Keeps

theorem of_resolve (hr : c.resolve e = .ok (t, c')) : c.Keeps c' := by
  have hkeeps := (c.resolves e).keeps
  unfold resolve at hr
  split at hr
  case h_1 hq =>
    obtain ⟨-, rfl⟩ := Prod.mk.inj (Except.ok.inj hr)
    rwa [hq] at hkeeps
  case h_2 => cases hr

theorem of_resolveAll {es : List TypeExpr} {ts : List Ty} (hr : c.resolveAll es = .ok (ts, c')) :
    c.Keeps c' := by
  induction es generalizing c ts with
  | nil =>
    obtain ⟨-, rfl⟩ := Prod.mk.inj (Except.ok.inj hr)
    exact .refl c
  | cons e es ih =>
    obtain ⟨⟨t, c₁⟩, hfirst, hr⟩ := Except.bind_eq_ok hr
    obtain ⟨⟨ts', c₂⟩, hrest, hr⟩ := Except.bind_eq_ok hr
    obtain ⟨-, rfl⟩ := Prod.mk.inj (Except.ok.inj hr)
    exact (of_resolve hfirst).trans (ih hrest)

theorem of_resolveFields {name : String} {before fields : List Field}
    {decls : List (String × TypeExpr)} (hr : c.resolveFields name before decls = .ok (fields, c')) :
    c.Keeps c' := by
  induction decls generalizing c before with
  | nil =>
    obtain ⟨-, rfl⟩ := Prod.mk.inj (Except.ok.inj hr)
    exact .refl c
  | cons d decls ih =>
    unfold resolveFields at hr
    dsimp only at hr
    split_ifs at hr
    · cases hr
    · obtain ⟨⟨t, c₁⟩, hfirst, hr⟩ := Except.bind_eq_ok hr
      exact (of_resolve hfirst).trans (ih hr)

end Keeps

namespace Indexed

theorem of_declareStruct {d : StructDecl} (h : c.Indexed) (hd : c.declareStruct d = .ok c') :
    c'.Indexed := by
  unfold declareStruct at hd
  split_ifs at hd with hknown
  obtain rfl := Except.ok.inj hd
  have hnew : c.structs.lookup d.name = none := Option.not_isSome_iff_eq_none.mp hknown
  exact ⟨h.structs.push_of_key rfl hnew, h.arrays.push_of_none rfl, h.functions⟩

theorem of_defineStruct {d : StructDecl} (h : c.Indexed) (hd : c.defineStruct d = .ok c') :
    c'.Indexed := by
  obtain ⟨⟨fields, c₁⟩, hfields, hd⟩ := Except.bind_eq_ok hd
  have h₁ := (Keeps.of_resolveFields hfields).indexed h
  dsimp only at hd
  split at hd
  · rename_i s hs
    obtain rfl := Except.ok.inj hd
    have hname (l : Layout) : Layout.structName? { l with fields } = l.structName? := rfl
    have helem (l : Layout) : Layout.elem { l with fields } = l.elem := rfl
    exact ⟨h₁.structs.modify hname s, h₁.arrays.modify helem s, h₁.functions⟩
  · obtain rfl := Except.ok.inj hd
    exact h₁

theorem of_declareFunction {d : FunctionDecl} (h : c.Indexed)
    (hd : c.declareFunction d = .ok c') : c'.Indexed := by
  unfold declareFunction at hd
  dsimp only at hd
  split_ifs at hd with hknown
  · cases hd
  · obtain ⟨⟨params, c₁⟩, hparams, hd⟩ := Except.bind_eq_ok hd
    obtain ⟨⟨ret, c₂⟩, hret, hd⟩ := Except.bind_eq_ok hd
    obtain rfl := Except.ok.inj hd
    have hkeeps : c.Keeps c₂ := (Keeps.of_resolveAll hparams).trans (.of_resolve hret)
    have h₂ := hkeeps.indexed h
    have hnew : c₂.functionIndex.lookup d.name = none := by
      rw [hkeeps.functions.2]
      exact Option.not_isSome_iff_eq_none.mp hknown
    exact ⟨h₂.structs, h₂.arrays, h₂.functions.push_of_key rfl hnew⟩

theorem of_ofProgram {program : Program} (hc : ofProgram program = .ok c) : c.Indexed := by
  obtain ⟨c₁, hnames, hc⟩ := Except.bind_eq_ok hc
  obtain ⟨c₂, hfields, hc⟩ := Except.bind_eq_ok hc
  have hempty : Indexed {} := ⟨.empty _, .empty _, .empty _⟩
  have h₁ : c₁.Indexed := Except.foldlM_induction hnames hempty fun _ _ _ _ => of_declareStruct
  have h₂ : c₂.Indexed := Except.foldlM_induction hfields h₁ fun _ _ _ _ => of_defineStruct
  exact Except.foldlM_induction hc h₂ fun _ _ _ _ => of_declareFunction

end Indexed

theorem exists_of_means (hc : c.Indexed) (h : c.Means e t) (hs : t.structId? = some s) :
    ∃ l, c.layouts[s]? = some l := by
  cases h with
  | int | float => exact nomatch hs
  | ref nullable h =>
    obtain rfl := Option.some.inj hs
    exact (hc.structId?_eq_some_iff.mp h).imp fun _ hl => hl.1
  | array nullable _ h =>
    obtain rfl := Option.some.inj hs
    exact (hc.arrayId?_eq_some_iff.mp h).imp fun _ hl => hl.1

/-- Types are resolved alike for ever, whatever is resolved in between: two of them are one lattice
type exactly if they are the same expression, a layout stays what it is, the tables number each
struct, element type and function once, and a failure leaves no trace. -/
theorem resolve_interned {program : Program} (hc : ofProgram program = .ok c)
    (before between : List TypeExpr) {r₁ r₂ : Except Fault Ty} {c₁ c₂ : Context}
    (hr₁ : (c.resolveEach before).resolveInPlace e₁ = (r₁, c₁))
    (hr₂ : (c₁.resolveEach between).resolveInPlace e₂ = (r₂, c₂)) :
    (∀ t₁ t₂, r₁ = .ok t₁ → r₂ = .ok t₂ → (t₁ = t₂ ↔ e₁ = e₂)) ∧
      (∀ t, r₁ = .ok t → e₁ = e₂ → r₂ = .ok t) ∧
      (∀ t s, r₁ = .ok t → t.structId? = some s → ∃ l, c₁.layouts[s]? = some l) ∧
      (∀ (s : StructId) l, c₁.layouts[s]? = some l → c₂.layouts[s]? = some l) ∧
      (∀ name s, c₂.structId? name = some s ↔
        ∃ l, c₂.layouts[s]? = some l ∧ l.elem = none ∧ l.name = name) ∧
      (∀ t s, c₂.arrayId? t = some s ↔ ∃ l, c₂.layouts[s]? = some l ∧ l.elem = some t) ∧
      (∀ name i, c₂.functionIndex? name = some i ↔
        ∃ f, c₂.functions[i]? = some f ∧ f.name = name) ∧
      ∀ f, r₁ = .error f → c₁ = c.resolveEach before := by
  have h₁ := (c.resolveEach before).resolves e₁
  have h₂ := (c₁.resolveEach between).resolves e₂
  have hbefore := c.keeps_resolveEach before
  have hbetween := c₁.keeps_resolveEach between
  rw [hr₁] at h₁
  rw [hr₂] at h₂
  have hkeeps : c₁.Keeps c₂ := hbetween.trans h₂.keeps
  have hc₁ : c₁.Indexed := (hbefore.trans h₁.keeps).indexed (.of_ofProgram hc)
  have hc₂ : c₂.Indexed := hkeeps.indexed hc₁
  have hagain (t : Ty) (hr : r₁ = .ok t) (heq : e₁ = e₂) : r₂ = .ok t := by
    have hmeans : (c₁.resolveEach between).Means e₂ t := heq ▸ (h₁.means t hr).of_keeps hbetween
    rw [hmeans.resolveInPlace_eq] at hr₂
    exact (Prod.mk.inj hr₂).1.symm
  refine ⟨fun t₁ t₂ ht₁ ht₂ => ⟨fun heq => ?_, fun heq => ?_⟩, hagain, fun t s ht => ?_,
    hkeeps.layouts, fun _ _ => hc₂.structId?_eq_some_iff, fun _ _ => hc₂.arrayId?_eq_some_iff,
    fun _ _ => hc₂.functionIndex?_eq_some_iff, h₁.unchanged⟩
  · exact ((h₁.means t₁ ht₁).of_keeps hkeeps).injective hc₂ (h₂.means t₂ ht₂) heq
  · exact Except.ok.inj ((hagain t₁ ht₁ heq).symm.trans ht₂)
  · exact exists_of_means hc₁ (h₁.means t ht)

def listProgram : Program where
  structs := [{ name := "Node", fields := [("val", .int), ("next", .ref "Node" true)] }]

def resolvedBetween : List TypeExpr :=
  [.array (.ref "Tree" true) false, .array (.ref "Node" true) true]

/-- Two arrays of arrays, whose elements may be null or not. -/
theorem resolve_interned_arrays : ∃ c c₁ c₂ : Context,
    ofProgram listProgram = .ok c ∧
      (c.resolveEach [.array .int false]).resolveInPlace (.array (.array .int true) false) =
        (.ok (.ref 2 false), c₁) ∧
      (c₁.resolveEach resolvedBetween).resolveInPlace (.array (.array .int false) false) =
        (.ok (.ref 4 false), c₂) ∧
      (∃ l, c₁.layouts[2]? = some l) ∧
      (∀ (s : StructId) l, c₁.layouts[s]? = some l → c₂.layouts[s]? = some l) ∧
      ∀ s, c₂.structId? "Node" = some s ↔
        ∃ l, c₂.layouts[s]? = some l ∧ l.elem = none ∧ l.name = "Node" := by
  have hresolved : ∃ c, ofProgram listProgram = .ok c ∧
      ((c.resolveEach [.array .int false]).resolveInPlace (.array (.array .int true) false)).1 =
        .ok (.ref 2 false) ∧
      ((((c.resolveEach [.array .int false]).resolveInPlace
        (.array (.array .int true) false)).2.resolveEach resolvedBetween).resolveInPlace
          (.array (.array .int false) false)).1 = .ok (.ref 4 false) :=
    Except.exists_of_any (by decide +kernel)
  obtain ⟨c, hc, h₁, h₂⟩ := hresolved
  generalize hr₁ : (c.resolveEach _).resolveInPlace _ = q₁ at h₁ h₂
  generalize hr₂ : (q₁.2.resolveEach _).resolveInPlace _ = q₂ at h₂
  obtain ⟨-, -, hfound, hkept, hstructs, -⟩ := resolve_interned hc _ _ hr₁ hr₂
  exact ⟨c, q₁.2, q₂.2, hc, hr₁.trans (Prod.ext h₁ rfl), hr₂.trans (Prod.ext h₂ rfl),
    hfound _ 2 h₁ rfl, hkept, hstructs "Node"⟩

end Context

end SeaNodes
