import SeaNodes.Graph.Check
import SeaNodes.Proofs.Eval.Steps
import SeaNodes.Scheduled
import SeaNodes.Source.Syntax

namespace SeaNodes

/-- Uses integers only: no division, calls, floats or references. -/
def Expr.isIntOnly : Expr → Bool
  | .int _ | .bool _ | .var _ => true
  | .unary _ e => e.isIntOnly
  | .binary op a b => op ≠ .div && a.isIntOnly && b.isIntOnly
  | _ => false

mutual

def Stmt.isIntOnly : Stmt → Bool
  | .declare _ t e => t = .int && e.isIntOnly
  | .assign _ e => e.isIntOnly
  | .branch c onTrue onFalse =>
    c.isIntOnly && Stmt.areIntOnly onTrue && Stmt.areIntOnly onFalse
  | .loop c body => c.isIntOnly && Stmt.areIntOnly body
  | .leave | .again => true
  | .ret e => e.isIntOnly
  | _ => false

def Stmt.areIntOnly : List Stmt → Bool
  | [] => true
  | s :: rest => s.isIntOnly && Stmt.areIntOnly rest

end

def FunctionDecl.isIntOnly (d : FunctionDecl) : Bool :=
  d.params.all (·.2 = .int) && d.ret = .int && Stmt.areIntOnly d.body

/-- The variables with their values, the innermost first. -/
abbrev IntEnv := List (String × Int64)

def flag (b : Bool) : Int64 := if b then 1 else 0

def UnaryOp.onInt : UnaryOp → Int64 → Int64
  | .neg, a => -a
  | .not, a => flag (a == 0)

def BinaryOp.onInts : BinaryOp → Int64 → Int64 → Option Int64
  | .add, a, b => some (a + b)
  | .sub, a, b => some (a - b)
  | .mul, a, b => some (a * b)
  | .div, _, _ => none
  | .and, a, b => some (a &&& b)
  | .or, a, b => some (a ||| b)
  | .xor, a, b => some (a ^^^ b)
  | .shl, a, b => some (a <<< (b &&& 63))
  | .shr, a, b => some (a.toUInt64 >>> (b &&& 63).toUInt64).toInt64
  | .sar, a, b => some (a >>> (b &&& 63))
  | .eq, a, b => some (flag (a == b))
  | .ne, a, b => some (flag (a != b))
  | .lt, a, b => some (flag (a < b))
  | .le, a, b => some (flag (a ≤ b))
  | .gt, a, b => some (flag (b < a))
  | .ge, a, b => some (flag (b ≤ a))

def Expr.intValue? (env : IntEnv) : Expr → Option Int64
  | .int v => some v
  | .bool b => some (flag b)
  | .var x => env.lookup x
  | .unary op e => do return op.onInt (← e.intValue? env)
  | .binary op a b => do op.onInts (← a.intValue? env) (← b.intValue? env)
  | _ => none

/-- Changes the innermost variable of a name. -/
def IntEnv.assign? (x : String) (v : Int64) : IntEnv → Option IntEnv
  | [] => none
  | (y, w) :: env => if y = x then some ((x, v) :: env) else (assign? x v env).map ((y, w) :: ·)

def IntEnv.leaveBlock (outer env : IntEnv) : IntEnv := env.drop (env.length - outer.length)

/-- How a statement ends. -/
inductive Outcome where
  | next (env : IntEnv)
  | leave (env : IntEnv)
  | again (env : IntEnv)
  | returned (v : Int64)

def Outcome.leaveBlock (outer : IntEnv) : Outcome → Outcome
  | .next env => .next (outer.leaveBlock env)
  | .leave env => .leave (outer.leaveBlock env)
  | .again env => .again (outer.leaveBlock env)
  | .returned v => .returned v

mutual

/-- What a statement does, if so many steps are enough. -/
def Stmt.exec : Nat → IntEnv → Stmt → Option Outcome
  | 0, _, _ => none
  | k + 1, env, s =>
    match s with
    | .declare x _ e => do return .next ((x, ← e.intValue? env) :: env)
    | .assign x e => do return .next (← IntEnv.assign? x (← e.intValue? env) env)
    | .branch c onTrue onFalse => do
      let side := if (← c.intValue? env) ≠ 0 then onTrue else onFalse
      return (← Stmt.execAll k env side).leaveBlock env
    | .loop c body => do
      if (← c.intValue? env) = 0 then return .next env
      match (← Stmt.execAll k env body).leaveBlock env with
      | .next env | .again env => Stmt.exec k env (.loop c body)
      | .leave env => return .next env
      | .returned v => return .returned v
    | .leave => return .leave env
    | .again => return .again env
    | .ret e => do return .returned (← e.intValue? env)
    | _ => none

def Stmt.execAll : Nat → IntEnv → List Stmt → Option Outcome
  | 0, _, _ => none
  | _ + 1, env, [] => some (.next env)
  | k + 1, env, s :: rest => do
    match ← Stmt.exec k env s with
    | .next env => Stmt.execAll k env rest
    | o => return o

end

namespace FunctionDecl

/-- The result of a function, if so many steps are enough. -/
def intResult? (d : FunctionDecl) (k : Nat) (args : List Int64) : Option Int64 :=
  match Stmt.execAll k ((d.params.map (·.1)).zip args).reverse d.body with
  | some (.next _) => some 0
  | some (.returned v) => some v
  | _ => none

/-- The function ends with `v` on these arguments. -/
def Returns (d : FunctionDecl) (args : List Int64) (v : Int64) : Prop :=
  ∃ k, d.intResult? k args = some v

end FunctionDecl

end SeaNodes

namespace SeaNodes

/-- Evaluating the node cannot fail or change the heap, whatever was evaluated before. -/
def Graph.isQuiet (g : Graph) (n : NodeId) : Bool :=
  match g.op n with
  | .start | .startMem | .ret => true
  | .const t => (Value.ofConst? t).isSome
  | _ => false

/-- The constant that the first block returns, if that is all it does. -/
def Routine.constant? (r : Routine) : Option Int64 := do
  guard ((r.schedule.nodes Cfg.entry).all r.graph.isQuiet)
  let t ← (r.schedule.cfg.block Cfg.entry).terminator
  guard (r.graph.op t = .ret)
  r.graph.constInt? (r.graph.input t 2)

namespace Machine

variable (call : Caller) {m : Machine} {a : Activation} {n : NodeId}

theorem stepNode_of_isQuiet (hn : a.graph.isQuiet n) :
    ∃ v, stepNode call m a n = (.ok v, m) ∧
      ∀ w ∈ v, ∀ t, a.graph.op n = .const t → Value.ofConst? t = some w := by
  have hconst {t : Ty} (hop : a.graph.op n = .const t) {v : Value}
      (hv : Value.ofConst? t = some v) : a.pureValue n = .ok (some v) := by
    simp only [Activation.pureValue, hop, hv]
    rfl
  rw [Graph.isQuiet] at hn
  split at hn
  case h_1 hop | h_3 hop =>
    exact ⟨none, by simp only [stepNode, Activation.pureValue, hop]; rfl, by simp⟩
  case h_2 hop =>
    exact ⟨some .mem, by simp only [stepNode, Activation.pureValue, hop]; rfl, by simp [hop]⟩
  case h_4 t hop =>
    obtain ⟨v, hv⟩ := Option.isSome_iff_exists.mp hn
    refine ⟨some v, by simp only [stepNode, hop, hconst hop hv], fun w hw t' ht' => ?_⟩
    rw [hop, Op.const.injEq] at ht'
    rw [← ht', hv, hw]
  case h_5 => exact absurd hn Bool.false_ne_true

theorem runNodes_of_isQuiet (ns : List NodeId) (hns : ∀ n ∈ ns, a.graph.isQuiet n)
    (ha : a.Truthful) (hm : m.steps + ns.length ≤ m.fuel) :
    ∃ a', runNodes call ns m a = (.ok a', { m with steps := m.steps + ns.length }) ∧
      a'.Truthful ∧ a'.routine = a.routine ∧ a'.block = a.block := by
  induction ns generalizing m a with
  | nil => exact ⟨a, rfl, ha, rfl, rfl⟩
  | cons n ns ih =>
    rw [List.forall_mem_cons] at hns
    rw [List.length_cons] at hm
    obtain ⟨v, hv, hconst⟩ := stepNode_of_isQuiet call
      (m := { m with steps := m.steps + 1 }) hns.1
    have hfuel : ¬ m.fuel < m.steps + 1 := by omega
    have hsteps : m.steps + 1 + ns.length = m.steps + (n :: ns).length := by
      rw [List.length_cons]
      omega
    rw [runNodes]
    simp only [if_neg hfuel, hv]
    rw [← hsteps]
    rcases v with _ | v
    · exact ih (m := { m with steps := m.steps + 1 }) hns.2 ha (by simp only; omega)
    · exact ih (m := { m with steps := m.steps + 1 }) (a := a.set n v) hns.2
        (ha.set (hconst v rfl)) (by simp only; omega)

end Machine

theorem Activation.Truthful.get {a : Activation} (ha : a.Truthful) {e : Edge} {v : Int64}
    (he : a.graph.constInt? e = some v) : a.get e = .ok (.int v) := by
  rcases e with _ | n
  · cases he
  simp only [Graph.constInt?, Graph.op?] at he
  split at he
  case h_2 => cases he
  case h_1 t hop =>
  rw [Option.some.injEq] at hop
  have hval : Value.ofConst? t = some (.int v) := by
    cases t with
    | int lo hi =>
      obtain ⟨heq, hlo⟩ := Option.ite_none_right_eq_some.mp he
      exact (if_pos heq).trans (congrArg (fun w => some (Value.int w)) (Option.some.inj hlo))
    | _ => cases he
  rw [Activation.get]
  rcases ha n t hop with hn | hn
  · simp only [Option.bind_some, hn, Graph.op?, hop, hval]
  · simp only [Option.bind_some, hn, hval]

namespace Machine

variable {m : Machine} {rs : Routines} {index arity : Nat} {r : Routine} {v : Int64}

theorem exec_of_return {k : Nat} {a a' : Activation} {m' : Machine} {w : Value}
    (hprev : a.prev = none)
    (hrun : runNodes (caller rs k) (a.routine.schedule.nodes a.block) m a = (.ok a', m'))
    (hleave : a'.leave = .ok (.inr w)) : exec rs (k + 1) a m = (.ok w, m') := by
  have hphis : a.incoming = .ok [] := by rw [Activation.incoming, hprev]
  simp only [exec_succ, hphis, List.foldl_nil, hrun, hleave]

theorem call_of_constant (hr : rs.table[index]? = some (r, arity)) (hv : r.constant? = some v)
    {args : Array Value} (hargs : arity ≤ args.size)
    (hm : m.steps + (r.schedule.nodes Cfg.entry).length ≤ m.fuel) :
    (m.call rs index args).1 = .ok (.int v) := by
  simp only [Routine.constant?, Option.bind_eq_bind, Option.bind_eq_some_iff,
    Option.guard_eq_some', List.all_eq_true] at hv
  obtain ⟨-, hquiet, t, ht, -, hret, hconst⟩ := hv
  have henter : enter rs index args 0 = .ok (.ofCall r args 0) := by
    simp [enter, maxDepth, hr, Nat.not_lt.mpr hargs]
  have hstart : (Activation.ofCall r args 0).Truthful := fun n t _ => by
    left
    rw [Activation.ofCall, Array.getD]
    split <;> simp
  obtain ⟨a, hrun, htrue, hroutine, hentry⟩ := runNodes_of_isQuiet (caller rs (m.fuel + 1))
    (a := .ofCall r args 0) (r.schedule.nodes Cfg.entry) hquiet hstart hm
  have hgraph : a.graph = r.graph := congrArg Routine.graph hroutine
  have hvalue : a.graph.constInt? (a.graph.input t 2) = some v := hgraph ▸ hconst
  have hsome : (a.graph.input t 2).isSome := by
    rcases he : a.graph.input t 2 with _ | c
    · rw [he] at hvalue
      exact nomatch hvalue
    · rfl
  have hterm : (a.routine.schedule.cfg.block a.block).terminator = some t := by
    rw [hroutine, hentry]
    exact ht
  have hleave : a.leave = .ok (.inr (.int v)) := by
    simp only [Activation.leave, hterm, hgraph ▸ hret, hsome, if_true, htrue.get hvalue]
    rfl
  rw [call, henter]
  exact congrArg Prod.fst (exec_of_return rfl hrun hleave)

end Machine

/-- The function builds a consistent graph, and its program can be scheduled. -/
structure FunctionDecl.Accepted (d : FunctionDecl) (cfg : OptConfig) (fs : List Scheduled) :
    Prop where
  built : ∃ ctx ctx' g, Context.ofProgram { functions := [d] } = .ok ctx ∧
    ctx.buildFunction d = (.ok g, ctx') ∧ g.verify = .ok ()
  scheduled : ∃ ctx, ({ functions := [d] } : Program).schedule cfg = .ok (fs, ctx)

/-- With enough fuel a call of the first function gives `v`. -/
def Scheduled.Gives (fs : List Scheduled) (args : List Int64) (v : Int64) : Prop :=
  ∃ enough, ∀ fuel, enough ≤ fuel →
    (({ fuel } : Machine).call (routines fs) 0 (args.map Value.int).toArray).1 = .ok (.int v)

def CmpOp.toBinary : CmpOp → BinaryOp
  | .eq => .eq
  | .ne => .ne
  | .lt => .lt
  | .le => .le

/-- Returns `!(t + t * 0)` for a comparison `t` of the parameters. -/
def deadOperand (op : CmpOp) : FunctionDecl where
  name := "f"
  params := [("a", .int), ("b", .int)]
  ret := .int
  body :=
    let test : Expr := .binary op.toBinary (.var "a") (.var "b")
    [.ret (.unary .not (.binary .add test (.binary .mul test (.int 0))))]

theorem CmpOp.onInts_toBinary (op : CmpOp) (a b : Int64) :
    op.toBinary.onInts a b = some (flag (op.evalInt a b)) := by
  cases op <;> rfl

theorem returns_deadOperand_iff (op : CmpOp) (a b v : Int64) :
    (deadOperand op).Returns [a, b] v ↔ v = flag (!op.evalInt a b) := by
  have hvalue (k : Nat) :
      (deadOperand op).intResult? (k + 2) [a, b] = some (flag (!op.evalInt a b)) := by
    have htest : (Expr.binary op.toBinary (.var "a") (.var "b")).intValue? [("b", b), ("a", a)] =
        some (flag (op.evalInt a b)) := op.onInts_toBinary a b
    have hsum (t : Bool) : flag (flag t + flag t * 0 == 0) = flag (!t) := by
      cases t <;> decide
    have hbinary (o : BinaryOp) (x y : Expr) (env : IntEnv) : (Expr.binary o x y).intValue? env =
        (x.intValue? env).bind fun v => (y.intValue? env).bind (o.onInts v) := rfl
    have hbody : (Expr.unary .not (.binary .add (.binary op.toBinary (.var "a") (.var "b"))
        (.binary .mul (.binary op.toBinary (.var "a") (.var "b")) (.int 0)))).intValue?
          [("b", b), ("a", a)] = some (flag (!op.evalInt a b)) := by
      rw [Expr.intValue?, hbinary, hbinary .mul, htest]
      exact congrArg some (hsum _)
    simp only [FunctionDecl.intResult?, deadOperand, List.map_cons, List.map_nil,
      List.zip_cons_cons, List.zip_nil_left, List.reverse_cons, List.reverse_nil, List.nil_append,
      List.cons_append,
      Stmt.execAll, Stmt.exec, hbody, Option.bind_eq_bind, Option.bind_some, Option.pure_def]
  constructor
  · rintro ⟨k, hk⟩
    rcases k with _ | _ | k
    · exact nomatch hk
    · exact nomatch hk
    · rw [hvalue, Option.some.injEq] at hk
      exact hk.symm
  · rintro rfl
    exact ⟨2, hvalue 0⟩

theorem exists_accepted_deadOperand (op : CmpOp) :
    ∃ fs r, (deadOperand op).Accepted {} fs ∧ (Scheduled.routines fs).table[0]? = some (r, 0) ∧
      r.constant? = some (flag (!op.evalInt 0 0)) := by
  have hbuilt : ((Context.ofProgram { functions := [deadOperand op] }).toOption.bind fun ctx =>
      (ctx.buildFunction (deadOperand op)).1.toOption).map Graph.verify = some (.ok ()) := by
    cases op <;> decide +kernel
  have hscheduled : ((({ functions := [deadOperand op] } : Program).schedule {}).toOption.bind
      fun p => (Scheduled.routines p.1).table[0]?).map (fun p => (p.1.constant?, p.2)) =
        some (some (flag (!op.evalInt 0 0)), 0) := by
    cases op <;> decide +kernel
  rw [Option.map_eq_some_iff] at hbuilt hscheduled
  obtain ⟨g, hg, hverify⟩ := hbuilt
  obtain ⟨⟨r, arity⟩, hr, hconst⟩ := hscheduled
  obtain ⟨ctx, hctx, hg⟩ := Option.bind_eq_some_iff.mp hg
  obtain ⟨⟨fs, ctx'⟩, hfs, hr⟩ := Option.bind_eq_some_iff.mp hr
  obtain ⟨hconst, rfl⟩ := Prod.mk.inj hconst
  have hok {ε α : Type} {x : Except ε α} {v : α} (h : x.toOption = some v) : x = .ok v := by
    rcases x with e | w
    · exact nomatch h
    · exact congrArg Except.ok (Option.some.inj h)
  exact ⟨fs, r, ⟨⟨ctx, (ctx.buildFunction (deadOperand op)).2, g, hok hctx, Prod.ext (hok hg) rfl,
    hverify⟩, ctx', hok hfs⟩, hr, hconst⟩

theorem gives_deadOperand_iff {op : CmpOp} {fs : List Scheduled} {r : Routine}
    (hr : (Scheduled.routines fs).table[0]? = some (r, 0))
    (hconst : r.constant? = some (flag (!op.evalInt 0 0))) (a b v : Int64) :
    Scheduled.Gives fs [a, b] v ↔ v = flag (!op.evalInt 0 0) := by
  have hcall (fuel : Nat) (hfuel : (r.schedule.nodes Cfg.entry).length ≤ fuel) :
      (({ fuel } : Machine).call (Scheduled.routines fs) 0 ([a, b].map Value.int).toArray).1 =
        .ok (.int (flag (!op.evalInt 0 0))) :=
    Machine.call_of_constant hr hconst (Nat.zero_le _) (by simpa using hfuel)
  constructor
  · rintro ⟨enough, h⟩
    have hv := h _ (Nat.le_max_left enough (r.schedule.nodes Cfg.entry).length)
    rw [hcall _ (Nat.le_max_right _ _)] at hv
    exact (Value.int.inj (Except.ok.inj hv)).symm
  · rintro rfl
    exact ⟨_, hcall⟩

/-- The compiled function answers as if its arguments were equal, so it is right exactly where the
comparison has the value that it has on equal arguments. -/
theorem deadOperand_right_iff (op : CmpOp) : ∃ fs, (deadOperand op).isIntOnly ∧
    (deadOperand op).Accepted {} fs ∧ ∀ a b v : Int64, (deadOperand op).Returns [a, b] v →
      (Scheduled.Gives fs [a, b] v ↔ op.evalInt a b = op.evalInt a a) := by
  obtain ⟨fs, r, haccepted, hr, hconst⟩ := exists_accepted_deadOperand op
  have hint : (deadOperand op).isIntOnly := by cases op <;> decide
  have hself (a : Int64) : op.evalInt a a = op.evalInt 0 0 := by
    cases op <;> simp [CmpOp.evalInt]
  have hflag (s t : Bool) : flag (!s) = flag (!t) ↔ s = t := by
    cases s <;> cases t <;> decide
  refine ⟨fs, hint, haccepted, fun a b v hv => ?_⟩
  rw [returns_deadOperand_iff] at hv
  rw [gives_deadOperand_iff hr hconst, hv, hflag, hself a]

/-- Not every integer function that is accepted keeps its meaning. -/
theorem exists_accepted_wrong : ¬ ∀ (d : FunctionDecl) (fs : List Scheduled), d.isIntOnly →
    d.Accepted {} fs → ∀ (args : List Int64) (v : Int64), args.length = d.params.length →
      d.Returns args v → Scheduled.Gives fs args v := by
  intro h
  obtain ⟨fs, r, haccepted, hr, hconst⟩ := exists_accepted_deadOperand .lt
  have hgives := h (deadOperand .lt) fs (by decide) haccepted [1, 2] 0 rfl
    ((returns_deadOperand_iff .lt 1 2 0).mpr (by decide))
  exact absurd ((gives_deadOperand_iff hr hconst 1 2 0).mp hgives) (by decide)

end SeaNodes
