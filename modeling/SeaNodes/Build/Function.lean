import SeaNodes.Build.Expr

namespace SeaNodes

/-- A variable that a condition tests against null. -/
structure NullTest where
  name : String
  /-- It is not null when the condition holds, else when it fails. -/
  onTrue : Bool

def Expr.nullTest? : Expr → Option NullTest
  | .var x => some ⟨x, true⟩
  | .unary .not e => e.nullTest?.map fun t => { t with onTrue := !t.onTrue }
  | .binary .eq (.var x) .null | .binary .eq .null (.var x) => some ⟨x, false⟩
  | .binary .ne (.var x) .null | .binary .ne .null (.var x) => some ⟨x, true⟩
  | _ => none

namespace Build

def emitReturn (value : Edge) : Build Unit := do
  let r ← node .ret #[← ctrl, ← mem, value]
  modifyGraph (·.pushInput Graph.stop r)
  setUnreachable

/-- Stores into a location of declared type `t`. -/
def assignTo (target : Expr) (ptr offset : Edge) (t : Ty) (value : Expr) : Build Unit := do
  let v ← expr value
  checkAssign target v t
  store target ptr offset v

def setField (base : Expr) (field : String) (value : Expr) : Build Unit := do
  let target := Expr.field base field
  let ptr ← expr base
  let f ← fieldOf target (← layoutOf base ptr) field
  let offset ← constNat f.offset
  assignTo target ptr offset f.ty value

def setIndex (base index value : Expr) : Build Unit := do
  let target := Expr.index base index
  let ptr ← expr base
  let elem ← elemOf target (← layoutOf base ptr)
  let i ← expr index
  checkInt target i
  let offset ← elementOffset i
  assignTo target ptr offset elem value

/-- Ends the code path by handing a copy of the scope to the innermost loop. -/
def leaveLoop (construct : String) (capture : NodeId → LoopFrame → LoopFrame) : Build Unit := do
  match (← get).loops with
  | [] => throw (.illegal construct .outsideLoop)
  | frame :: outer =>
    let scope ← copyScope
    modify fun b =>
      { b with
        graph := b.graph.truncate scope frame.entryLength
        loops := capture scope frame :: outer }
    setUnreachable

/-- A branch at the current control; the controls of its true and false sides. -/
def fork (cond : Expr) : Build (Edge × Edge) := do
  let pred ← expr cond
  let fork ← node .fork #[← ctrl, pred]
  let t ← add (.ctrlProj 0) #[fork]
  let f ← add (.ctrlProj 1) #[fork]
  let t ← simplifyNew t
  let f ← simplifyNew f
  return (t, f)

/-- On the side of a null test where the variable is not null, binds it to a cast that hangs on the
current control. -/
def refine (test : Option NullTest) (taken : Bool) : Build Unit := do
  match test with
  | none => return
  | some test =>
    if test.onTrue ≠ taken || (← unreachable) then return
    let v ← readVar test.name
    let t ← tyOf v
    if !t.isPtr || t.nonNull = t then return
    let cast ← labelled test.name .cast #[← ctrl, v] t.nonNull
    writeVar test.name cast

def loopPhi (head : Edge) (i : Nat) : Build (Nat × Edge) := do
  let v ← scopeInput i
  let phi ← node .phi #[head, v, none] (← slotType i)
  setScopeInput i phi
  return (i, phi)

/-- Sets input 2 of what an edge leads to. -/
def setBackEdge (e back : Edge) : Build Unit :=
  modifyGraph fun g => match e with | some n => g.setInput n 2 back | none => g

def setOpen (e : Edge) (b : Bool) : Build Unit :=
  modifyGraph fun g => match e with | some n => g.setInProgress n b | none => g

/-- Types and simplifies a node again, unless it is gone. -/
def revisit (e : Edge) : Build Unit :=
  modifyGraph fun g =>
    match e with
    | some n => if g.isDead n then g else ((g.setTy n (g.settledType n)).simplify n).2
    | none => g

/-- The header of a loop, made the current control. -/
def openLoop : Build Edge := do
  let head ← add .loop #[none, ← ctrl, none]
  modifyGraph (·.setInProgress head true)
  let head ← simplifyNew head
  setCtrl head
  return head

/-- Joins the paths to the next iteration and wires the back edges of a loop. -/
def closeLoop (head : Edge) (phis : List (Nat × Edge)) (frame : LoopFrame) : Build Unit := do
  modify fun b => { b with graph := b.graph.truncate b.scope frame.entryLength }
  for c in frame.repeats do merge c
  setBackEdge head (← ctrl)
  for (i, phi) in phis do
    setBackEdge phi (← scopeInput i)
  setOpen head false

def popLoop : Build LoopFrame :=
  modifyGet fun b => (b.loops.headD default, { b with loops := b.loops.tail })

mutual

/-- Builds statements up to one after which nothing is reached. -/
def stmts : List Stmt → Build Unit
  | [] => return
  | s :: rest => do
    if ← unreachable then return
    stmt s
    stmts rest

def stmt : Stmt → Build Unit
  | .declare name type e => do
    let t ← resolve type
    let v ← expr e
    checkAssign e v t
    declare name t v
  | .assign name e => do
    let t ← varType name
    let v ← expr e
    checkAssign e v t
    writeVar name v
  | .setField base field value => setField base field value
  | .setIndex base index value => setIndex base index value
  | .branch cond onTrue onFalse => do
    let test := cond.nullTest?
    let (t, f) ← fork cond
    let falseScope ← copyScope
    setCtrl t
    refine test true
    enterBlock
    stmts onTrue
    leaveBlock
    let trueScope ← switchScope falseScope
    setCtrl f
    refine test false
    enterBlock
    stmts onFalse
    leaveBlock
    let falseScope ← switchScope trueScope
    merge falseScope
  | .loop cond body => do
    let head ← openLoop
    let entryLength ← scopeLength
    let phis ← (List.range' memSlot (entryLength - memSlot)).mapM (loopPhi head)
    let test := cond.nullTest?
    let (t, f) ← fork cond
    let exit ← copyScope
    setCtrl t
    refine test true
    modify fun b => { b with loops := { entryLength } :: b.loops }
    enterBlock
    stmts body
    leaveBlock
    let frame ← popLoop
    closeLoop head phis frame
    replaceScope exit
    setCtrl f
    refine test false
    for b in frame.exits do merge b
    for (_, phi) in phis do revisit phi
    revisit head
  | .leave => leaveLoop "break" fun s f => { f with exits := f.exits ++ [s] }
  | .again => leaveLoop "continue" fun s f => { f with repeats := f.repeats ++ [s] }
  | .ret e => do
    let v ← expr e
    checkAssign e v (← get).sig.ret
    emitReturn v
  | .eval e => do
    let v ← expr e
    modifyGraph fun g =>
      match v with
      | some n => if g.useCount n = 0 then g.kill n else g
      | none => g

end

/-- Declares the parameters as variables. The number of a parameter has 16 bits. -/
def parameters : Nat → List String → List Ty → Build Unit
  | i, name :: names, t :: ts => do
    let p ← node (.param (i % 2 ^ 16)) #[some Graph.start] t
    declare name t p
    parameters (i + 1) names ts
  | _, _, _ => return

def function (d : FunctionDecl) : Build Graph := do
  let sig := (← get).sig
  if d.params.length ≠ sig.params.length then throw (.illegal d.name .signatureMismatch)
  parameters 0 (d.params.map (·.1)) sig.params
  stmts d.body
  if !(← unreachable) then
    let zero ← const sig.ret.zero
    emitReturn zero
  let scope := (← get).scope
  modifyGraph fun g => ((g.kill scope).sweep).2
  graph

end Build

/-- A function before its first statement. -/
def Builder.ofSignature (ctx : Context) (sig : Signature) : Builder :=
  let (mem, g) := Graph.empty.add .startMem #[some Graph.start]
  let (mem, g) := g.peephole mem
  let (scope, g) := g.add .scope #[some Graph.start, mem]
  { graph := g, ctx, sig, scope, levels := [{ base := Build.firstVar }] }

/-- The graph of a function of the context. The context may gain layouts, also on failure. -/
def Context.buildFunction (ctx : Context) (d : FunctionDecl) : Except Fault Graph × Context :=
  match (ctx.functionIndex? d.name).bind ctx.function? with
  | none => (.error (.illegal d.name .notRegistered), ctx)
  | some sig =>
    let (result, b) := (Build.function d).run (.ofSignature ctx sig)
    (result, b.ctx)

end SeaNodes
