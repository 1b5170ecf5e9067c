import SeaNodes.Opt.Typing

namespace SeaNodes

/-- The outcome of a rule that applies: the edge to use, and the graph. -/
abbrev Change := Edge × Graph

abbrev Simplifier := Graph → NodeId → Change

namespace Graph

def isConst (g : Graph) (e : Edge) : Bool :=
  match g.op? e with
  | some (.const _) => true
  | _ => false

/-- The integer that a constant node stands for. -/
def constInt? (g : Graph) (e : Edge) : Option Int64 :=
  match g.op? e with
  | some (.const t) => t.int?
  | _ => none

def isOp (g : Graph) (e : Edge) (op : Op) : Bool := g.op? e == some op

def constEdge (g : Graph) (t : Ty) : Change :=
  let (c, g) := g.const t
  (some c, g)

/-- A phi that still waits for the back edge of its loop. -/
def isOpenPhi (g : Graph) (n : NodeId) : Bool := g.op n == .phi && g.isOpen (g.input n 0)

/-- Whether the operands of a commutative node stand in the wrong order. A constant goes to the
right, else the older node to the left. -/
def misordered (g : Graph) (n : NodeId) : Bool :=
  let a := g.input n 1
  let b := g.input n 2
  match g.isConst a, g.isConst b with
  | true, false => true
  | false, false =>
    match a, b with
    | some a, some b => b < a
    | _, _ => false
  | _, _ => false

def addConst (simp : Simplifier) (g : Graph) (x : Edge) (k : Int64) : Change :=
  let (k, g) := g.const (.ofInt k)
  let (m, g) := g.add (.arith .add) #[none, x, some k]
  simp g m

def ruleArith (simp : Simplifier) (op : ArithOp) (g : Graph) (n : NodeId) : Option Change :=
  let a := g.input n 1
  let b := g.input n 2
  let c := g.constInt? b
  match op with
  | .add =>
    if c = some 0 then some (a, g)
    else do
      -- (x + c₁) + c₂ is x + (c₁ + c₂)
      let c₂ ← c
      guard (g.isOp a (.arith .add))
      let c₁ ← g.constInt? (g.inputOf a 2)
      some (addConst simp g (g.inputOf a 1) (c₁ + c₂))
  | .sub =>
    if a = b then some (g.constEdge (.ofInt 0))
    else do
      let k ← c
      if k = 0 then some (a, g)
      else if k = Int64.minValue then none
      else some (addConst simp g a (-k))
  | .mul | .div => if c = some 1 then some (a, g) else none

def ruleBit (op : BitOp) (g : Graph) (n : NodeId) : Option Change :=
  let a := g.input n 1
  let b := g.input n 2
  let c := g.constInt? b
  match op with
  | .and => if a = b ∨ c = some (-1) then some (a, g) else none
  | .or => if a = b ∨ c = some 0 then some (a, g) else none
  | .xor =>
    if a = b then some (g.constEdge (.ofInt 0)) else if c = some 0 then some (a, g) else none
  | .shl | .shr | .sar => if c.map (· &&& 63) = some 0 then some (a, g) else none

def ruleNeg (g : Graph) (n : NodeId) : Option Change :=
  let x := g.input n 1
  if g.isOp x .neg then some (g.inputOf x 1, g) else none

def ruleNot (simp : Simplifier) (g : Graph) (n : NodeId) : Option Change :=
  let x := g.input n 1
  match g.op? x with
  | some (.cmp op) =>
    let (negated, swap) := op.negate
    let a := g.inputOf x 1
    let b := g.inputOf x 2
    let (m, g) := g.add (.cmp negated) (if swap then #[none, b, a] else #[none, a, b])
    some (simp g m)
  | some .not =>
    let y := g.inputOf x 1
    let t := g.ty y
    if t ≠ .top ∧ t.isA .bool then some (y, g) else none
  | _ => none

def ruleCmp (op : CmpOp) (g : Graph) (n : NodeId) : Option Change :=
  if g.input n 1 = g.input n 2 then some (g.constEdge (.ofBool (op == .eq || op == .le))) else none

/-- A cast of a value that already has the declared type. -/
def ruleCast (g : Graph) (n : NodeId) : Option Change :=
  let x := g.input n 1
  let t := g.ty x
  if t ≠ .top ∧ t.isA (g.decl n) then some (x, g) else none

/-- The values that can reach a phi from outside. -/
def phiSources (g : Graph) (n : NodeId) : List NodeId :=
  let region := g.input n 0
  ((g.inputs n).toList.zipIdx.drop 1).filterMap fun (v, i) =>
    if v = some n ∨ g.ty (g.inputOf region i) = .deadCtrl then none else v

/-- A phi of a single value. -/
def rulePhi (g : Graph) (n : NodeId) : Option Change :=
  if g.isOpen (g.input n 0) then none
  else
    match g.phiSources n with
    | v :: rest => if rest.all (· == v) then some (some v, g) else none
    | [] => none

def phisOf (g : Graph) (region : NodeId) : List NodeId :=
  (g.usesOf region).toList.filter fun u => g.op u == .phi && g.input u 0 == some region

/-- The inputs of a region that bring no control, by their index. -/
def deadPreds (g : Graph) (n : NodeId) : List Nat :=
  ((g.inputs n).toList.zipIdx.drop 1).filterMap fun (p, i) =>
    if p.isNone ∨ g.ty p = .deadCtrl then some i else none

def dropPred (n : NodeId) (phis : List NodeId) (g : Graph) (i : Nat) : Graph :=
  (phis.foldl (·.removeInput · i) g).removeInput n i

/-- Drops dead inputs; a loop that loses one is a plain join. A join of one input is that input, and
its phis are their values. -/
def ruleRegion (g : Graph) (n : NodeId) : Option Change :=
  if g.isOpen (some n) then none
  else
    let dead := g.deadPreds n
    let live := (g.inputs n).size - 1 - dead.length
    let phis := g.phisOf n
    if live = 0 then none
    else if !dead.isEmpty then
      let g := if g.op n = .loop then g.setOp n .region else g
      some (some n, dead.reverse.foldl (dropPred n phis) g)
    else if live = 1 then
      some (g.input n 1, phis.foldl (fun g phi => g.subsume phi (g.input phi 1)) g)
    else none

/-- The taken side of a decided branch is the control before it. -/
def ruleCtrlProj (i : Nat) (g : Graph) (n : NodeId) : Option Change :=
  let fork := g.input n 0
  if g.isOp fork .fork then
    match g.ty fork with
    | .branch t f =>
      if (i = 0 ∧ t ∧ !f) ∨ (i = 1 ∧ f ∧ !t) then some (g.inputOf fork 0, g) else none
    | _ => none
  else none

/-- Drops the last return that is not reached. -/
def ruleStop (g : Graph) (n : NodeId) : Option Change :=
  let isDead : Edge × Nat → Bool := fun (r, _) => g.ty r != .ctrl
  ((g.inputs n).toList.zipIdx.reverse.find? isDead).map fun (_, i) => (some n, g.removeInput n i)

/-- Whether two addresses, each a reference and an offset, can never be the same. -/
def disjoint (g : Graph) (p₁ o₁ p₂ o₂ : Edge) : Bool :=
  if p₁ = p₂ then
    match g.constInt? o₁, g.constInt? o₂ with
    | some a, some b => a != b
    | _, _ => false
  else if g.isOp p₁ .alloc && g.isOp p₂ .alloc then true
  else
    match (g.ty p₁).structId?, (g.ty p₂).structId? with
    | some a, some b => a != b
    | _, _ => false

/-- A load sees the value just stored, looks past a store elsewhere, and finds zero in a new
object. -/
def ruleLoad (g : Graph) (n : NodeId) : Option Change :=
  let mem := g.input n 1
  let ptr := g.input n 2
  let off := g.input n 3
  match g.op? mem with
  | some .store =>
    if g.inputOf mem 2 = ptr ∧ g.inputOf mem 3 = off then some (g.inputOf mem 4, g)
    else if g.disjoint ptr off (g.inputOf mem 2) (g.inputOf mem 3) then
      some (some n, g.setInput n 1 (g.inputOf mem 1))
    else none
  | some (.proj 0) =>
    let src := g.inputOf mem 0
    if !g.isOp src .alloc then none
    else if src = ptr then some (g.constEdge (g.decl n).zero)
    else if g.isOp ptr .alloc then some (some n, g.setInput n 1 (g.inputOf src 1))
    else none
  | _ => none

/-- A store that overwrites one that nothing else sees. -/
def ruleStore (g : Graph) (n : NodeId) : Option Change :=
  match g.input n 1 with
  | none => none
  | some mem =>
    if g.op mem = .store ∧ g.useCount mem = 1 ∧ g.input mem 2 = g.input n 2
        ∧ g.input mem 3 = g.input n 3 then
      some (some n, (g.setInput n 1 (g.input mem 1)).kill mem)
    else none

/-- Applies one rule to `n`. -/
def applyRule (simp : Simplifier) (g : Graph) (n : NodeId) : Option Change :=
  if (g.op n).isCommutative && g.misordered n then some (some n, g.swapInputs n 1 2)
  else
    match g.op n with
    | .arith op => g.ruleArith simp op n
    | .bit op => g.ruleBit op n
    | .neg => g.ruleNeg n
    | .not => g.ruleNot simp n
    | .cmp op => g.ruleCmp op n
    | .phi => g.rulePhi n
    | .region | .loop => g.ruleRegion n
    | .ctrlProj i => g.ruleCtrlProj i n
    | .cast => g.ruleCast n
    | .load => g.ruleLoad n
    | .store => g.ruleStore n
    | .stop => g.ruleStop n
    | _ => none

/-- Whether the type of `n` leaves a single value, which a constant can stand for. -/
def isFoldable (g : Graph) (n : NodeId) : Bool :=
  (match g.op n with
    | .const _ => false
    | .phi | .cast => true
    | op => op.isFloating)
  && (g.ty (some n)).isConstant && !g.isOpenPhi n

/-- Control that is known not to be reached. Returns are dropped by the stop node instead. -/
def isDeadControl (g : Graph) (n : NodeId) : Bool :=
  match g.op n with
  | .start | .stop | .dead | .ret => false
  | op => op.isCfg && (g.ty (some n) == .top || g.ty (some n) == .deadCtrl)

def improve? (simp : Simplifier) (g : Graph) (n : NodeId) : Option Change :=
  if g.isFoldable n then some (g.constEdge (g.ty (some n)))
  else if g.isDeadControl n then some (some deadCtrl, g)
  else g.applyRule simp n

/-- What became of a node. -/
structure Rewritten where
  /-- The edge to use in place of the node. -/
  edge : Edge
  /-- Whether the graph was edited. -/
  edited : Bool
  graph : Graph

def mergeEqual (numbering : Bool) (g : Graph) (n : NodeId) (edited : Bool) : Rewritten :=
  if !numbering || g.isOpenPhi n then ⟨some n, edited, g⟩
  else
    match g.equal? n with
    | some m => ⟨some m, true, g.subsume n (some m)⟩
    | none => ⟨some n, edited, g.number n⟩

/-- Improves `n` at most so many times in place. -/
def improveAll (simp : Simplifier) (numbering : Bool) (n : NodeId) :
    Nat → Bool → Graph → Rewritten
  | 0, edited, g => g.mergeEqual numbering n edited
  | k + 1, edited, g =>
    match g.improve? simp n with
    | some (e, g) =>
      if e = some n then improveAll simp numbering n k true g
      else ⟨e, true, g.subsume n e⟩
    | none => g.mergeEqual numbering n edited

/-- How often a node may be edited in place at a time. -/
def maxLocalSteps : Nat := 32

/-- Types and simplifies a new node. The number bounds how deep new nodes make further ones. -/
def peepholeAt : Nat → Simplifier
  | 0, g, n => (some n, g)
  | k + 1, g, n =>
    let g := g.setTy n (g.settledType n)
    let r := improveAll (peepholeAt k) true n maxLocalSteps false g
    (r.edge, r.graph)

/-- Types a new node and simplifies it. The answer is the edge to use, which may lead to a node that
was there before. -/
def peephole (g : Graph) (n : NodeId) : Change := peepholeAt (g.size + 1) g n

/-- Simplifies `n` under its present type. -/
def rewrite (g : Graph) (n : NodeId) (numbering : Bool) : Rewritten :=
  improveAll (peepholeAt g.size) numbering n maxLocalSteps false g

def simplify (g : Graph) (n : NodeId) : Change :=
  let r := g.rewrite n true
  (r.edge, r.graph)

def idealize (g : Graph) (n : NodeId) : Option Change := g.applyRule (peepholeAt g.size) n

end Graph

end SeaNodes
