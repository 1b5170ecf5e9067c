import SeaNodes.Build.Function
import SeaNodes.Opt.Fixpoint
import SeaNodes.Opt.Gate
import SeaNodes.Schedule.Order
import SeaNodes.Eval.Machine

namespace SeaNodes

/-- An optimized function with its schedule. -/
structure Scheduled extends Routine where
  sig : Signature
  stats : OptStats
deriving Inhabited

namespace Scheduled

/-- The function of a declaration. The context may gain layouts. -/
def ofDecl (cfg : OptConfig) (ctx : Context) (d : FunctionDecl) :
    Except Fault (Scheduled × Context) := do
  let (built, ctx) := ctx.buildFunction d
  let (settled, o) := (← built).optimize cfg
  settled
  o.graph.typeCheck ctx d.name
  let schedule ← o.graph.schedule
  match (ctx.functionIndex? d.name).bind ctx.function? with
  | some sig => return ({ graph := o.graph, schedule, sig, stats := o.stats }, ctx)
  | none => throw (.internal .build none (.notInTable d.name))

def ofDecls (cfg : OptConfig) (ctx : Context) :
    List FunctionDecl → Except Fault (List Scheduled × Context)
  | [] => .ok ([], ctx)
  | d :: rest => do
    let (f, ctx) ← ofDecl cfg ctx d
    let (fs, ctx) ← ofDecls cfg ctx rest
    return (f :: fs, ctx)

/-- The functions in the form in which they run. -/
def routines (fs : List Scheduled) : Routines := .ofList (fs.map (·.toRoutine))

/-- The index of a function that there is none of. -/
def noFunction : Nat := 0xffffffff

def evaluate (fs : List Scheduled) (name : String) (args : Array Value) : Except EvalError Value :=
  let index := (fs.findIdx? (·.sig.name == name)).getD noFunction
  ((({} : Machine).call (routines fs) index args)).1

end Scheduled

def Program.schedule (p : Program) (cfg : OptConfig) :
    Except Fault (List Scheduled × Context) := do
  Scheduled.ofDecls cfg (← Context.ofProgram p) p.functions

end SeaNodes
