import AffineIR.Graph.Edit

/-
  Functions and modules.

  A function is a graph with a body region; the arguments of
  the first block of the body are the arguments of the
  function.  A module is a list of functions.

  Key definitions include:
    * `Module`
-/

namespace AffineIR

structure Function where
  name : String
  graph : Graph
  body : RegionId
  resultTypes : List Ty
deriving Inhabited

namespace Function

/- A function whose entry block is empty. -/
def create
    (name : String)
    (args results : List Ty) : Except Fault Function := do
  let edit : Edit RegionId := do
    let body ← Edit.createRegion none
    let _ ← Edit.createBlock body args
    return body
  let (body, graph) ← edit.run {}
  return ⟨name, graph, body, results⟩

def entryBlock (f : Function) : Except Fault BlockId := do
  entryAt (← f.graph.region f.body).blocks 0

def arguments (f : Function) : Except Fault (List ValueId) := do
  return (← f.graph.block (← f.entryBlock)).args

def argumentTypes (f : Function) : Except Fault (List Ty) := do
  (← f.arguments).mapM f.graph.valueTy

/- Change the graph of a function. -/
def edit {α : Type} (f : Function) (e : Edit α) : Except Fault (α × Function) := do
  let (a, graph) ← e.run f.graph
  return (a, { f with graph := graph })

end Function

structure Module where
  functions : List Function := []
deriving Inhabited

namespace Module

/- The position of the first function of a given name. -/
def find? (m : Module) (name : String) : Option Nat :=
  m.functions.findIdx? (·.name == name)

end Module

end AffineIR
