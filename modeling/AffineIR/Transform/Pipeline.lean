import AffineIR.Function.Printer
import AffineIR.Function.Validation
import AffineIR.Transform.Forwarding
import AffineIR.Transform.Perfection

/-
  Pipelines of passes over a module.

  A pipeline runs its passes in order.  After each pass it may
  log the text of the module and check that it is valid.

  Key definitions include:
    * `Pipeline.run`
-/

namespace AffineIR

inductive Pass where
  | perfectLoops
  | forwardStores
  | printModule
deriving DecidableEq, Inhabited, Repr

namespace Pass

def name : Pass → String
  | perfectLoops => "affine-loop-perfection"
  | forwardStores => "affine-store-forward"
  | printModule => "print"

def all : List Pass :=
  [perfectLoops, forwardStores, printModule]

def ofName? (name : String) : Option Pass :=
  all.find? (·.name == name)

end Pass

------
-- Modules
------

/- What perfection did to a module. -/
structure PerfectedModule where
  module : Module
  perfected : Nat := 0
  refusals : List NestRefusal := []
  log : List LogEntry := []

namespace Module

/- Perfect the nests of all functions. -/
def perfectLoops (m : Module) : Except Fault PerfectedModule := do
  let results ← m.functions.mapM Function.perfectLoops
  return {
    module := ⟨results.map (·.function)⟩
    perfected := results.foldl (fun n r => n + r.perfected) 0
    refusals := results.flatMap (·.refusals)
    log := results.flatMap (·.log) }

end Module

/- What forwarding did to a module. -/
structure ForwardedModule where
  module : Module
  stats : ForwardStats := {}
  log : List LogEntry := []

namespace Module

/- Forward the stores of all functions. -/
def forwardStores (m : Module) : Except Fault ForwardedModule := do
  let results ← m.functions.mapM Function.forwardStores
  return {
    module := ⟨results.map (·.function)⟩
    stats := (results.map (·.stats)).foldl ForwardStats.add {}
    log := results.flatMap (·.log) }

end Module

------
-- Pipelines
------

/- Which passes to run and how. -/
structure Options where
  /- Log the text of the module after every pass. -/
  debug : Bool := false
  /- Check the module after every pass. -/
  validate : Bool := true
  perfectLoops : Bool := false
  forwardStores : Bool := false
deriving DecidableEq, Inhabited, Repr

namespace Options

/- No passes. -/
def o0 : Options :=
  {}

/- All optimizations. -/
def o1 : Options :=
  { perfectLoops := true, forwardStores := true }

end Options

structure Pipeline where
  passes : List Pass := []
  validate : Bool := false
  debug : Bool := false
deriving DecidableEq, Inhabited, Repr

/- What passes leave behind. -/
structure PipelineState where
  module : Module
  printed : String := ""
  log : List LogEntry := []
deriving Inhabited

namespace Pipeline

def add (p : Pipeline) (pass : Pass) : Pipeline :=
  { p with passes := p.passes ++ [pass] }

/-
  Add the passes that options ask for.  Perfection comes first
  so that forwarding sees the statements that were sunk.
-/
def addDefaults (p : Pipeline) (o : Options) : Pipeline :=
  { passes := p.passes ++
      (if o.perfectLoops then [.perfectLoops] else []) ++
      (if o.forwardStores then [.forwardStores] else [])
    validate := p.validate || o.validate
    debug := p.debug || o.debug }

/- Add a pass by its name; tell whether there is such a pass. -/
def addByName (p : Pipeline) (name : String) : Bool × Pipeline :=
  match Pass.ofName? name with
  | some pass => (true, p.add pass)
  | none => (false, p)

/- The effect of a single pass. -/
def runPass (pass : Pass) (s : PipelineState) :
    Except Fault PipelineState := do
  match pass with
  | .perfectLoops =>
      let r ← s.module.perfectLoops
      return { s with module := r.module, log := s.log ++ r.log }
  | .forwardStores =>
      let r ← s.module.forwardStores
      return { s with module := r.module, log := s.log ++ r.log }
  | .printModule =>
      return { s with printed := s.printed ++ (← s.module.print) ++ "\n" }

/- Add a debug entry to the log. -/
def note (s : PipelineState) (text : String) : PipelineState :=
  { s with log := s.log ++ [⟨.debug, text⟩] }

/- A pass with what the pipeline does around it. -/
def step (p : Pipeline) (s : PipelineState) (pass : Pass) :
    Except Fault PipelineState := do
  let s ← runPass pass (note s ("running pass '" ++ pass.name ++ "'"))
  let s ←
    if p.debug then
      pure (note s ("after '" ++ pass.name ++ "':\n" ++ (← s.module.print)))
    else
      pure s
  if p.validate then
    let problems ← s.module.problems
    if !problems.isEmpty then
      throw (.invalidAfter pass.name problems)
  return s

/- Run all passes in order. -/
def run (p : Pipeline) (m : Module) : Except Fault PipelineState :=
  p.passes.foldlM p.step { module := m }

end Pipeline

end AffineIR
