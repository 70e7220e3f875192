import AffineIR.Constraint.Elimination
import AffineIR.Memory.Access
import AffineIR.Nest.Loops

/-
  Dependences between affine accesses.

  The question whether two accesses touch the same element,
  the source first, is put as a system of constraints: both
  accesses run inside their loop bounds and guards, their
  indices are equal, and the source comes first at a given
  loop depth.  The system has a variable for every induction
  variable on each side, a shared variable for every value
  from outside both nests, a variable per side for every other
  value, and a count of steps for every loop that does not
  step by one.

  Key definitions include:
    * `Graph.dependence`
-/

namespace AffineIR

inductive Dependence where
  | absent
  | present
  /- The system cannot be written down. -/
  | unknown
deriving DecidableEq, Inhabited, Repr

namespace Dependence

/- Whether there may be a dependence. -/
def isPossible (d : Dependence) : Bool :=
  d ≠ absent

end Dependence

------
-- Building systems
------

/- To which of the two accesses a variable belongs. -/
inductive Side where
  | source
  | target
  | shared
deriving DecidableEq, Inhabited, Repr

/- A linear form over the variables of a system. -/
abbrev VarForm :=
  LinearForm "x"

/- The entries of a form as a row over the first `n` variables. -/
def VarForm.entries (f : VarForm) (n : Nat) : List Int :=
  ((List.range n).map fun i => f.coeff ⟨i⟩) ++ [f.constant]

structure SystemBuilder where
  system : ConstraintSystem := {}
  /- The variables that stand for values so far. -/
  vars : List ((Side × ValueId) × Nat) := []
deriving Inhabited

/- Why a system was not built. -/
inductive Obstacle where
  | fault (f : Fault)
  | notAffine
deriving Inhabited

abbrev BuildSystem :=
  StateT SystemBuilder (Except Obstacle)

namespace BuildSystem

/- Faults of a question become obstacles. -/
def ask {α : Type} (answer : Except Fault α) : BuildSystem α :=
  match answer with
  | .ok a => pure a
  | .error f => throw (.fault f)

/- A form that has to exist. -/
def need {α : Type} (form : Option α) : BuildSystem α :=
  match form with
  | some f => pure f
  | none => throw .notAffine

/- Add a variable to the system. -/
def newVar : BuildSystem VarForm :=
  modifyGet fun b =>
    (.leaf ⟨b.system.numVars⟩, { b with system := b.system.addVar })

/- Ask that a form be not negative. -/
def addInequality (f : VarForm) : BuildSystem Unit := do
  let b ← get
  let system ← ask (b.system.addInequality (f.entries b.system.numVars))
  set { b with system := system }

/- Ask that a form be zero. -/
def addEquality (f : VarForm) : BuildSystem Unit := do
  let b ← get
  let system ← ask (b.system.addEquality (f.entries b.system.numVars))
  set { b with system := system }

end BuildSystem

/- Two accesses' loops, outermost first. -/
structure NestPair where
  sourceLoops : List OpId
  targetLoops : List OpId
deriving Inhabited

namespace NestPair

def loops (n : NestPair) : Side → List OpId
  | .target => n.targetLoops
  | _ => n.sourceLoops

end NestPair

namespace Graph

variable (g : Graph) (nests : NestPair)

open BuildSystem

/- The operation that holds the definition of a value. -/
def holder? (v : ValueId) : Except Fault (Option OpId) := do
  match (← g.value v).definer with
  | .result op _ => return some op
  | .argument block _ => g.blockParentOp? block

/- Whether a value is defined inside a loop of either nest. -/
def isDefinedInNest (v : ValueId) : Except Fault Bool := do
  match ← g.holder? v with
  | none => return false
  | some holder =>
      (nests.sourceLoops ++ nests.targetLoops).anyM fun l =>
        g.isAncestor l holder

/- The side to which the variable of a value belongs. -/
def sideOf (side : Side) (v : ValueId) : Except Fault Side := do
  let isInduction ←
    (nests.loops side).anyM fun l => return (← g.inductionVar l) = v
  if isInduction then return side
  else if ← g.isDefinedInNest nests v then return side
  else return .shared

/- The variable that stands for a value on one side. -/
def varOf (side : Side) (v : ValueId) : BuildSystem VarForm := do
  let key := (← ask (g.sideOf nests side v), v)
  match (← get).vars.lookup key with
  | some i => return .leaf ⟨i⟩
  | none =>
      let i := (← get).system.numVars
      let var ← newVar
      modify fun b => { b with vars := (key, i) :: b.vars }
      return var

/- The terms of a form over values, as terms over variables. -/
def termsOf (side : Side) :
    List (ValueId × Int) → BuildSystem (List (Handle "x" × Int))
  | [] => return []
  | (v, c) :: rest => do
      let var ← g.varOf nests side v
      let others ← termsOf side rest
      return var.terms.map (fun t => (t.1, c)) ++ others

/- A form over values as a form over the variables of one side. -/
def formOf (side : Side) (f : ValueForm) : BuildSystem VarForm := do
  return .ofTerms (← g.termsOf nests side f.terms) f.constant

/- Ask that the variable of a loop be at least its lower bounds. -/
def addLowerBounds
    (side : Side)
    (var : VarForm)
    (map : Affine.Map)
    (operands : List ValueId) : BuildSystem (List VarForm) :=
  map.results.mapM fun e => do
    let composed ← ask (g.composeExpr e map.numDims map.numSymbols operands)
    let bound ← g.formOf nests side (← need composed)
    addInequality (← need (var.sub? bound))
    return bound

/- Ask that the variable of a loop be below its upper bounds. -/
def addUpperBounds
    (side : Side)
    (var : VarForm)
    (map : Affine.Map)
    (operands : List ValueId) : BuildSystem Unit :=
  map.results.forM fun e => do
    let composed ← ask (g.composeExpr e map.numDims map.numSymbols operands)
    let bound ← g.formOf nests side (← need composed)
    let room ← need (bound.sub? var)
    addInequality (← need (room.offset? (-1)))

/- Ask that a variable be a number of steps above its lower bound. -/
def addStride (var lower : VarForm) (step : Int) : BuildSystem Unit := do
  let count ← newVar
  let distance ← need (var.sub? lower)
  let steps ← need (count.scale? step)
  addEquality (← need (distance.sub? steps))
  addInequality count

/- The bounds of one loop. -/
def addLoop (side : Side) (l : OpId) : BuildSystem Unit := do
  let o ← ask (g.op l)
  match o.kind with
  | .loop lower upper step => do
      let var ← g.varOf nests side (← ask (g.inductionVar l))
      let lowerOperands ← ask o.lowerOperands
      let upperOperands ← ask o.upperOperands
      let bounds ← g.addLowerBounds nests side var lower lowerOperands
      g.addUpperBounds nests side var upper upperOperands
      match bounds with
      | [bound] => if 1 < step then addStride var bound step
      | _ => pure ()
  | _ => pure ()

/- The constraints of a conditional that are affine. -/
def addCondition
    (side : Side)
    (set : Affine.IntegerSet)
    (operands : List ValueId) : BuildSystem Unit :=
  set.constraints.forM fun c => do
    let composed ← ask (g.composeExpr c.expr set.numDims set.numSymbols operands)
    match composed with
    | none => pure ()
    | some form =>
        let f ← g.formOf nests side form
        if c.isEquality then addEquality f else addInequality f

/-
  The conditions of the conditionals that hold an operation in
  their first branch, from the inside out up to its scope.
-/
def addGuards
    (side : Side)
    (l : Lineage) :
    List (Site × OpId) → BuildSystem Unit
  | [] => ask (l.atTop ())
  | (inner, parent) :: rest => do
      let o ← ask (g.op parent)
      if o.kind.traits.affineScope then
        pure ()
      else do
        match o.kind with
        | .conditional set =>
            if inner.block = (← ask (g.thenBlock parent)) then
              g.addCondition nests side set o.operands
        | _ => pure ()
        addGuards side l rest

/- The guards around an operation. -/
def addGuardsOf (side : Side) (h : OpId) : BuildSystem Unit :=
  let l := g.lineage h
  g.addGuards nests side l (l.sites.zip (l.ops.drop 1))

/- Ask that two lists of indices be equal. -/
def addEqualIndices :
    List (Option ValueForm × Option ValueForm) → BuildSystem Unit
  | [] => pure ()
  | (s, t) :: rest => do
      let s ← need s
      let t ← need t
      let source ← g.formOf nests .source s
      let target ← g.formOf nests .target t
      addEquality (← need (source.sub? target))
      addEqualIndices rest

/-
  Ask that the iterations of the common loops be the same, and
  at the given depth later for the target.
-/
def addOrder (depth : Nat) : List (OpId × Nat) → BuildSystem Unit
  | [] => pure ()
  | (l, level) :: rest => do
      let var ← ask (g.inductionVar l)
      let source ← g.varOf nests .source var
      let target ← g.varOf nests .target var
      let difference ← need (target.sub? source)
      if level + 1 < depth then
        addEquality difference
      else
        addInequality (← need (difference.offset? (-1)))
      addOrder depth rest

/- The whole system for two accesses at a depth. -/
def addDependence
    (source target : Access)
    (numCommon depth : Nat) : BuildSystem Unit := do
  nests.sourceLoops.forM (g.addLoop nests .source)
  nests.targetLoops.forM (g.addLoop nests .target)
  g.addGuardsOf nests .source source.op
  g.addGuardsOf nests .target target.op
  g.addEqualIndices nests (source.indices.zip target.indices)
  g.addOrder nests depth
    ((nests.sourceLoops.take (min numCommon depth)).zipIdx)

/- The system for two accesses at a depth. -/
def dependenceSystem
    (source target : Access)
    (numCommon depth : Nat) : Except Obstacle ConstraintSystem := do
  let (_, b) ← (g.addDependence nests source target numCommon depth).run {}
  return b.system

------
-- The test
------

/-
  Whether an operation comes before another one in the
  innermost block that holds ancestors of both, or encloses
  it.  Operations without such a block count as in order.
-/
def appearsBefore (a b : OpId) : Except Fault Bool := do
  let sitesA ← (g.lineage a).complete
  let sitesB ← (g.lineage b).complete
  let meeting := sitesB.findSome? fun s =>
    (sitesA.find? (·.block = s.block)).map fun r => (r.op, s.op)
  match meeting with
  | none => return true
  | some (s, t) => if s = t then return true else g.isBefore s t

/-
  Whether two accesses may touch the same element, the source
  first, at a loop depth.  Depths count from one; the depth
  behind the last common loop means the same iteration of all
  common loops.
-/
def dependence
    (source target : Access)
    (depth : Nat) : Except Fault Dependence := do
  if source.memref ≠ target.memref || (!source.isStore && !target.isStore) then
    return .absent
  let numCommon ← g.numCommonLoops source.op target.op
  if numCommon < depth then
    if !(← g.appearsBefore source.op target.op) then
      return .absent
  if source.rank ≠ target.rank then
    return .unknown
  let nests : NestPair :=
    ⟨← g.enclosingLoops source.op, ← g.enclosingLoops target.op⟩
  match g.dependenceSystem nests source target numCommon depth with
  | .error (.fault f) => throw f
  | .error .notAffine => return .unknown
  | .ok system =>
      return if ← system.isEmpty then .absent else .present

end Graph

end AffineIR
