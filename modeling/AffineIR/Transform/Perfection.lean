import AffineIR.Function.Build
import AffineIR.Graph.Nesting
import AffineIR.Nest.Loops
import AffineIR.Transform.Log

/-
  Perfection of loop nests.

  For every loop at the top of a function, the loops in it
  have to form a chain in which each one is directly in the
  next.  The statements of a loop before and after its inner
  loop are sunk into the innermost body, behind guards that
  hold on the first and on the last iteration of the loops in
  between.  Statements with results are moved in front of
  their guard, so their results may only be used by what ends
  up in the innermost body.

  A nest for which this is not possible stays as it is.

  Key definitions include:
    * `Function.perfectLoops`
-/

namespace AffineIR

/- Why a nest is left alone. -/
inductive NestRefusal where
  | parallelLoops (function : String) (root : OpId)
  | nonConstantLower (function : String) (loop : OpId)
  | nonConstantUpper (function : String) (loop : OpId)
  | escapingResult (function : String) (op user : OpId)
deriving DecidableEq, Repr

namespace NestRefusal

def message : NestRefusal → String
  | parallelLoops function root =>
      "in function '" ++ function ++ "': nest rooted at " ++ root.text ++
        " has parallel inner loops"
  | nonConstantLower function loop =>
      "in function '" ++ function ++ "': loop " ++ loop.text ++
        " has a non-constant lower bound"
  | nonConstantUpper function loop =>
      "in function '" ++ function ++ "': loop " ++ loop.text ++
        " has a non-constant upper bound"
  | escapingResult function op user =>
      "in function '" ++ function ++ "': result of " ++ op.text ++
        " is used by " ++ user.text ++ " outside the innermost loop body"

end NestRefusal

/- The statements of one loop that have to move. -/
structure NestLevel where
  /- The statements before and after the inner loop. -/
  front : List OpId
  back : List OpId
  /- The loops inside this one, innermost first. -/
  inner : List OpId
  /- Their first values, if there are statements in front. -/
  first : List Int
  /- Their last values, if there are statements behind. -/
  last : List Int
deriving Inhabited

/- A plan fails with a refusal, or with a fault of the graph. -/
inductive PlanFailure where
  | fault (f : Fault)
  | refusal (r : NestRefusal)

abbrev Plan :=
  Except PlanFailure

namespace Perfection

def ask {α : Type} (answer : Except Fault α) : Plan α :=
  match answer with
  | .ok a => .ok a
  | .error f => .error (.fault f)

def refuse {α : Type} (r : NestRefusal) : Plan α :=
  .error (.refusal r)

------
-- Plans
------

/-
  The chain of loops among operations in post-order.  Nothing
  is given if a loop is not directly around the one before.
-/
def chainOf (g : Graph) :
    List OpId → List OpId → Except Fault (Option (List OpId))
  | chain, [] => .ok (some chain)
  | chain, h :: rest => do
      if !(← g.kind h).isLoop then
        chainOf g chain rest
      else
        match chain.getLast? with
        | none => chainOf g [h] rest
        | some previous =>
            if (← g.parentOp? previous) = some h then
              chainOf g (chain ++ [h]) rest
            else
              return none

/- The value of the variable on the first iteration of a loop. -/
def firstValue (g : Graph) (function : String) (l : OpId) : Plan Int := do
  match (← ask (g.kind l)).constantLower? with
  | some lower => return lower
  | none => refuse (.nonConstantLower function l)

/- The Euclidean quotient of two words. -/
def quotient (x y : Int) : Except Fault Int :=
  if y = 0 then .error .divisionByZero else Word.word (x / y)

/- The last value below `upper` that steps reach from `lower`. -/
def lastBelow (lower upper step : Int) : Except Fault Int := do
  let distance ← Word.word (upper - lower)
  let room ← Word.word (distance - 1)
  let steps ← quotient room step
  let reach ← Word.word (steps * step)
  Word.word (lower + reach)

/- The value of the variable on the last iteration of a loop. -/
def lastValue (g : Graph) (function : String) (l : OpId) : Plan Int := do
  let kind ← ask (g.kind l)
  match kind.constantUpper? with
  | none => refuse (.nonConstantUpper function l)
  | some upper =>
      let step := kind.step?.getD 1
      if step = 1 then
        ask (Word.word (upper - 1))
      else
        let lower ← firstValue g function l
        ask (lastBelow lower upper step)

/- First and last values of loops, as far as they are needed. -/
def valuesOf
    (g : Graph)
    (function : String)
    (needFirst needLast : Bool) :
    List OpId → Plan (List Int × List Int)
  | [] => .ok ([], [])
  | l :: rest => do
      let first ← if needFirst then (fun x => [x]) <$> firstValue g function l
        else pure []
      let last ← if needLast then (fun x => [x]) <$> lastValue g function l
        else pure []
      let (firsts, lasts) ← valuesOf g function needFirst needLast rest
      return (first ++ firsts, last ++ lasts)

/- What has to move out of a loop around another one. -/
def levelOf
    (g : Graph)
    (function : String)
    (inner : List OpId)
    (innerLoop outer : OpId) : Plan (Option NestLevel) := do
  let ops := (← ask (do g.block (← g.bodyBlock outer))).ops
  let split ← ask (g.position innerLoop)
  let front ← ask (entriesUpTo ops split)
  let behind ← ask (entriesFrom ops (split + 1))
  let back ← ask (behind.filterM fun h => return !(← g.kind h).isTerminator)
  if front.isEmpty && back.isEmpty then
    return none
  else
    let (first, last) ←
      valuesOf g function (!front.isEmpty) (!back.isEmpty) inner
    return some ⟨front, back, inner, first, last⟩

/- The levels of a chain, innermost first. -/
def levelsOf
    (g : Graph)
    (function : String)
    (inner : List OpId)
    (innerLoop : OpId) : List OpId → Plan (List NestLevel)
  | [] => .ok []
  | outer :: rest => do
      let level ← levelOf g function inner innerLoop outer
      let others ← levelsOf g function (inner ++ [outer]) outer rest
      return level.toList ++ others

/- Whether a user of a sunk result is sunk too. -/
def movesAlong
    (g : Graph)
    (innermost : OpId)
    (sunk : List OpId)
    (user : OpId) : Except Fault Bool := do
  if ← g.isProperAncestor innermost user then return true
  else sunk.anyM fun s => g.isAncestor s user

/- Refuse results that are used outside the innermost body. -/
def checkResults
    (g : Graph)
    (function : String)
    (levels : List NestLevel) : Plan Unit := do
  match levels.head? with
  | none => return ()
  | some level =>
      let innermost ← ask (entryAt level.inner 0)
      let sunk := levels.flatMap fun l => l.front ++ l.back
      sunk.forM fun op => do
        (← ask (g.op op)).results.forM fun result => do
          (← ask (g.users result)).forM fun user => do
            if !(← ask (movesAlong g innermost sunk user)) then
              refuse (.escapingResult function op user)

/- What has to move in the nest of a loop. -/
def plan (g : Graph) (function : String) (root : OpId) :
    Plan (List NestLevel) := do
  let ops ← ask (g.walkOp .post root)
  match ← ask (chainOf g [] ops) with
  | none => refuse (.parallelLoops function root)
  | some [] => return []
  | some (innermost :: outer) =>
      let levels ← levelsOf g function [innermost] innermost outer
      checkResults g function levels
      return levels

------
-- Sinking
------

/- Move statements without results into a guard, others before it. -/
def sink (ops : List OpId) (guard : OpId) (block : BlockId) : Edit Unit := do
  let last ← Edit.ask (·.yieldOf block)
  ops.forM fun op => do
    if (← Edit.ask (·.op op)).results.isEmpty then
      Edit.moveBefore op last
    else
      Edit.moveBefore op guard

/- The set of one point, as equations of its coordinates. -/
def pointSet (exprs : List Affine.Expr) : Affine.IntegerSet :=
  ⟨exprs.length, 0, exprs.map fun e => ⟨e, true⟩⟩

/- The guard that holds on the first iterations. -/
def firstGuard (first : List Int) : Affine.IntegerSet :=
  pointSet (first.zipIdx.map fun (c, i) => (Affine.Expr.dim i).minusConstant c)

/- The guard that holds on the last iterations. -/
def lastGuard (last : List Int) : Affine.IntegerSet :=
  pointSet (last.zipIdx.map fun (c, i) =>
    (Affine.Expr.constant c).minus (.dim i))

/- Sink the statements of one level into the innermost body. -/
def sinkLevel (innermost : OpId) (level : NestLevel) : Edit Unit := do
  let body ← Edit.ask (·.bodyBlock innermost)
  let vars ← level.inner.mapM fun l => Edit.ask (·.inductionVar l)
  if !level.front.isEmpty then
    let start ← Edit.ask fun g => do entryAt (← g.block body).ops 0
    let guard ←
      Build.conditional (.before start) (firstGuard level.first) vars false
    sink level.front guard.op guard.thenBlock
  if !level.back.isEmpty then
    let last ← Edit.ask (·.yieldOf body)
    let guard ←
      Build.conditional (.before last) (lastGuard level.last) vars false
    sink level.back guard.op guard.thenBlock

/- Carry out the plan of a nest. -/
def carryOut (levels : List NestLevel) : Edit Unit := do
  match levels.head? with
  | none => pure ()
  | some level =>
      let innermost ← Edit.ask fun _ => entryAt level.inner 0
      levels.forM (sinkLevel innermost)

end Perfection

/- What perfection did to a function. -/
structure Perfected where
  function : Function
  perfected : Nat := 0
  refusals : List NestRefusal := []
  log : List LogEntry := []

namespace Perfected

/- Work on the nest of one loop. -/
def perfectNest (p : Perfected) (root : OpId) : Except Fault Perfected := do
  let f := p.function
  match Perfection.plan f.graph f.name root with
  | .error (.fault e) => throw e
  | .error (.refusal r) =>
      return { p with
        refusals := p.refusals ++ [r]
        log := p.log ++ [⟨.error, r.message⟩] }
  | .ok [] => return p
  | .ok levels =>
      let (_, g) ← f.edit (Perfection.carryOut levels)
      let text :=
        "perfected loop nest " ++ root.text ++ " in '" ++ f.name ++ "'"
      return { p with
        function := g
        perfected := p.perfected + 1
        log := p.log ++ [⟨.debug, text⟩] }

end Perfected

/- Perfect the nests at the top of a function. -/
def Function.perfectLoops (f : Function) : Except Fault Perfected := do
  let ops ← f.graph.regionOps f.body
  let roots ← ops.filterM fun h => return (← f.graph.kind h).isLoop
  roots.foldlM Perfected.perfectNest { function := f }

end AffineIR
