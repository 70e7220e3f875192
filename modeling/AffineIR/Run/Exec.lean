import AffineIR.Function.Basic
import AffineIR.Graph.Parts
import AffineIR.Run.Arithmetic
import AffineIR.Run.Machine

/-
  Execution of functions.

  Operations of a block run one after the other, and each of
  them is counted.  A block ends by falling off, by a branch
  to another block, or by a return.  Loops and conditionals
  run their regions from the first block on.

  Key definitions include:
    * `Function.run`
-/

namespace AffineIR

/- How control leaves an operation or a block. -/
inductive Flow where
  | done
  | branch (block : BlockId)
  | ret (values : List Datum)
deriving DecidableEq, Inhabited, Repr

namespace Exec

/- Bind the first result of an operation. -/
def bindResult (o : Operation) (d : Datum) : Exec Unit := do
  assign (← ask (entryAt o.results 0)) d

/- The results of a map; a trap if they have no value. -/
def evalMap
    (h : OpId)
    (map : Affine.Map)
    (operands : List ValueId) : Exec (List Int) := do
  match ← ask (map.eval (← ints operands)) with
  | some results => return results
  | none => trap (.invalidAffine h)

/- Whether a point is in a set; a trap if that has no answer. -/
def evalSet
    (h : OpId)
    (set : Affine.IntegerSet)
    (operands : List ValueId) : Exec Bool := do
  match ← ask (set.contains (← ints operands)) with
  | some answer => return answer
  | none => trap (.invalidAffine h)

------
-- Loops
------

/-
  Run a body for `i`, `i + step` and so on below `upper`, for
  at most `fuel` times.  A return ends the loop.
-/
def iterateUpTo
    (body : Int → Exec Flow)
    (upper step : Int) : Nat → Int → Exec Flow
  | 0, _ => return .done
  | fuel + 1, i => do
      if i < upper then
        match ← body i with
        | .ret values => return .ret values
        | _ =>
            match Word.add? i step with
            | some next => iterateUpTo body upper step fuel next
            | none => return .done
      else
        return .done

/- Run a body for the values of a loop that steps upwards. -/
def iterate
    (body : Int → Exec Flow)
    (lower upper step : Int) : Exec Flow :=
  iterateUpTo body upper step (upper - lower).toNat lower

/- Run a loop; `enter` runs a region. -/
def loop
    (g : Graph)
    (enter : RegionId → Exec Flow)
    (h : OpId)
    (o : Operation)
    (lower upper : Affine.Map)
    (step : Int) : Exec Flow := do
  if step ≤ 0 then
    trap (.nonPositiveStep h)
  let lowers ← evalMap h lower (← ask o.lowerOperands)
  let uppers ← evalMap h upper (← ask o.upperOperands)
  match lowers.max?, uppers.min? with
  | some first, some last =>
      let var ← ask (g.inductionVar h)
      let body (i : Int) : Exec Flow := do
        assign var (.scalar (.index i))
        enter (← ask (entryAt o.regions 0))
      iterate body first last step
  | _, _ => trap (.invalidAffine h)

/- Run a branch of a conditional; a return goes on outwards. -/
def conditional
    (enter : RegionId → Exec Flow)
    (h : OpId)
    (o : Operation)
    (set : Affine.IntegerSet) : Exec Flow := do
  let taken ← evalSet h set o.operands
  let region ←
    if taken then some <$> ask (entryAt o.regions 0)
    else pure o.regions[1]?
  match region with
  | none => return .done
  | some r =>
      match ← enter r with
      | .ret values => return .ret values
      | _ => return .done

------
-- Operations
------

/- Run an operation; `enter` runs a region in it. -/
def op
    (g : Graph)
    (enter : RegionId → Exec Flow)
    (h : OpId) : Exec Flow := do
  let o ← ask (g.op h)
  let operand (i : Nat) : Exec ValueId := ask (entryAt o.operands i)
  match o.kind with
  | .constant value =>
      bindResult o (.scalar value)
      return .done
  | .arith fn =>
      let l ← scalar (← operand 0)
      let r ← scalar (← operand 1)
      match fn.eval? l r with
      | some value =>
          bindResult o (.scalar value)
          return .done
      | none => mismatch (.arith fn)
  | .compare predicate =>
      let l ← scalar (← operand 0)
      let r ← scalar (← operand 1)
      match predicate.holds? l r with
      | some answer =>
          bindResult o (.scalar (.bool answer))
          return .done
      | none => mismatch (.compare predicate)
  | .select =>
      let cond ← ask (← scalar (← operand 0)).getBool
      let chosen ← lookup (← operand (if cond then 1 else 2))
      bindResult o chosen
      return .done
  | .apply map =>
      match ← evalMap h map o.operands with
      | first :: _ =>
          bindResult o (.scalar (.index first))
          return .done
      | [] => trap (.invalidAffine h)
  | .affineLoad map =>
      let indices ← evalMap h map (← ask (entriesFrom o.operands 1))
      let value ← readElement (← operand 0) indices
      bindResult o (.scalar value)
      return .done
  | .affineStore map =>
      let value ← scalar (← operand 0)
      let indices ← evalMap h map (← ask (entriesFrom o.operands 2))
      writeElement (← operand 1) indices value
      return .done
  | .loop lower upper step => loop g enter h o lower upper step
  | .conditional set => conditional enter h o set
  | .affineSelect set =>
      let n ← ask set.numInputs
      let taken ← evalSet h set (← ask (entriesUpTo o.operands n))
      let chosen ← lookup (← operand (if taken then n else n + 1))
      bindResult o chosen
      return .done
  | .yield => return .done
  | .alloc =>
      let ty ← ask (do g.valueTy (← g.result h))
      bindResult o (← allocBuffer ty none)
      return .done
  | .dealloc =>
      freeBuffer (← operand 0)
      return .done
  | .load =>
      let indices ← ints (← ask (entriesFrom o.operands 1))
      let value ← readElement (← operand 0) indices
      bindResult o (.scalar value)
      return .done
  | .store =>
      let value ← scalar (← operand 0)
      let indices ← ints (← ask (entriesFrom o.operands 2))
      writeElement (← operand 1) indices value
      return .done
  | .call _ | .generic _ _ _ => trap (.unsupportedOp o.kind.name)
  | .branch => return .branch (← ask (entryAt o.successors 0))
  | .condBranch =>
      let cond ← ask (← scalar (← operand 0)).getBool
      return .branch (← ask (entryAt o.successors (if cond then 0 else 1)))
  | .ret => return .ret (← o.operands.mapM lookup)

/- Run operations until one of them leaves the block. -/
def ops
    (g : Graph)
    (enter : RegionId → Exec Flow) :
    List OpId → Exec Flow
  | [] => return .done
  | h :: rest => do
      tick h
      match ← op g enter h with
      | .done => ops g enter rest
      | flow => return flow

/- Run a region from its first block on. -/
def region
    (g : Graph)
    (block : BlockId → Exec Flow)
    (h : RegionId) : Exec Flow := do
  match ← ask (g.entryBlock? h) with
  | some b => block b
  | none => return .done

/-
  Run a block and those it branches to.  Every block that is
  entered costs one unit of fuel; all but the first are
  entered by an operation that was counted.
-/
def blockUpTo (g : Graph) : Nat → BlockId → Exec Flow
  | 0, _ => throw .endless
  | fuel + 1, h => do
      let b ← ask (g.block h)
      match ← ops g (region g (blockUpTo g fuel)) b.ops with
      | .branch next => blockUpTo g fuel next
      | flow => return flow

end Exec

/- Run a function on arguments and give what it returns. -/
def Function.run (f : Function) (args : List Datum) : Exec (List Datum) := do
  let params ← Exec.ask f.arguments
  if params.length ≠ args.length then
    Exec.trap (.argumentCount params.length args.length)
  (params.zip args).forM fun (v, d) => Exec.assign v d
  let fuel := (← get).limit + 1
  match ← Exec.region f.graph (Exec.blockUpTo f.graph fuel) f.body with
  | .ret values => return values
  | _ => return []

end AffineIR
