import AffineIR.Dominance.Regions
import AffineIR.Function.Basic
import AffineIR.Graph.Nesting
import AffineIR.Graph.Parts

/-
  Validation of functions.

  First the structure is checked: links between parents and
  children, and where terminators stand.  If it is sound, each
  operation is checked: uses and definitions agree, operands
  fit its kind, and every operand dominates it.

  Key definitions include:
    * `Module.problems`
-/

namespace AffineIR

namespace Validation

/- A problem that is there under a condition. -/
def problemIf (bad : Bool) (text : String) : List String :=
  if bad then [text] else []

/- A problem that is there unless a condition holds. -/
def problemUnless (good : Bool) (text : String) : List String :=
  if good then [] else [text]

------
-- Structure
------

def wrongParent (what : String) : String :=
  what ++ " has a wrong parent link"

/- Problems of an operation's place; `nested` checks its regions. -/
def placeProblems
    (g : Graph)
    (nested : RegionId → OpId → Except Fault (List String))
    (region : RegionId)
    (block : BlockId)
    (isLast : Bool)
    (h : OpId) : Except Fault (List String) := do
  let o ← g.op h
  let link := problemIf (o.parent ≠ some block) (wrongParent h.text)
  let order :=
    problemIf (o.kind.isTerminator && !isLast)
      ("terminator " ++ o.kind.name ++ " is not last in " ++ block.text)
  let leaves ← o.successors.mapM fun s => do
    return problemIf ((← g.block s).parent ≠ region)
      ("branch from " ++ block.text ++ " leaves its region")
  let inner ← o.regions.mapM fun r => nested r h
  return link ++ order ++ leaves.flatten ++ inner.flatten

/- Problems of the last operation of a block. -/
def endProblems
    (g : Graph)
    (parent : Option Kind)
    (h : BlockId)
    (ops : List OpId) : Except Fault (List String) := do
  let last ← ops.getLast?.mapM g.kind
  match parent with
  | none =>
      let ends := match last with
        | some .ret | some .branch | some .condBranch => true
        | _ => false
      return problemUnless ends (h.text ++ " must end with a return or branch")
  | some kind =>
      return problemIf
        ((kind.isLoop || kind.isConditional) && last ≠ some .yield)
        (h.text ++ " must end with affine.yield")

/- Problems of a block and what is in it. -/
def blockProblems
    (g : Graph)
    (nested : RegionId → OpId → Except Fault (List String))
    (region : RegionId)
    (parent : Option Kind)
    (h : BlockId) : Except Fault (List String) := do
  let b ← g.block h
  let link := problemIf (b.parent ≠ region) (wrongParent h.text)
  let inner ← b.ops.zipIdx.mapM fun (op, i) =>
    placeProblems g nested region h (i + 1 == b.ops.length) op
  let ends ← endProblems g parent h b.ops
  return link ++ inner.flatten ++ ends

/- Problems of a region down to a depth of nesting. -/
def regionProblemsUpTo (g : Graph) :
    Nat → RegionId → Option OpId → Except Fault (List String)
  | 0, _, _ => .error .endless
  | depth + 1, h, parent => do
      let r ← g.region h
      let link := problemIf (r.parent ≠ parent) (wrongParent h.text)
      let kind ← parent.mapM g.kind
      let nested region op := regionProblemsUpTo g depth region (some op)
      let inner ← r.blocks.mapM (blockProblems g nested h kind)
      return link ++ inner.flatten

/- Problems of the structure of a body. -/
def regionProblems (g : Graph) (body : RegionId) :
    Except Fault (List String) :=
  regionProblemsUpTo g g.depthBound body none

------
-- Uses and definitions
------

/- Problems of one operand. -/
def operandProblems (g : Graph) (h : OpId) (v : ValueId) (i : Nat) :
    List String :=
  match g.values.get? v with
  | none => [h.text ++ " uses a dangling value"]
  | some value =>
      problemUnless (value.uses.contains ⟨h, i⟩)
        ("use " ++ toString i ++ " of " ++ h.text ++ " is not recorded")

/- Whether a recorded use is one. -/
def useHolds (g : Graph) (v : ValueId) (u : Use) : Bool :=
  match g.ops.get? u.op with
  | some o => o.operands[u.operand]? = some v
  | none => false

/- Problems of one result. -/
def resultProblems
    (g : Graph)
    (h : OpId)
    (v : ValueId)
    (i : Nat) : Except Fault (List String) := do
  let value ← g.value v
  let place := "result " ++ toString i ++ " of " ++ h.text
  let definition :=
    problemIf (value.definer ≠ .result h i)
      (place ++ " has a wrong definition")
  let stale := (value.uses.filter fun u => !useHolds g v u).map
    fun _ => "stale use of " ++ place
  return definition ++ stale

/- Problems of the operands and results of an operation. -/
def useProblems (g : Graph) (h : OpId) : Except Fault (List String) := do
  let o ← g.op h
  let operands := o.operands.zipIdx.map fun (v, i) => operandProblems g h v i
  let results ← o.results.zipIdx.mapM fun (v, i) => resultProblems g h v i
  return operands.flatten ++ results.flatten

------
-- Kinds
------

/- Problems of a load or store with the given number of indices. -/
def accessProblems
    (g : Graph)
    (o : Operation)
    (valueTy : Option Ty)
    (numIndices : Nat) : Except Fault (List String) := do
  let name := o.kind.name
  match o.memref? with
  | none => return [name ++ " without a memref operand"]
  | some memref =>
      match ← g.valueTy memref with
      | .memref shape element =>
          let rank :=
            problemIf (numIndices ≠ shape.length)
              (name ++ " has " ++ toString numIndices ++
                " indices for rank " ++ toString shape.length)
          let ty := match valueTy with
            | some ty =>
                problemIf (ty ≠ element)
                  (name ++ " value type " ++ ty.text ++
                    " does not match element type " ++ element.text)
            | none => []
          return rank ++ ty
      | _ => return [name ++ " on a non-memref value"]

/- Problems of a loop. -/
def loopProblems
    (g : Graph)
    (h : OpId)
    (o : Operation)
    (lower upper : Affine.Map)
    (step : Int) : Except Fault (List String) := do
  let n := o.operands.length
  let inputs := (← lower.numInputs) + (← upper.numInputs)
  let operands :=
    problemIf (inputs ≠ n)
      ("affine.for bounds do not fit " ++ toString n ++ " operands")
  let results :=
    problemIf (lower.results.isEmpty || upper.results.isEmpty)
      "affine.for bound without results"
  let steps :=
    problemIf (step ≤ 0)
      ("affine.for step " ++ toString step ++ " is not positive")
  let singleBlock ←
    match o.regions with
    | [region] => pure ((← g.region region).blocks.length == 1)
    | _ => pure false
  let body ←
    if !singleBlock then
      pure ["affine.for body must be a single block"]
    else
      let args := (← g.block (← g.bodyBlock h)).args
      let indexed ←
        match args with
        | [arg] => pure (decide ((← g.valueTy arg) = .index))
        | _ => pure false
      pure (problemUnless indexed "affine.for body needs one index argument")
  return operands ++ results ++ steps ++ body

/- Problems of a conditional. -/
def conditionalProblems
    (g : Graph)
    (o : Operation)
    (set : Affine.IntegerSet) : Except Fault (List String) := do
  let n := o.operands.length
  let operands :=
    problemIf ((← set.numInputs) ≠ n)
      ("affine.if set " ++ set.text ++ " does not fit " ++ toString n ++
        " operands")
  let shaped ←
    match o.regions with
    | [yes, no] =>
        if (← g.region yes).blocks.length = 1 then
          pure (decide ((← g.region no).blocks.length ≤ 1))
        else
          pure false
    | _ => pure false
  return operands ++
    problemUnless shaped "affine.if needs a then block and an optional else block"

/- Problems of an affine select. -/
def affineSelectProblems
    (g : Graph)
    (h : OpId)
    (o : Operation)
    (set : Affine.IntegerSet) : Except Fault (List String) := do
  let n := o.operands.length
  if (← set.numInputs) + 2 ≠ n then
    return ["affine.select set " ++ set.text ++ " does not fit its operands"]
  else
    let result ← g.valueTy (← g.result h)
    let yes ← g.valueTy (← entryAt o.operands (n - 2))
    let differ ←
      if yes ≠ result then pure true
      else do
        let no ← g.valueTy (← entryAt o.operands (n - 1))
        pure (decide (no ≠ result))
    return problemIf differ "affine.select operand types differ"

/- Whether the operands are a condition and two values of one type. -/
def selectFits (g : Graph) : List ValueId → Except Fault Bool
  | [cond, yes, no] => do
      if (← g.valueTy cond) ≠ .i1 then return false
      else return (← g.valueTy yes) = (← g.valueTy no)
  | _ => .ok false

/- Whether the operands are two values of one type. -/
def arithFits (g : Graph) : List ValueId → Except Fault Bool
  | [l, r] => do return (← g.valueTy l) = (← g.valueTy r)
  | _ => .ok false

def typeList (types : List Ty) : String :=
  "[" ++ ", ".intercalate (types.map Ty.text) ++ "]"

/- Problems that depend on the kind of an operation. -/
def kindProblems (f : Function) (h : OpId) : Except Fault (List String) := do
  let g := f.graph
  let o ← g.op h
  let n := o.operands.length
  match o.kind with
  | .apply map =>
      let inputs ← map.numInputs
      return problemIf (inputs ≠ n || map.results.length ≠ 1)
        ("affine.apply map " ++ map.text ++ " does not fit " ++
          toString n ++ " operands")
  | .affineLoad map =>
      let fits :=
        problemIf ((← map.numInputs) + 1 ≠ n)
          ("affine.load map " ++ map.text ++ " does not fit its operands")
      let ty ← g.valueTy (← g.result h)
      return fits ++ (← accessProblems g o (some ty) map.results.length)
  | .affineStore map =>
      let fits :=
        problemIf ((← map.numInputs) + 2 ≠ n)
          ("affine.store map " ++ map.text ++ " does not fit its operands")
      let ty ← o.stored?.mapM g.valueTy
      return fits ++ (← accessProblems g o ty map.results.length)
  | .load =>
      let ty ← g.valueTy (← g.result h)
      accessProblems g o (some ty) (n - 1)
  | .store =>
      let ty ← o.stored?.mapM g.valueTy
      accessProblems g o ty (n - 2)
  | .loop lower upper step => loopProblems g h o lower upper step
  | .conditional set => conditionalProblems g o set
  | .affineSelect set => affineSelectProblems g h o set
  | .select =>
      return problemUnless (← selectFits g o.operands)
        "arith.select needs an i1 condition and matching values"
  | .arith fn =>
      return problemUnless (← arithFits g o.operands)
        (fn.name ++ " operands type mismatch")
  | .ret =>
      let types ← o.operands.mapM g.valueTy
      return problemIf (types ≠ f.resultTypes)
        ("Result mismatch. Expected " ++ typeList f.resultTypes ++
          ", got " ++ typeList types)
  | _ => return []

------
-- Dominance
------

/- Problems of operands that are not defined before their use. -/
def dominanceProblems (g : Graph) (h : OpId) : Except Fault (List String) := do
  let o ← g.op h
  let lists ← o.operands.zipIdx.mapM fun (v, i) => do
    if !g.values.contains v then
      return []
    else
      let visible ← (g.valueDominates v h).runFresh .forward
      return problemUnless visible
        ("operand " ++ toString i ++ " of " ++ o.kind.name ++ " (" ++
          h.text ++ ") does not dominate its use")
  return lists.flatten

/- All problems of an operation in a sound structure. -/
def opProblems (f : Function) (h : OpId) : Except Fault (List String) := do
  let uses ← useProblems f.graph h
  let kinds ← kindProblems f h
  let dominance ← dominanceProblems f.graph h
  return uses ++ kinds ++ dominance

end Validation

/- The problems of a function, each with its name in front. -/
def Function.problems (f : Function) : Except Fault (List String) := do
  let structural ← Validation.regionProblems f.graph f.body
  let found ←
    if structural.isEmpty then do
      let ops ← f.graph.walkRegion .pre f.body
      pure (← ops.mapM (Validation.opProblems f)).flatten
    else
      pure structural
  return found.map fun p => "Function '" ++ f.name ++ "': " ++ p

/- The problems of all functions of a module. -/
def Module.problems (m : Module) : Except Fault (List String) := do
  return (← m.functions.mapM Function.problems).flatten

end AffineIR
