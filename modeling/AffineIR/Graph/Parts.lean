import AffineIR.Graph.Basic
import AffineIR.Op.Describe

/-
  The parts of structured operations: which operand is the
  buffer, which block is the body, and so on.

  Key definitions include:
    * `Graph.soleGuard?`
-/

namespace AffineIR

namespace Operation

variable (o : Operation)

/- The buffer that a load, store or deallocation works on. -/
def memref? : Option ValueId :=
  match o.kind with
  | .affineLoad _ | .load | .dealloc => o.operands[0]?
  | .affineStore _ | .store => o.operands[1]?
  | _ => none

/- The map operands of an affine access, or the indices of a plain one. -/
def accessIndices : Except Fault (List ValueId) :=
  match o.kind with
  | .affineLoad _ | .load => entriesFrom o.operands 1
  | .affineStore _ | .store => entriesFrom o.operands 2
  | _ => .ok []

/- The value that a store writes. -/
def stored? : Option ValueId :=
  match o.kind with
  | .affineStore _ | .store => o.operands[0]?
  | _ => none

/- The operands of the lower bound of a loop. -/
def lowerOperands : Except Fault (List ValueId) :=
  match o.kind with
  | .loop lower _ _ => do entriesUpTo o.operands (← lower.numInputs)
  | _ => .ok []

/- The operands of the upper bound of a loop. -/
def upperOperands : Except Fault (List ValueId) :=
  match o.kind with
  | .loop lower _ _ => do entriesFrom o.operands (← lower.numInputs)
  | _ => .ok []

end Operation

/- What an affine store writes, and where. -/
structure StoreParts where
  value : ValueId
  memref : ValueId
  map : Affine.Map
  indices : List ValueId

namespace Graph

variable (g : Graph)

/- The first result of an operation. -/
def result (h : OpId) : Except Fault ValueId := do
  entryAt (← g.op h).results 0

def storeParts (h : OpId) : Except Fault StoreParts := do
  let o ← g.op h
  match o.kind with
  | .affineStore map =>
      return {
        value := ← entryAt o.operands 0
        memref := ← entryAt o.operands 1
        map := map
        indices := ← entriesFrom o.operands 2 }
  | other => throw (.notStore h other.describe)

/- The first block of the first region of an operation. -/
def bodyBlock (h : OpId) : Except Fault BlockId := do
  let region ← entryAt (← g.op h).regions 0
  entryAt (← g.region region).blocks 0

/- The variable that a loop counts with. -/
def inductionVar (h : OpId) : Except Fault ValueId := do
  entryAt (← g.block (← g.bodyBlock h)).args 0

/- The block that a conditional runs inside its set. -/
def thenBlock (h : OpId) : Except Fault BlockId :=
  g.bodyBlock h

/- The block that a conditional runs outside its set. -/
def elseBlock? (h : OpId) : Except Fault (Option BlockId) := do
  match (← g.op h).regions[1]? with
  | none => return none
  | some region => g.entryBlock? region

/- The set of a conditional and the operands it is applied to. -/
def condition (h : OpId) :
    Except Fault (Affine.IntegerSet × List ValueId) := do
  let o ← g.op h
  match o.kind with
  | .conditional set => return (set, o.operands)
  | other => throw (.notConditional h other.describe)

/- The yield that ends a block. -/
def yieldOf (h : BlockId) : Except Fault OpId := do
  match (← g.block h).ops.getLast? with
  | none => throw .overflow
  | some last =>
      if (← g.kind last) = .yield then return last
      else throw .missingYield

/-
  The conditional without else branch that holds an operation
  as its only statement.
-/
def soleGuard? (h : OpId) : Except Fault (Option OpId) := do
  match ← g.parentOp? h with
  | none => return none
  | some parent =>
      if !(← g.kind parent).isConditional then
        return none
      else if (← g.elseBlock? parent).isSome then
        return none
      else
        let block ← g.thenBlock parent
        if (← g.parentBlock h) ≠ block then
          return none
        else if (← g.block block).ops.length ≠ 2 then
          return none
        else
          return some parent

end Graph

end AffineIR
