import AffineIR.Graph.Edit
import AffineIR.Graph.Nesting

/-
  Erasure of an operation with everything nested in it.

  The uses that the doomed operations hold are dropped first;
  then the operation leaves its block, and the storage of all
  of them is emptied.

  Key definitions include:
    * `Edit.erase`
-/

namespace AffineIR

namespace Edit

/- Forget the operands of an operation and the uses they are. -/
def dropUses (op : OpId) : Edit Unit := do
  let operands := (← ask (·.op op)).operands
  modifyOp op fun o => { o with operands := [] }
  operands.zipIdx.forM fun (value, operand) =>
    modify fun g =>
      match g.values.get? value with
      | some v =>
          let uses := v.uses.filter (· ≠ ⟨op, operand⟩)
          { g with values := g.values.set value { v with uses := uses } }
      | none => g

/- Empty the slots of a block and of its arguments. -/
def removeBlock (h : BlockId) : Edit Unit :=
  modify fun g =>
    match g.blocks.get? h with
    | some b =>
        { g with
          blocks := g.blocks.remove h
          values := b.args.foldl Arena.remove g.values }
    | none => g

/- Empty the slots of a region and of its blocks. -/
def removeRegion (h : RegionId) : Edit Unit := do
  match (← get).regions.get? h with
  | some r =>
      modify fun g => { g with regions := g.regions.remove h }
      r.blocks.forM removeBlock
  | none => pure ()

/- Empty the slots of an operation and of all that it owns. -/
def removeStorage (h : OpId) : Edit Unit := do
  match (← get).ops.get? h with
  | some o =>
      modify fun g =>
        { g with
          ops := g.ops.remove h
          values := o.results.foldl Arena.remove g.values }
      o.regions.forM removeRegion
  | none => pure ()

/- Fail if a result of an operation is still used. -/
def requireUnused (op : OpId) : Edit Unit := do
  (← ask (·.op op)).results.forM fun result => do
    if ← ask (·.hasUses result) then
      throw (.resultInUse op result)

/- Erase an operation and everything nested in it. -/
def erase (op : OpId) : Edit Unit := do
  requireUnused op
  let doomed ← ask (·.walkOp .post op)
  doomed.forM dropUses
  detach op
  doomed.forM removeStorage

end Edit

end AffineIR
