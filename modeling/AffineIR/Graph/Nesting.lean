import AffineIR.Graph.Basic

/-
  Walks down the nesting of operations.

  The operations inside an operation are those of the blocks
  of its regions, in order.  Walks visit an operation before
  or after what is nested in it.

  Key definitions include:
    * `Graph.collectOps`
-/

namespace AffineIR

inductive WalkOrder where
  /- An operation before the operations nested in it. -/
  | pre
  /- Nested operations before the operation that holds them. -/
  | post
deriving DecidableEq, Inhabited, Repr

namespace Graph

variable (g : Graph)

/- The operations directly in a region. -/
def regionOps (h : RegionId) : Except Fault (List OpId) := do
  let blocks ← (← g.region h).blocks.mapM g.block
  return blocks.flatMap (·.ops)

/- The operations directly in the regions of an operation. -/
def children (h : OpId) : Except Fault (List OpId) := do
  let lists ← (← g.op h).regions.mapM g.regionOps
  return lists.flatten

/- An operation and what is nested in it, down to a depth. -/
def walkFrom (order : WalkOrder) : Nat → OpId → Except Fault (List OpId)
  | 0, _ => .error .endless
  | depth + 1, h => do
      let inner ← (← g.children h).mapM (walkFrom order depth)
      return match order with
        | .pre => h :: inner.flatten
        | .post => inner.flatten ++ [h]

/- An operation and everything nested in it. -/
def walkOp (order : WalkOrder) (h : OpId) : Except Fault (List OpId) :=
  g.walkFrom order g.depthBound h

/- Everything nested in a region. -/
def walkRegion
    (order : WalkOrder)
    (h : RegionId) : Except Fault (List OpId) := do
  let lists ← (← g.regionOps h).mapM (g.walkOp order)
  return lists.flatten

/- The operations nested in a region whose kind passes a test. -/
def collectOps
    (h : RegionId)
    (test : Kind → Bool) : Except Fault (List OpId) := do
  (← g.walkRegion .pre h).filterM fun op => return test (← g.kind op)

end Graph

end AffineIR
