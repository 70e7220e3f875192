import AffineIR.Flow.Dominators
import AffineIR.Graph.Ancestry

/-
  Dominance between blocks and between operations.

  Every region has the dominator tree of its blocks, forward
  or backward.  Operations of the same block are compared by
  their positions.  An operation is compared with one nested
  elsewhere through the ancestor of the latter in the region
  of the former.

  Trees are built when they are first needed and kept, so
  answers may refer to a region as it was at that time.

  Key definitions include:
    * `Graph.valueDominates`
-/

namespace AffineIR

------
-- Trees of regions
------

/- Add the edges that leave one of the blocks. -/
def FlowGraph.addBlockEdges
    (g : Graph)
    (blocks : List BlockId)
    (acc : FlowGraph)
    (block : BlockId) : Except Fault FlowGraph := do
  let targets :=
    (← g.blockSuccessors block).filterMap fun s => blocks.idxOf? s
  return targets.foldl (fun acc t => acc.addEdge (blocks.idxOf block) t) acc

/-
  The flow graph of a region with its blocks in order; the
  first block is the entry.
-/
def FlowGraph.ofRegion
    (g : Graph)
    (region : RegionId) : Except Fault (FlowGraph × List BlockId) := do
  let blocks := (← g.region region).blocks
  let graph ←
    blocks.foldlM (addBlockEdges g blocks) (ofSize blocks.length 0)
  return (graph, blocks)

/- Along which paths dominance is meant. -/
inductive Direction where
  /- Paths from the entry. -/
  | forward
  /- Paths to an exit. -/
  | backward
deriving DecidableEq, Inhabited, Repr

/- The dominators of the blocks of a region. -/
structure RegionTree where
  blocks : List BlockId
  tree : DominatorTree
deriving Inhabited

namespace RegionTree

def ofRegion
    (d : Direction)
    (g : Graph)
    (region : RegionId) : Except Fault RegionTree := do
  let (graph, blocks) ← FlowGraph.ofRegion g region
  let tree ←
    match d with
    | .forward => DominatorTree.ofGraph graph
    | .backward => DominatorTree.ofGraph graph.reversed
  return ⟨blocks, tree⟩

/- Whether a block properly dominates another one. -/
def properlyDominates (t : RegionTree) (a b : BlockId) : Bool :=
  match t.blocks.idxOf? a, t.blocks.idxOf? b with
  | some x, some y => t.tree.properlyDominates x y
  | _, _ => false

end RegionTree

------
-- Kept trees
------

structure DominanceCache where
  direction : Direction := .forward
  trees : List (RegionId × RegionTree) := []
deriving Inhabited

namespace DominanceCache

/- A cache without trees. -/
def fresh (d : Direction) : DominanceCache :=
  { direction := d }

/- Forget all trees. -/
def invalidate (c : DominanceCache) : DominanceCache :=
  fresh c.direction

end DominanceCache

/- A question that may build and keep trees. -/
abbrev DominanceQuery :=
  StateT DominanceCache (Except Fault)

namespace DominanceQuery

/- Ask a question without kept trees. -/
def runFresh
    {α : Type}
    (q : DominanceQuery α)
    (d : Direction) : Except Fault α :=
  q.run' (.fresh d)

/- The tree of a region, kept or new. -/
def treeOf (g : Graph) (region : RegionId) : DominanceQuery RegionTree := do
  let c ← get
  match c.trees.lookup region with
  | some t => return t
  | none =>
      let t ← RegionTree.ofRegion c.direction g region
      set { c with trees := (region, t) :: c.trees }
      return t

end DominanceQuery

------
-- Questions
------

namespace Graph

variable (g : Graph)

/- Whether a block properly dominates another one of its region. -/
def blockProperlyDominates (a b : BlockId) : DominanceQuery Bool := do
  if a = b then
    return false
  let region := (← g.block a).parent
  if (← g.block b).parent ≠ region then
    return false
  return (← DominanceQuery.treeOf g region).properlyDominates a b

/-
  Whether an operation properly dominates another one.  What
  holds of the operations inside the first one is up to the
  caller.
-/
def properlyDominatesOr
    (enclosing : Bool)
    (a b : OpId) : DominanceQuery Bool := do
  if a = b then
    return false
  match ← g.ancestorInRegion? (← g.parentRegion a) b with
  | none => return false
  | some lifted =>
      if lifted = a then
        return enclosing
      let blockA ← g.parentBlock a
      let blockB ← g.parentBlock lifted
      if blockA = blockB then
        match (← get).direction with
        | .forward => g.isBefore a lifted
        | .backward => g.isBefore lifted a
      else
        g.blockProperlyDominates blockA blockB

/- Proper dominance; operations dominate what is inside them. -/
def properlyDominates (a b : OpId) : DominanceQuery Bool :=
  g.properlyDominatesOr true a b

def dominates (a b : OpId) : DominanceQuery Bool := do
  if a = b then return true else g.properlyDominates a b

/- Whether a value may be used by an operation. -/
def valueDominates (v : ValueId) (user : OpId) : DominanceQuery Bool := do
  match (← g.value v).definer with
  | .result op _ => g.properlyDominatesOr false op user
  | .argument block _ =>
      match ← g.ancestorInRegion? (← g.block block).parent user with
      | none => return false
      | some lifted =>
          let holder ← g.parentBlock lifted
          if holder = block then return true
          else g.blockProperlyDominates block holder

end Graph

end AffineIR
