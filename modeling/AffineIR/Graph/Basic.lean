import AffineIR.Arena
import AffineIR.Op.Kind

/-
  The IR graph: operations, blocks, regions and values that
  refer to each other by handles.

  Blocks list their operations, regions their blocks, and
  operations their regions; each of the three also names the
  entity that holds it.  A value lists the operand positions
  that use it.

  Key definitions include:
    * `Graph.terminator?`, `Graph.blockSuccessors`
-/

namespace AffineIR

------
-- Entities
------

/- An operand position of an operation. -/
structure Use where
  op : OpId
  operand : Nat
deriving DecidableEq, Inhabited, Repr

/- Where a value comes from. -/
inductive Definer where
  | result (op : OpId) (index : Nat)
  | argument (block : BlockId) (index : Nat)
deriving DecidableEq, Inhabited, Repr

structure Value where
  ty : Ty
  definer : Definer
  uses : List Use := []
deriving DecidableEq, Inhabited, Repr

structure Operation where
  kind : Kind
  operands : List ValueId := []
  results : List ValueId := []
  regions : List RegionId := []
  successors : List BlockId := []
  /- The block that holds the operation, if it is placed. -/
  parent : Option BlockId := none
deriving DecidableEq, Inhabited, Repr

structure Block where
  args : List ValueId := []
  ops : List OpId := []
  parent : RegionId
deriving DecidableEq, Inhabited, Repr

structure Region where
  blocks : List BlockId := []
  /- The operation that holds the region; none for a body. -/
  parent : Option OpId := none
deriving DecidableEq, Inhabited, Repr

structure Graph where
  ops : Arena "op" Operation := {}
  blocks : Arena "bb" Block := {}
  regions : Arena "region" Region := {}
  values : Arena "v" Value := {}
deriving Inhabited

namespace Graph

variable (g : Graph)

------
-- Reading entities
------

def op (h : OpId) : Except Fault Operation :=
  g.ops.get h

def kind (h : OpId) : Except Fault Kind :=
  return (← g.op h).kind

def block (h : BlockId) : Except Fault Block :=
  g.blocks.get h

def region (h : RegionId) : Except Fault Region :=
  g.regions.get h

def value (h : ValueId) : Except Fault Value :=
  g.values.get h

def valueTy (h : ValueId) : Except Fault Ty :=
  return (← g.value h).ty

/- A bound on the depth of nesting and of chains of definitions. -/
def depthBound : Nat :=
  g.ops.slots.size + 1

------
-- Uses
------

/- The entries of a list without repeats, first ones first. -/
def distinct {α : Type} [DecidableEq α] (xs : List α) : List α :=
  xs.foldl (fun acc x => if x ∈ acc then acc else acc ++ [x]) []

/- The operations that use a value, in the order of its uses. -/
def users (h : ValueId) : Except Fault (List OpId) :=
  return distinct ((← g.value h).uses.map Use.op)

def hasUses (h : ValueId) : Except Fault Bool :=
  return !(← g.value h).uses.isEmpty

/- The operation whose result a value is. -/
def definingOp? (h : ValueId) : Except Fault (Option OpId) :=
  return match (← g.value h).definer with
    | .result op _ => some op
    | .argument _ _ => none

------
-- Places
------

/- The block that holds an operation. -/
def parentBlock (h : OpId) : Except Fault BlockId := do
  match (← g.op h).parent with
  | some block => return block
  | none => throw (.notPlaced h)

def parentRegion (h : OpId) : Except Fault RegionId :=
  return (← g.block (← g.parentBlock h)).parent

/- The operation whose region holds an operation. -/
def parentOp? (h : OpId) : Except Fault (Option OpId) :=
  return (← g.region (← g.parentRegion h)).parent

def blockParentOp? (h : BlockId) : Except Fault (Option OpId) :=
  return (← g.region (← g.block h).parent).parent

/- The position of an operation in its block. -/
def position (h : OpId) : Except Fault Nat := do
  let block ← g.parentBlock h
  match (← g.block block).ops.idxOf? h with
  | some i => return i
  | none => throw (.missingFromBlock h)

/- Whether an operation comes before another one of its block. -/
def isBefore (a b : OpId) : Except Fault Bool := do
  let blockA ← g.parentBlock a
  let blockB ← g.parentBlock b
  if blockA = blockB then
    return (← g.position a) < (← g.position b)
  else
    throw .differentBlocks

------
-- Control flow
------

/- The last operation of a block, if it is a terminator. -/
def terminator? (h : BlockId) : Except Fault (Option OpId) := do
  match (← g.block h).ops.getLast? with
  | none => return none
  | some last =>
      return if (← g.kind last).isTerminator then some last else none

def blockSuccessors (h : BlockId) : Except Fault (List BlockId) := do
  match ← g.terminator? h with
  | some last => return (← g.op last).successors
  | none => return []

def entryBlock? (h : RegionId) : Except Fault (Option BlockId) :=
  return (← g.region h).blocks.head?

end Graph

end AffineIR
