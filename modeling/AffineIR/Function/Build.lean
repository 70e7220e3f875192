import AffineIR.Function.Basic
import AffineIR.Graph.Parts

/-
  Creation of placed operations.

  The functions of `Build` create an operation of one kind
  with operands in the right order and results of the right
  types, and place it at an insertion point.

  Key definitions include:
    * `Function.build`
-/

namespace AffineIR

/- Where new operations go. -/
inductive InsertPoint where
  | atEnd (block : BlockId)
  | before (op : OpId)
deriving DecidableEq, Inhabited, Repr

/- A place in a function that new operations are meant for. -/
inductive Cursor where
  | atEnd (block : BlockId)
  | before (op : OpId)
  /- In front of the terminator, if the block has one. -/
  | inBody (block : BlockId)
deriving DecidableEq, Inhabited, Repr

/- The insertion point that a cursor stands for at present. -/
def Cursor.resolve (g : Graph) : Cursor → Except Fault InsertPoint
  | .atEnd block => .ok (.atEnd block)
  | .before op => .ok (.before op)
  | .inBody block => do
      match ← g.terminator? block with
      | some last => return .before last
      | none => return .atEnd block

namespace Build

------
-- Placement
------

/- Place an operation at an insertion point. -/
def insert (p : InsertPoint) (op : OpId) : Edit Unit :=
  match p with
  | .atEnd block => Edit.append block op
  | .before anchor => Edit.insertBefore anchor op

/- Create and place an operation without regions. -/
def create
    (p : InsertPoint)
    (kind : Kind)
    (operands : List ValueId)
    (results : List Ty) : Edit OpId := do
  let op ← Edit.createOp kind operands results []
  insert p op
  return op

/- Create and place an operation with one result. -/
def createValue
    (p : InsertPoint)
    (kind : Kind)
    (operands : List ValueId)
    (ty : Ty) : Edit ValueId := do
  let op ← create p kind operands [ty]
  Edit.ask (·.result op)

/- Create and place a terminator with successors. -/
def createBranch
    (p : InsertPoint)
    (kind : Kind)
    (operands : List ValueId)
    (successors : List BlockId) : Edit OpId := do
  let op ← Edit.createOp kind operands [] successors
  insert p op
  return op

/- Add a region with one empty block to an operation. -/
def addRegion (op : OpId) : Edit BlockId := do
  let region ← Edit.createRegion (some op)
  Edit.createBlock region []

/- Add a region with one block that ends in a yield. -/
def addYieldRegion (op : OpId) (args : List Ty) : Edit BlockId := do
  let region ← Edit.createRegion (some op)
  let block ← Edit.createBlock region args
  let last ← Edit.createOp .yield [] [] []
  Edit.append block last
  return block

------
-- Scalars
------

def constant (p : InsertPoint) (value : Literal) : Edit ValueId :=
  createValue p (.constant value) [] value.ty

/- The result has the type of the left operand. -/
def arith (p : InsertPoint) (fn : Arith) (l r : ValueId) : Edit ValueId := do
  let ty ← Edit.ask (·.valueTy l)
  createValue p (.arith fn) [l, r] ty

def compare
    (p : InsertPoint)
    (predicate : Comparison)
    (l r : ValueId) : Edit ValueId :=
  createValue p (.compare predicate) [l, r] .i1

def select (p : InsertPoint) (cond yes no : ValueId) : Edit ValueId := do
  let ty ← Edit.ask (·.valueTy yes)
  createValue p .select [cond, yes, no] ty

def apply
    (p : InsertPoint)
    (map : Affine.Map)
    (operands : List ValueId) : Edit ValueId :=
  createValue p (.apply map) operands .index

def affineSelect
    (p : InsertPoint)
    (set : Affine.IntegerSet)
    (operands : List ValueId)
    (yes no : ValueId) : Edit ValueId := do
  let ty ← Edit.ask (·.valueTy yes)
  createValue p (.affineSelect set) (operands ++ [yes, no]) ty

------
-- Memory
------

/- The type of what a load from a buffer gives. -/
def elementTy (memref : ValueId) : Edit Ty := do
  return (← Edit.ask (·.valueTy memref)).element?.getD .none

def affineLoad
    (p : InsertPoint)
    (memref : ValueId)
    (map : Affine.Map)
    (indices : List ValueId) : Edit OpId := do
  let ty ← elementTy memref
  create p (.affineLoad map) (memref :: indices) [ty]

def affineStore
    (p : InsertPoint)
    (value memref : ValueId)
    (map : Affine.Map)
    (indices : List ValueId) : Edit OpId :=
  create p (.affineStore map) (value :: memref :: indices) []

def load
    (p : InsertPoint)
    (memref : ValueId)
    (indices : List ValueId) : Edit ValueId := do
  let ty ← elementTy memref
  createValue p .load (memref :: indices) ty

def store
    (p : InsertPoint)
    (value memref : ValueId)
    (indices : List ValueId) : Edit OpId :=
  create p .store (value :: memref :: indices) []

def alloc (p : InsertPoint) (ty : Ty) : Edit ValueId :=
  createValue p .alloc [] ty

def dealloc (p : InsertPoint) (memref : ValueId) : Edit OpId :=
  create p .dealloc [memref] []

------
-- Control
------

/- A new loop with its variable and its body. -/
structure NewLoop where
  op : OpId
  var : ValueId
  body : BlockId

def loop
    (p : InsertPoint)
    (lower : Affine.Map)
    (lowerOperands : List ValueId)
    (upper : Affine.Map)
    (upperOperands : List ValueId)
    (step : Int) : Edit NewLoop := do
  let op ←
    create p (.loop lower upper step) (lowerOperands ++ upperOperands) []
  let body ← addYieldRegion op [.index]
  let var ← Edit.ask fun g => do entryAt (← g.block body).args 0
  return ⟨op, var, body⟩

/- A loop between two numbers. -/
def loopBetween
    (p : InsertPoint)
    (lower upper step : Int) : Edit NewLoop :=
  loop p (.ofConstant lower) [] (.ofConstant upper) [] step

/- A new conditional with the blocks of its branches. -/
structure NewConditional where
  op : OpId
  thenBlock : BlockId
  elseBlock : Option BlockId

def conditional
    (p : InsertPoint)
    (set : Affine.IntegerSet)
    (operands : List ValueId)
    (withElse : Bool) : Edit NewConditional := do
  let op ← create p (.conditional set) operands []
  let thenBlock ← addYieldRegion op []
  if withElse then
    return ⟨op, thenBlock, some (← addYieldRegion op [])⟩
  else
    let _ ← Edit.createRegion (some op)
    return ⟨op, thenBlock, none⟩

def branch (p : InsertPoint) (target : BlockId) : Edit OpId :=
  createBranch p .branch [] [target]

def condBranch
    (p : InsertPoint)
    (cond : ValueId)
    (yes no : BlockId) : Edit OpId :=
  createBranch p .condBranch [cond] [yes, no]

end Build

/-
  Build something at a cursor.  The function has to have an
  entry block.
-/
def Function.build
    {α : Type}
    (f : Function)
    (cursor : Cursor)
    (e : InsertPoint → Edit α) : Except Fault (α × Function) := do
  let _ ← f.entryBlock
  let p ← cursor.resolve f.graph
  f.edit (e p)

end AffineIR
