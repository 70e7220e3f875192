import AffineIR.Graph.Basic

/-
  Changes of the IR graph.

  Every change is a step of the `Edit` monad: it either gives
  a new graph in which all references are up to date on both
  sides, or fails.

  Key definitions include:
    * `Edit.setOperand`, `Edit.replaceUses`
-/

namespace AffineIR

abbrev Edit :=
  StateT Graph (Except Fault)

namespace Edit

------
-- Entities
------

/- Ask a question about the present graph. -/
def ask {α : Type} (question : Graph → Except Fault α) : Edit α := do
  let g ← get
  question g

def modifyOp (h : OpId) (f : Operation → Operation) : Edit Unit := do
  let g ← get
  set { g with ops := ← g.ops.modify h f }

def modifyBlock (h : BlockId) (f : Block → Block) : Edit Unit := do
  let g ← get
  set { g with blocks := ← g.blocks.modify h f }

def modifyRegion (h : RegionId) (f : Region → Region) : Edit Unit := do
  let g ← get
  set { g with regions := ← g.regions.modify h f }

def modifyValue (h : ValueId) (f : Value → Value) : Edit Unit := do
  let g ← get
  set { g with values := ← g.values.modify h f }

def newOp (o : Operation) : Edit OpId :=
  modifyGet fun g => (g.ops.next, { g with ops := g.ops.push o })

def newBlock (b : Block) : Edit BlockId :=
  modifyGet fun g =>
    (g.blocks.next, { g with blocks := g.blocks.push b })

def newRegion (r : Region) : Edit RegionId :=
  modifyGet fun g =>
    (g.regions.next, { g with regions := g.regions.push r })

def newValue (v : Value) : Edit ValueId :=
  modifyGet fun g =>
    (g.values.next, { g with values := g.values.push v })

------
-- Construction
------

/- Create a region at the end of an operation, or a body. -/
def createRegion (parent : Option OpId) : Edit RegionId := do
  let region ← newRegion { parent := parent }
  match parent with
  | some op =>
      modifyOp op fun o => { o with regions := o.regions ++ [region] }
  | none => pure ()
  return region

/- Create a block with the given arguments at the end of a region. -/
def createBlock (region : RegionId) (args : List Ty) : Edit BlockId := do
  let block ← newBlock { parent := region }
  args.zipIdx.forM fun (ty, index) => do
    let arg ← newValue { ty := ty, definer := .argument block index }
    modifyBlock block fun b => { b with args := b.args ++ [arg] }
  modifyRegion region fun r => { r with blocks := r.blocks ++ [block] }
  return block

/- Create an operation that is not placed yet. -/
def createOp
    (kind : Kind)
    (operands : List ValueId)
    (results : List Ty)
    (successors : List BlockId) : Edit OpId := do
  let op ← newOp { kind := kind, successors := successors }
  results.zipIdx.forM fun (ty, index) => do
    let result ← newValue { ty := ty, definer := .result op index }
    modifyOp op fun o => { o with results := o.results ++ [result] }
  operands.zipIdx.forM fun (value, operand) => do
    modifyValue value fun v => { v with uses := v.uses ++ [⟨op, operand⟩] }
    modifyOp op fun o => { o with operands := o.operands ++ [value] }
  return op

------
-- Placement
------

/- Fail if an operation already has a place. -/
def requireDetached (op : OpId) : Edit Unit := do
  if (← ask (·.op op)).parent.isSome then
    throw (.alreadyPlaced op)

/- Put an operation into a block, at the place that `f` chooses. -/
def place
    (block : BlockId)
    (op : OpId)
    (f : List OpId → List OpId) : Edit Unit := do
  modifyBlock block fun b => { b with ops := f b.ops }
  modifyOp op fun o => { o with parent := some block }

/- Place an operation at the end of a block. -/
def append (block : BlockId) (op : OpId) : Edit Unit := do
  requireDetached op
  place block op (· ++ [op])

/- Place an operation at the start of a block. -/
def prepend (block : BlockId) (op : OpId) : Edit Unit := do
  requireDetached op
  place block op (op :: ·)

/- Place an operation in front of another one. -/
def insertBefore (anchor op : OpId) : Edit Unit := do
  requireDetached op
  let block ← ask (·.parentBlock anchor)
  let pos ← ask (·.position anchor)
  place block op fun ops => ops.insertIdx pos op

/- Place an operation behind another one. -/
def insertAfter (anchor op : OpId) : Edit Unit := do
  requireDetached op
  let block ← ask (·.parentBlock anchor)
  let pos ← ask (·.position anchor)
  place block op fun ops => ops.insertIdx (pos + 1) op

/- Take an operation out of its block. -/
def detach (op : OpId) : Edit Unit := do
  match (← ask (·.op op)).parent with
  | none => pure ()
  | some block =>
      modifyOp op fun o => { o with parent := none }
      modifyBlock block fun b => { b with ops := b.ops.filter (· ≠ op) }

def moveBefore (op anchor : OpId) : Edit Unit := do
  detach op
  insertBefore anchor op

def moveAfter (op anchor : OpId) : Edit Unit := do
  detach op
  insertAfter anchor op

def moveToEnd (op : OpId) (block : BlockId) : Edit Unit := do
  detach op
  append block op

------
-- Operands
------

/- Change the kind of an operation and nothing else. -/
def setKind (op : OpId) (kind : Kind) : Edit Unit :=
  modifyOp op fun o => { o with kind := kind }

/- Make an operand position refer to another value. -/
def setOperand (op : OpId) (index : Nat) (value : ValueId) : Edit Unit := do
  let old ← ask fun g => do entryAt (← g.op op).operands index
  let use : Use := ⟨op, index⟩
  modifyValue old fun v => { v with uses := v.uses.filter (· ≠ use) }
  modifyValue value fun v => { v with uses := v.uses ++ [use] }
  modifyOp op fun o => { o with operands := o.operands.set index value }

/- Make every use of a value refer to another one. -/
def replaceUses (source target : ValueId) : Edit Unit := do
  if source ≠ target then
    let uses := (← ask (·.value source)).uses
    modifyValue source fun v => { v with uses := [] }
    uses.forM fun u => do
      let _ ← ask fun g => do entryAt (← g.op u.op).operands u.operand
      modifyOp u.op fun o =>
        { o with operands := o.operands.set u.operand target }
    modifyValue target fun v => { v with uses := v.uses ++ uses }

end Edit

end AffineIR
