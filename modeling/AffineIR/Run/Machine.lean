import AffineIR.Run.Trap
import AffineIR.Table

/-
  The machine that runs programs: buffers, the values bound so
  far, and counters.

  What a run changes stays in the machine when the run fails,
  so that later runs see it.

  Key definitions include:
    * `Exec.readElement`, `Exec.writeElement`
-/

namespace AffineIR

/- What a value is bound to: a scalar or a buffer. -/
inductive Datum where
  | scalar (value : Literal)
  | buffer (id : Nat)
deriving DecidableEq, Inhabited, Repr

structure Buffer where
  shape : Shape
  data : Array Literal
  freed : Bool := false
deriving Inhabited, Repr

structure Machine where
  buffers : Array Buffer := #[]
  env : Table "v" Datum := {}
  /- How often each operation was executed. -/
  counts : Table "op" Nat := {}
  steps : Nat := 0
  /- How many operations may be executed. -/
  limit : Nat := 1000000
deriving Inhabited

namespace Machine

/- How often an operation was executed. -/
def count (m : Machine) (op : OpId) : Nat :=
  (m.counts.get? op).getD 0

end Machine

abbrev Exec :=
  ExceptT Failure (StateM Machine)

namespace Exec

def trap {α : Type} (t : Trap) : Exec α :=
  throw (.trap t)

def mismatch {α : Type} (cause : Mismatch) : Exec α :=
  trap (.typeMismatch cause)

/- Faults of a question end the run. -/
def ask {α : Type} (answer : Except Fault α) : Exec α :=
  match answer with
  | .ok a => pure a
  | .error f => throw (.fault f)

------
-- Values
------

def assign (v : ValueId) (d : Datum) : Exec Unit :=
  modify fun m => { m with env := m.env.insert v d }

/- What a value is bound to. -/
def lookup (v : ValueId) : Exec Datum := do
  match (← get).env.get? v with
  | some d => return d
  | none => mismatch (.unbound v)

def scalar (v : ValueId) : Exec Literal := do
  match ← lookup v with
  | .scalar l => return l
  | .buffer _ => mismatch (.isBuffer v)

def int (v : ValueId) : Exec Int := do
  match (← scalar v).toInt? with
  | some n => return n
  | none => mismatch (.notInteger v)

def ints (vs : List ValueId) : Exec (List Int) :=
  vs.mapM int

/- Count an operation as executed, within the limit. -/
def tick (op : OpId) : Exec Unit := do
  modify fun m => { m with steps := m.steps + 1 }
  let m ← get
  if m.limit < m.steps then
    trap (.stepLimit m.limit)
  modify fun m => { m with counts := m.counts.insert op (m.count op + 1) }

------
-- Buffers
------

/- The contents of a new buffer: the given values or zeros. -/
def initialData
    (shape : Shape)
    (element : Ty)
    (init : Option (List Literal)) : Exec (Array Literal) := do
  match Literal.zero? element with
  | none => mismatch (.elementType element)
  | some zero =>
      let n ← ask shape.numElements
      match init with
      | none => return Array.replicate n zero
      | some values =>
          if values.length = n then return values.toArray
          else mismatch (.initialValues values.length (.memref shape element))

/- Create a buffer. -/
def allocBuffer (ty : Ty) (init : Option (List Literal)) : Exec Datum := do
  match ty with
  | .memref shape element =>
      let data ← initialData shape element init
      modifyGet fun m =>
        (.buffer m.buffers.size,
          { m with buffers := m.buffers.push { shape := shape, data := data } })
  | _ => mismatch (.notMemref ty)

/- The buffer that a value is bound to; it may not be freed. -/
def liveBuffer (v : ValueId) : Exec (Nat × Buffer) := do
  match ← lookup v with
  | .scalar _ => mismatch (.notBuffer v)
  | .buffer id =>
      match (← get).buffers[id]? with
      | some b => if b.freed then trap (.freedBuffer id) else return (id, b)
      | none => trap (.freedBuffer id)

/- The place of an element in its buffer. -/
def slot (memref : ValueId) (indices : List Int) : Exec (Nat × Nat) := do
  let (id, b) ← liveBuffer memref
  match ← ask (b.shape.offset? indices) with
  | some offset => return (id, offset)
  | none => trap (.outOfBounds id indices)

/- The element at a place. -/
def readElement (memref : ValueId) (indices : List Int) : Exec Literal := do
  let (id, offset) ← slot memref indices
  match (← get).buffers[id]?.bind fun b => b.data[offset]? with
  | some value => return value
  | none => throw (.overrun id offset)

/- Overwrite the element at a place. -/
def writeElement
    (memref : ValueId)
    (indices : List Int)
    (value : Literal) : Exec Unit := do
  let (id, offset) ← slot memref indices
  if ((← get).buffers[id]?.bind fun b => b.data[offset]?).isSome then
    modify fun m =>
      { m with
        buffers := m.buffers.modify id fun b =>
          { b with data := b.data.setIfInBounds offset value } }
  else
    throw (.overrun id offset)

/- Mark a buffer as freed; its contents stay. -/
def freeBuffer (memref : ValueId) : Exec Unit := do
  let (id, _) ← liveBuffer memref
  modify fun m =>
    { m with
      buffers := m.buffers.modify id fun b => { b with freed := true } }

end Exec

end AffineIR
