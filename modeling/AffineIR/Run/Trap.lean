import AffineIR.Op.Kind

/-
  Traps: the ways in which running a program ends early.

  Key definitions include:
    * `Trap.message`
-/

namespace AffineIR

/- A value that is not of the type that is asked for. -/
inductive Mismatch where
  | unbound (v : ValueId)
  | isBuffer (v : ValueId)
  | notInteger (v : ValueId)
  | notBuffer (v : ValueId)
  | notMemref (ty : Ty)
  | elementType (ty : Ty)
  | initialValues (count : Nat) (ty : Ty)
  | arith (fn : Arith)
  | compare (predicate : Comparison)
deriving DecidableEq, Repr

namespace Mismatch

def text : Mismatch → String
  | unbound v => "unbound value " ++ v.text
  | isBuffer v => v.text ++ " is a buffer"
  | notInteger v => v.text ++ " is not an integer"
  | notBuffer v => v.text ++ " is not a buffer"
  | notMemref ty => ty.text ++ " is not a memref"
  | elementType ty => "element type " ++ ty.text
  | initialValues count ty =>
      toString count ++ " initial values for " ++ ty.text
  | arith fn => fn.name
  | compare predicate => "cmp " ++ predicate.name

end Mismatch

inductive Trap where
  | outOfBounds (buffer : Nat) (indices : List Int)
  | unsupportedOp (name : String)
  | typeMismatch (cause : Mismatch)
  | freedBuffer (buffer : Nat)
  | argumentCount (expected found : Nat)
  | invalidAffine (op : OpId)
  | stepLimit (limit : Nat)
  | nonPositiveStep (op : OpId)
deriving DecidableEq, Repr

namespace Trap

def message : Trap → String
  | outOfBounds buffer indices =>
      "out-of-bounds access to buffer " ++ toString buffer ++ " at [" ++
        ", ".intercalate (indices.map toString) ++ "]"
  | unsupportedOp name => "unsupported operation: " ++ name
  | typeMismatch cause => "type mismatch in " ++ cause.text
  | freedBuffer buffer => "use of freed buffer " ++ toString buffer
  | argumentCount expected found =>
      "expected " ++ toString expected ++ " arguments, found " ++
        toString found
  | invalidAffine op =>
      "cannot evaluate affine expression of " ++ op.text
  | stepLimit limit => "step limit of " ++ toString limit ++ " exceeded"
  | nonPositiveStep op => "loop " ++ op.text ++ " has a non-positive step"

end Trap

/- A run fails with a trap, or with a fault of the graph. -/
inductive Failure where
  | fault (f : Fault)
  | trap (t : Trap)
  /- An element outside the contents of its buffer. -/
  | overrun (buffer offset : Nat)
  /- Blocks are entered without end. -/
  | endless
deriving DecidableEq, Repr

end AffineIR
