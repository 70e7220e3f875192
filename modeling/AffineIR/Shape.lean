import AffineIR.Word

/-
  Shapes of buffers and row-major addressing.

  A shape lists the extent of each dimension.  A negative
  extent counts as empty.  Elements are laid out with the last
  index running fastest.

  Key definitions include:
    * `Shape.offset?`
-/

namespace AffineIR

abbrev Shape :=
  List Int

namespace Shape

/- The product of the extents, with a running factor. -/
def productFrom (total : Nat) : Shape → Except Fault Nat
  | [] => .ok total
  | extent :: rest =>
      match Word.count 64 (total * extent.toNat) with
      | .ok next => productFrom next rest
      | .error e => .error e

/- How many elements a buffer of this shape has. -/
def numElements (shape : Shape) : Except Fault Nat :=
  productFrom 1 shape

/-
  Extend the offset of the leading indices by the remaining
  ones.  Nothing is given for an index outside its extent.
-/
def offsetFrom
    (offset : Nat) :
    Shape → List Int → Except Fault (Option Nat)
  | [], [] => .ok (some offset)
  | extent :: shape, index :: indices =>
      if index < 0 ∨ extent ≤ index then
        .ok none
      else
        match Word.count 64 (offset * extent.toNat) with
        | .error e => .error e
        | .ok scaled =>
            match Word.count 64 (scaled + index.toNat) with
            | .error e => .error e
            | .ok next => offsetFrom next shape indices
  | _, _ => .ok none

/-
  The row-major position of an element.  Nothing is given for
  the wrong number of indices or an index outside its extent.
-/
def offset?
    (shape : Shape)
    (indices : List Int) : Except Fault (Option Nat) :=
  if indices.length = shape.length then
    offsetFrom 0 shape indices
  else
    .ok none

end Shape

end AffineIR
