import AffineIR.Shape

/-
  Types of the values that programs work on: scalars and
  buffers of a fixed shape.

  Key definitions include:
    * `Ty.rank?`
-/

namespace AffineIR

inductive Ty where
  | none
  | i1
  | i32
  | i64
  | f32
  | f64
  | index
  | memref (shape : Shape) (element : Ty)
deriving DecidableEq, Inhabited, Repr

namespace Ty

def isMemref : Ty → Bool
  | memref _ _ => true
  | _ => false

def isScalar (t : Ty) : Bool :=
  !t.isMemref

def isInteger : Ty → Bool
  | i1 | i32 | i64 | index => true
  | _ => false

def isFloat : Ty → Bool
  | f32 | f64 => true
  | _ => false

/- The type of the elements of a buffer. -/
def element? : Ty → Option Ty
  | memref _ element => some element
  | _ => Option.none

def shape? : Ty → Option Shape
  | memref shape _ => some shape
  | _ => Option.none

/- The number of dimensions of a buffer. -/
def rank? (t : Ty) : Option Nat :=
  t.shape?.map List.length

/- A buffer type is written as in `memref<4x8xf32>`. -/
def text : Ty → String
  | none => "none"
  | i1 => "i1"
  | i32 => "i32"
  | i64 => "i64"
  | f32 => "f32"
  | f64 => "f64"
  | index => "index"
  | memref shape element =>
      "memref<" ++
        String.join (shape.map fun d => toString d ++ "x") ++
        element.text ++ ">"

end Ty

end AffineIR
