import AffineIR.Ty
import AffineIR.Decimal.Text

/-
  Literals: scalar constants.

  Floating-point literals are kept as their bits, so that two
  literals are equal exactly when their bits are: a NaN equals
  itself and the two zeros differ.

  Key definitions include:
    * `Literal.text`
-/

namespace AffineIR

inductive Literal where
  | bool (value : Bool)
  | i32 (value : Int)
  | i64 (value : Int)
  | f32 (bits : UInt32)
  | f64 (bits : UInt64)
  | index (value : Int)
deriving DecidableEq, Inhabited, Repr

namespace Literal

def ty : Literal → Ty
  | bool _ => .i1
  | i32 _ => .i32
  | i64 _ => .i64
  | f32 _ => .f32
  | f64 _ => .f64
  | index _ => .index

/- The zero of a scalar type; fresh buffers are filled with it. -/
def zero? : Ty → Option Literal
  | .i1 => some (bool false)
  | .i32 => some (i32 0)
  | .i64 => some (i64 0)
  | .f32 => some (f32 0)
  | .f64 => some (f64 0)
  | .index => some (index 0)
  | .none => none
  | .memref _ _ => none

/- The number that an integer-like literal stands for. -/
def toInt? : Literal → Option Int
  | bool b => some (if b then 1 else 0)
  | i32 v => some v
  | i64 v => some v
  | index v => some v
  | f32 _ => none
  | f64 _ => none

def getBool : Literal → Except Fault Bool
  | bool b => .ok b
  | _ => .error .notBool

def getIndex : Literal → Except Fault Int
  | index v => .ok v
  | _ => .error .notIndex

def getFloat32 : Literal → Except Fault UInt32
  | f32 bits => .ok bits
  | _ => .error .notFloat32

/- Integers wrap around; floating-point numbers flip their sign. -/
def negate : Literal → Except Fault Literal
  | bool _ => .error .negatedBool
  | i32 v => .ok (i32 (Word.wrap 32 (-v)))
  | i64 v => .ok (i64 (Word.wrap 64 (-v)))
  | index v => .ok (index (Word.wrap 64 (-v)))
  | f32 bits => .ok (f32 (bits ^^^ 0x80000000))
  | f64 bits => .ok (f64 (bits ^^^ 0x8000000000000000))

def text : Literal → String
  | bool b => if b then "true" else "false"
  | i32 v => toString v
  | i64 v => toString v
  | index v => toString v
  | f32 bits => literalLayout.text .single bits.toNat
  | f64 bits => literalLayout.text .double bits.toNat

/- The literal with its type, as in `1 : i32`. -/
def typedText (l : Literal) : String :=
  l.text ++ " : " ++ l.ty.text

end Literal

end AffineIR
