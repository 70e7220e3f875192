import AffineIR.Op.Kind

/-
  Arithmetic and comparison of literals.

  Integer arithmetic wraps around.  Both operands have to be
  of the same type; nothing is given otherwise.

  Key definitions include:
    * `Comparison.holds?`
-/

namespace AffineIR

namespace Arith

/- The exact integer result. -/
def onInt : Arith → Int → Int → Option Int
  | addi, l, r => some (l + r)
  | subi, l, r => some (l - r)
  | muli, l, r => some (l * r)
  | _, _, _ => none

def onFloat32 : Arith → Float32 → Float32 → Option Float32
  | addf, l, r => some (l + r)
  | subf, l, r => some (l - r)
  | mulf, l, r => some (l * r)
  | _, _, _ => none

def onFloat64 : Arith → Float → Float → Option Float
  | addf, l, r => some (l + r)
  | subf, l, r => some (l - r)
  | mulf, l, r => some (l * r)
  | _, _, _ => none

/- The result for two literals of a type that the operation has. -/
def eval? (fn : Arith) : Literal → Literal → Option Literal
  | .i32 l, .i32 r => (fn.onInt l r).map fun x => .i32 (Word.wrap 32 x)
  | .i64 l, .i64 r => (fn.onInt l r).map fun x => .i64 (Word.wrap 64 x)
  | .index l, .index r =>
      (fn.onInt l r).map fun x => .index (Word.wrap 64 x)
  | .f32 l, .f32 r =>
      (fn.onFloat32 (Float32.ofBits l) (Float32.ofBits r)).map
        fun x => .f32 x.toBits
  | .f64 l, .f64 r =>
      (fn.onFloat64 (Float.ofBits l) (Float.ofBits r)).map
        fun x => .f64 x.toBits
  | _, _ => none

end Arith

namespace Comparison

/- The order of two numbers; none if one of them is a NaN. -/
def orderFloat32 (l r : Float32) : Option Ordering :=
  if l < r then some .lt
  else if l == r then some .eq
  else if r < l then some .gt
  else none

def orderFloat64 (l r : Float) : Option Ordering :=
  if l < r then some .lt
  else if l == r then some .eq
  else if r < l then some .gt
  else none

/- Numbers without an order are different and nothing else. -/
def acceptsOrder (p : Comparison) : Option Ordering → Bool
  | some o => p.accepts o
  | none => p = ne

/- Whether the predicate holds of two literals of one type. -/
def holds? (p : Comparison) (l r : Literal) : Option Bool :=
  match l, r with
  | .f32 a, .f32 b =>
      some (p.acceptsOrder (orderFloat32 (.ofBits a) (.ofBits b)))
  | .f64 a, .f64 b =>
      some (p.acceptsOrder (orderFloat64 (.ofBits a) (.ofBits b)))
  | l, r =>
      if l.ty = r.ty then do
        return p.accepts (Ord.compare (← l.toInt?) (← r.toInt?))
      else
        none

end Comparison

end AffineIR
