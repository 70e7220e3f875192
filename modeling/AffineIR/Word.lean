import AffineIR.Fault

/-
  Machine words, as integers with a range.

  Arithmetic on 64-bit words is done on integers and then
  checked: `add?` and its companions give nothing when the
  exact result does not fit, `word` reports the overflow, and
  `wrap` reduces it instead.

  Key definitions include:
    * `Word.wrap`
-/

namespace AffineIR

namespace Word

/- The least 64-bit word. -/
def least : Int :=
  -9223372036854775808

/- The greatest 64-bit word. -/
def greatest : Int :=
  9223372036854775807

/- Integers that fit a signed 64-bit word. -/
def IsWord (x : Int) : Prop :=
  least ≤ x ∧ x ≤ greatest

instance (x : Int) : Decidable (IsWord x) := by
  unfold IsWord
  infer_instance

/- The integer itself, if it fits. -/
def fit? (x : Int) : Option Int :=
  if IsWord x then some x else none

def add? (x y : Int) : Option Int :=
  fit? (x + y)

def sub? (x y : Int) : Option Int :=
  fit? (x - y)

def mul? (x y : Int) : Option Int :=
  fit? (x * y)

def neg? (x : Int) : Option Int :=
  fit? (-x)

/-
  Quotient rounded down: the quotient cut off towards zero, less
  one if something is left over and the signs differ.  Nothing
  is given for a zero divisor.
-/
def floorDiv? (x y : Int) : Option Int :=
  if y = 0 then
    none
  else
    (fit? (x.tdiv y)).map fun quotient =>
      if x.tmod y ≠ 0 ∧ ¬(x < 0 ↔ y < 0) then quotient - 1 else quotient

/- Quotient rounded up, as the negated floor of `-x` over `y`. -/
def ceilDiv? (x y : Int) : Option Int := do
  let negated ← neg? x
  let quotient ← floorDiv? negated y
  neg? quotient

/- What the rounded-down quotient leaves over. -/
def floorMod? (x y : Int) : Option Int := do
  let quotient ← floorDiv? x y
  let whole ← mul? y quotient
  sub? x whole

/- The integer itself; one that does not fit is a fault. -/
def word (x : Int) : Except Fault Int :=
  if IsWord x then .ok x else .error .overflow

/- Reduction to a signed word of the given width. -/
def wrap (bits : Nat) (x : Int) : Int :=
  x.bmod (Nat.pow 2 bits)

/- A count that has to fit an unsigned word of the given width. -/
def count (bits : Nat) (n : Nat) : Except Fault Nat :=
  if n < Nat.pow 2 bits then .ok n else .error .overflow

end Word

end AffineIR
