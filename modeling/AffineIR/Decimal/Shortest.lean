/-
  The fewest decimal digits that single out a binary
  floating-point number.

  A number stands for all reals that round to it, which is an
  interval around it.  Going from coarse to fine powers of
  ten, the first grid with a point in that interval gives the
  digits; only the two grid points next to the number have to
  be looked at.  All comparisons are exact.

  Key definitions include:
    * `BinaryFormat.shortest?`
-/

namespace AffineIR

------
-- Binary formats
------

/- The widths of the two fields below the sign bit. -/
structure BinaryFormat where
  fractionBits : Nat
  exponentBits : Nat
deriving Repr

namespace BinaryFormat

def single : BinaryFormat :=
  ⟨23, 8⟩

def double : BinaryFormat :=
  ⟨52, 11⟩

end BinaryFormat

/- What the bits of a floating-point number stand for. -/
inductive FloatClass where
  | nan
  | infinite
  | zero
  /- `mantissa * 2 ^ exponent`, and whether the next number
     below is nearer than the next one above. -/
  | finite (mantissa : Nat) (exponent : Int) (narrowBelow : Bool)
deriving DecidableEq, Repr

namespace BinaryFormat

/- The sign bit. -/
def isNegative (f : BinaryFormat) (bits : Nat) : Bool :=
  bits / Nat.pow 2 (f.fractionBits + f.exponentBits) % 2 == 1

/- The meaning of the bits below the sign. -/
def decode (f : BinaryFormat) (bits : Nat) : FloatClass :=
  let fraction := bits % Nat.pow 2 f.fractionBits
  let stored := bits / Nat.pow 2 f.fractionBits % Nat.pow 2 f.exponentBits
  let bias := Nat.pow 2 (f.exponentBits - 1) - 1
  let shift := bias + f.fractionBits
  if stored = Nat.pow 2 f.exponentBits - 1 then
    if fraction = 0 then .infinite else .nan
  else if stored = 0 then
    if fraction = 0 then .zero
    else .finite fraction (1 - Int.ofNat shift) false
  else
    .finite (fraction + Nat.pow 2 f.fractionBits) (Int.subNatNat stored shift)
      (fraction == 0 && 1 < stored)

end BinaryFormat

------
-- Rounding intervals
------

/-
  A number with the ends of its rounding interval, all over
  the common denominator `den`.
-/
structure Interval where
  low : Nat
  mid : Nat
  high : Nat
  den : Nat
  closed : Bool

namespace Interval

/- The interval of the reals that round to a number. -/
def around
    (mantissa : Nat)
    (exponent : Int)
    (narrowBelow : Bool) : Interval :=
  let quarter := exponent - 2
  let up := Nat.pow 2 quarter.toNat
  { low := (4 * mantissa - if narrowBelow then 1 else 2) * up
    mid := 4 * mantissa * up
    high := (4 * mantissa + 2) * up
    den := Nat.pow 2 (-quarter).toNat
    closed := mantissa % 2 == 0 }

/- Whether `digits * 10 ^ k` rounds to the number. -/
def holds (i : Interval) (digits : Nat) (k : Int) : Bool :=
  let point := digits * i.den * Nat.pow 10 k.toNat
  let scale := Nat.pow 10 (-k).toNat
  if i.closed then
    i.low * scale ≤ point && point ≤ i.high * scale
  else
    i.low * scale < point && point < i.high * scale

/-
  The grid point nearest to the number among its two
  neighbours that round to it; the upper one in a tie.
-/
def onGrid? (i : Interval) (k : Int) : Option Nat :=
  let unit := i.den * Nat.pow 10 k.toNat
  let scaled := i.mid * Nat.pow 10 (-k).toNat
  let down := scaled / unit
  let up := down + 1
  match i.holds down k, i.holds up k with
  | true, true =>
      some (if 2 * scaled < (2 * down + 1) * unit then down else up)
  | true, false => some down
  | false, true => some up
  | false, false => none

/- The first hit on the grids from `10 ^ k` downwards. -/
def shortestFrom
    (i : Interval)
    (k : Int) : Nat → Option (Nat × Int)
  | 0 => none
  | steps + 1 =>
      match i.onGrid? k with
      | some digits => some (digits, k)
      | none => i.shortestFrom (k - 1) steps

/- The digits and the power of ten they count. -/
def shortest? (i : Interval) : Option (Nat × Int) :=
  let whole := (Nat.toDigits 10 (i.mid / i.den)).length
  i.shortestFrom whole (whole + 400)

end Interval

end AffineIR
