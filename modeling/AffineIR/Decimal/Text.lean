import AffineIR.Decimal.Shortest

/-
  The text of floating-point numbers.

  A number is written with the fewest digits that read back.
  The layout is a record: from which powers of ten on the
  exponent is written, and the words for special values.

  Key definitions include:
    * `floatText`
-/

namespace AffineIR

structure FloatLayout where
  /- Leading digits at this power of ten or above have an exponent. -/
  largeFrom : Int
  /- Leading digits below this power of ten have an exponent. -/
  smallBelow : Int
  nan : String
  infinity : String
deriving Repr

namespace FloatLayout

/- Text of `digits * 10 ^ k`, always with a point or an exponent. -/
def write (l : FloatLayout) (digits : Nat) (k : Int) : String :=
  let ds := Nat.toDigits 10 digits
  let lead : Int := k + ds.length - 1
  if l.largeFrom ≤ lead ∨ lead < l.smallBelow then
    let tail :=
      if ds.length ≤ 1 then [] else '.' :: ds.drop 1
    String.ofList (ds.take 1 ++ tail ++ ['e']) ++ toString lead
  else if 0 ≤ k then
    String.ofList (ds ++ List.replicate k.toNat '0' ++ ['.', '0'])
  else if 0 ≤ lead then
    let whole := (lead + 1).toNat
    String.ofList (ds.take whole ++ ['.'] ++ ds.drop whole)
  else
    String.ofList
      (['0', '.'] ++ List.replicate (-lead - 1).toNat '0' ++ ds)

/- Text of the number with the given bits. -/
def text (l : FloatLayout) (f : BinaryFormat) (bits : Nat) : String :=
  let sign := if f.isNegative bits then "-" else ""
  match f.decode bits with
  | .nan => l.nan
  | .infinite => sign ++ l.infinity
  | .zero => sign ++ "0.0"
  | .finite mantissa exponent narrowBelow =>
      match (Interval.around mantissa exponent narrowBelow).shortest? with
      | some (digits, k) => sign ++ l.write digits k
      | none => sign ++ "0.0"

end FloatLayout

/-
  Literals are written positionally from `1e-4` up to `1e16`.
-/
def literalLayout : FloatLayout where
  largeFrom := 16
  smallBelow := -4
  nan := "NaN"
  infinity := "inf"

end AffineIR
