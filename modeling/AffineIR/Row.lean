import AffineIR.Word

/-
  Dense integer rows.

  A row holds one coefficient per variable and a constant; it
  stands for the sum of the coefficients times the variables
  plus the constant.  Arithmetic on rows is checked entry by
  entry and gives nothing when an entry does not fit a word.

  Key definitions include:
    * `Row.ofEntries?`, `Row.entries`
-/

namespace AffineIR

structure Row where
  coeffs : List Int
  constant : Int
deriving DecidableEq, Inhabited, Repr

namespace Row

/- The sum of the coefficients from variable `i` on. -/
def sumFrom (x : Nat → Int) (i : Nat) : List Int → Int
  | [] => 0
  | c :: rest => c * x i + sumFrom x (i + 1) rest

/- The value of a row when the variables have the values `x`. -/
def eval (r : Row) (x : Nat → Int) : Int :=
  sumFrom x 0 r.coeffs + r.constant

/- The coefficient of a variable; zero beyond the width. -/
def coeff (r : Row) (i : Nat) : Int :=
  r.coeffs.getD i 0

def width (r : Row) : Nat :=
  r.coeffs.length

/- The row of a constant. -/
def ofConstant (width : Nat) (c : Int) : Row :=
  ⟨List.replicate width 0, c⟩

/- The row of one variable. -/
def unit (width : Nat) (i : Nat) : Row :=
  ⟨(List.replicate width 0).set i 1, 0⟩

def isConstant (r : Row) : Bool :=
  r.coeffs.all (· == 0)

/- Entry-wise combination of two rows, checked. -/
def combine?
    (f : Int → Int → Option Int)
    (r s : Row) : Option Row := do
  let coeffs ← (r.coeffs.zip s.coeffs).mapM fun (c, d) => f c d
  let constant ← f r.constant s.constant
  return ⟨coeffs, constant⟩

def add? (r s : Row) : Option Row :=
  r.combine? Word.add? s

/- Entry-wise change of a row, checked. -/
def mapM? (f : Int → Option Int) (r : Row) : Option Row := do
  let coeffs ← r.coeffs.mapM f
  let constant ← f r.constant
  return ⟨coeffs, constant⟩

def scale? (r : Row) (factor : Int) : Option Row :=
  r.mapM? (Word.mul? · factor)

def neg? (r : Row) : Option Row :=
  r.mapM? Word.neg?

/- Coefficients followed by the constant. -/
def entries (r : Row) : List Int :=
  r.coeffs ++ [r.constant]

/- A row from its entries, the last of which is the constant. -/
def ofEntries? : List Int → Option Row
  | [] => none
  | c :: rest =>
      some ⟨(c :: rest).dropLast, (c :: rest).getLastD 0⟩

end Row

end AffineIR
