import AffineIR.Affine.Expr

/-
  The text of affine expressions.

  Sums are written without parentheses; a negative constant or
  a product by minus one on the right of a sum is written as a
  subtraction.  Operands of the other operations are put into
  parentheses unless they are single inputs or numbers.

  Key definitions include:
    * `Affine.Expr.text`
-/

namespace AffineIR

namespace Affine

/- Names for the inputs; inputs beyond them are numbered. -/
structure Names where
  dims : List String := []
  symbols : List String := []

namespace Names

def dim (names : Names) (p : Nat) : String :=
  names.dims[p]?.getD ("d" ++ toString p)

def symbol (names : Names) (p : Nat) : String :=
  names.symbols[p]?.getD ("s" ++ toString p)

/- The first `numDims` operands name dimensions, the rest symbols. -/
def ofOperands (numDims : Nat) (operands : List String) : Names :=
  ⟨operands.take numDims, operands.drop numDims⟩

end Names

namespace Expr

/- Inputs and numbers stand for themselves. -/
def IsAtom : Expr → Prop
  | dim _ => True
  | symbol _ => True
  | constant _ => True
  | _ => False

instance (e : Expr) : Decidable e.IsAtom := by
  cases e <;> unfold IsAtom <;> infer_instance

/- Put the text of an operand into parentheses if it needs them. -/
def enclose (e : Expr) (text : String) : String :=
  if e.IsAtom then text else "(" ++ text ++ ")"

def render (names : Names) : Expr → String
  | dim p => names.dim p
  | symbol p => names.symbol p
  | constant c => toString c
  | add l (constant c) =>
      if c < 0 then
        l.render names ++ " - " ++ toString c.natAbs
      else
        l.render names ++ " + " ++ toString c
  | add l (mul x k) =>
      if k = constant (-1) then
        l.render names ++ " - " ++ x.enclose (x.render names)
      else
        l.render names ++ " + " ++
          (x.enclose (x.render names) ++ " * " ++
            k.enclose (k.render names))
  | add l r => l.render names ++ " + " ++ r.render names
  | mul l r =>
      if r = constant (-1) then
        "-" ++ l.enclose (l.render names)
      else
        l.enclose (l.render names) ++ " * " ++
          r.enclose (r.render names)
  | mod l r =>
      l.enclose (l.render names) ++ " mod " ++
        r.enclose (r.render names)
  | floorDiv l r =>
      l.enclose (l.render names) ++ " floordiv " ++
        r.enclose (r.render names)
  | ceilDiv l r =>
      l.enclose (l.render names) ++ " ceildiv " ++
        r.enclose (r.render names)

/- The text with numbered inputs. -/
def text (e : Expr) : String :=
  e.render {}

end Expr

end Affine

end AffineIR
