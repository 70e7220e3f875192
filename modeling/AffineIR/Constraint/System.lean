import AffineIR.Row

/-
  Systems of linear constraints over integer variables.

  An equality asks that its row be zero, an inequality that it
  be not negative.  Every row has one coefficient for each
  variable of the system.

  Key definitions include:
    * `ConstraintSystem.Holds`
-/

namespace AffineIR

structure ConstraintSystem where
  numVars : Nat := 0
  equalities : List Row := []
  inequalities : List Row := []
deriving DecidableEq, Inhabited, Repr

namespace ConstraintSystem

/- A system over `n` variables without constraints. -/
def ofNumVars (n : Nat) : ConstraintSystem :=
  { numVars := n }

def numConstraints (s : ConstraintSystem) : Nat :=
  s.equalities.length + s.inequalities.length

/- An assignment that satisfies every constraint. -/
def Holds (s : ConstraintSystem) (x : Nat → Int) : Prop :=
  (∀ r ∈ s.equalities, r.eval x = 0) ∧
    (∀ r ∈ s.inequalities, 0 ≤ r.eval x)

/- Give a row a coefficient of zero for one more variable. -/
def widen (r : Row) : Row :=
  { r with coeffs := r.coeffs ++ [0] }

/- Add a variable that no constraint mentions yet. -/
def addVar (s : ConstraintSystem) : ConstraintSystem :=
  { numVars := s.numVars + 1
    equalities := s.equalities.map widen
    inequalities := s.inequalities.map widen }

/- Entries as a row of the system; they have to fit its width. -/
def rowOf (s : ConstraintSystem) (entries : List Int) : Except Fault Row :=
  match Row.ofEntries? entries with
  | some r => if r.width = s.numVars then .ok r else .error .rowWidth
  | none => .error .rowWidth

/- Ask that a row be zero. -/
def addEquality
    (s : ConstraintSystem)
    (entries : List Int) : Except Fault ConstraintSystem := do
  let r ← s.rowOf entries
  return { s with equalities := s.equalities ++ [r] }

/- Ask that a row be not negative. -/
def addInequality
    (s : ConstraintSystem)
    (entries : List Int) : Except Fault ConstraintSystem := do
  let r ← s.rowOf entries
  return { s with inequalities := s.inequalities ++ [r] }

end ConstraintSystem

end AffineIR
