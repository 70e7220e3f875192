import AffineIR.Constraint.System

/-
  A test for the emptiness of constraint systems.

  Equalities are divided by the greatest common divisor of
  their coefficients, and those with a coefficient of one or
  minus one are used to eliminate that variable everywhere.
  What remains is turned into inequalities, from which one
  variable after the other is eliminated by adding up every
  pair of a lower and an upper bound; after each round the
  constants are rounded to the next attainable value.

  The test gives up when a number does not fit a word or when
  the rows become too many; it then answers that the system
  may have solutions.

  Key definitions include:
    * `ConstraintSystem.isEmpty`
-/

namespace AffineIR

namespace Elimination

/- The number of rows beyond which the test gives up. -/
def maxRows : Nat :=
  2048

------
-- Common divisors
------

/- Greatest common divisor, cut off at the greatest word. -/
def gcdWord (a b : Int) : Int :=
  min (Int.gcd a b) Word.greatest

/- Common divisor of the coefficients; zero if all are zero. -/
def content (r : Row) : Int :=
  r.coeffs.foldl gcdWord 0

/- What becomes of a row. -/
inductive Verdict where
  /- No assignment satisfies the row. -/
  | contradiction
  /- Every assignment satisfies the row. -/
  | trivial
  | keep (row : Row)

/- Divide an equality by the content of its row. -/
def normalizeRow (r : Row) : Verdict :=
  let g := content r
  if g = 0 then
    if r.constant = 0 then .trivial else .contradiction
  else if r.constant.tmod g ≠ 0 then
    .contradiction
  else
    .keep ⟨r.coeffs.map (·.tdiv g), r.constant.tdiv g⟩

/- Divide an inequality by its content and round its constant down. -/
def tightenRow (r : Row) : Verdict :=
  let g := content r
  if g = 0 then
    if r.constant < 0 then .contradiction else .trivial
  else if 1 < g then
    .keep ⟨r.coeffs.map (·.tdiv g), r.constant.fdiv g⟩
  else
    .keep r

/-
  Divide all equalities; nothing is given if one of them has
  no integer solution.
-/
def normalize : List Row → Option (List Row)
  | [] => some []
  | r :: rest =>
      match normalizeRow r with
      | .contradiction => none
      | .trivial => normalize rest
      | .keep s => (normalize rest).map (s :: ·)

/- Tighten inequalities after those in `kept`, without repeats. -/
def tightenInto (kept : List Row) : List Row → Option (List Row)
  | [] => some kept.reverse
  | r :: rest =>
      match tightenRow r with
      | .contradiction => none
      | .trivial => tightenInto kept rest
      | .keep s =>
          if kept.contains s then tightenInto kept rest
          else tightenInto (s :: kept) rest

/-
  Tighten all inequalities; nothing is given if one of them
  has no integer solution.
-/
def tighten (rows : List Row) : Option (List Row) :=
  tightenInto [] rows

------
-- Substitution of unit equalities
------

/- The absolute value of a word, which may not be a word. -/
def magnitude (c : Int) : Except Fault Int :=
  Word.word c.natAbs

/- The first variable from `i` on with coefficient one or minus one. -/
def unitVarFrom (i : Nat) : List Int → Except Fault (Option Nat)
  | [] => .ok none
  | c :: rest =>
      match magnitude c with
      | .error e => .error e
      | .ok m => if m = 1 then .ok (some i) else unitVarFrom (i + 1) rest

/- The first row from position `i` on with such a variable. -/
def pivotFrom (i : Nat) : List Row → Except Fault (Option (Nat × Nat))
  | [] => .ok none
  | r :: rest =>
      match unitVarFrom 0 r.coeffs with
      | .error e => .error e
      | .ok (some v) => .ok (some (i, v))
      | .ok none => pivotFrom (i + 1) rest

/- Remove an entry and put the last one into its place. -/
def swapRemove {α : Type} (xs : List α) (i : Nat) : List α :=
  match xs.getLast? with
  | some last => (xs.set i last).dropLast
  | none => []

/- Subtract the multiple of the pivot row that clears a variable. -/
def clearVar? (pivot : Row) (v : Nat) (r : Row) : Option Row :=
  let factor := r.coeff v
  if factor = 0 then
    some r
  else do
    let scale ← Word.mul? factor (pivot.coeff v)
    r.combine? (fun c p => do Word.sub? c (← Word.mul? scale p)) pivot

/-
  Use equalities with a unit coefficient until none is left,
  at most `rounds` of them.
-/
def substituteUpTo :
    Nat → List Row → List Row →
      Except Fault (Option (List Row × List Row))
  | 0, eqs, ges => .ok (some (eqs, ges))
  | rounds + 1, eqs, ges =>
      match pivotFrom 0 eqs with
      | .error e => .error e
      | .ok none => .ok (some (eqs, ges))
      | .ok (some (i, v)) =>
          let pivot := eqs.getD i default
          match
            (swapRemove eqs i).mapM (clearVar? pivot v),
            ges.mapM (clearVar? pivot v) with
          | some eqs', some ges' => substituteUpTo rounds eqs' ges'
          | _, _ => .ok none

/- Each round uses up an equality. -/
def substitute (eqs ges : List Row) :
    Except Fault (Option (List Row × List Row)) :=
  substituteUpTo eqs.length eqs ges

/- Every equality as a pair of inequalities. -/
def split? : List Row → Option (List Row)
  | [] => some []
  | r :: rest => do
      let n ← r.neg?
      let others ← split? rest
      return r :: n :: others

------
-- Elimination by pairs of bounds
------

/- The rows that bound a variable from below and from above. -/
def lowerBounds (v : Nat) (rows : List Row) : List Row :=
  rows.filter fun r => 0 < r.coeff v

def upperBounds (v : Nat) (rows : List Row) : List Row :=
  rows.filter fun r => r.coeff v < 0

/- How many pairs the elimination of a variable has to add up. -/
def pairCount (v : Nat) (rows : List Row) : Nat :=
  (lowerBounds v rows).length * (upperBounds v rows).length

def Occurs (v : Nat) (rows : List Row) : Prop :=
  ∃ r ∈ rows, r.coeff v ≠ 0

instance (v : Nat) (rows : List Row) : Decidable (Occurs v rows) := by
  unfold Occurs
  infer_instance

/- The cheaper of two variables; the first in a tie. -/
def cheaper (rows : List Row) (best : Option Nat) (v : Nat) : Option Nat :=
  match best with
  | none => some v
  | some b => if pairCount v rows < pairCount b rows then some v else some b

/- The variable whose elimination adds up the fewest pairs. -/
def pickVar (numVars : Nat) (rows : List Row) : Option Nat :=
  ((List.range numVars).filter fun v => Occurs v rows).foldl
    (cheaper rows) none

/- Add up a lower and an upper bound so that the variable cancels. -/
def addBounds? (v : Nat) (lower upper : Row) : Option Row := do
  let a := lower.coeff v
  let b ← Word.neg? (upper.coeff v)
  lower.combine?
    (fun l u => do Word.add? (← Word.mul? b l) (← Word.mul? a u))
    upper

/- Eliminate a variable; too many rows are given up on. -/
def eliminateVar? (v : Nat) (rows : List Row) : Option (List Row) :=
  let lower := lowerBounds v rows
  let upper := upperBounds v rows
  let rest := rows.filter fun r => r.coeff v = 0
  if maxRows < rest.length + lower.length * upper.length then
    none
  else do
    let pairs := lower.flatMap fun l => upper.map fun u => (l, u)
    let sums ← pairs.mapM fun p => addBounds? v p.1 p.2
    return rest ++ sums

/-
  Eliminate variables for at most `rounds` rounds.  `true`
  says that there is no integer solution; nothing is given
  when the test gives up.
-/
def eliminateUpTo? (numVars : Nat) : Nat → List Row → Option Bool
  | 0, _ => none
  | rounds + 1, rows =>
      match tighten rows with
      | none => some true
      | some rows' =>
          match pickVar numVars rows' with
          | none => some false
          | some v =>
              match eliminateVar? v rows' with
              | none => none
              | some rows'' => eliminateUpTo? numVars rounds rows''

/- Each round but the last removes a variable from all rows. -/
def eliminate? (numVars : Nat) (rows : List Row) : Option Bool :=
  eliminateUpTo? numVars (numVars + 1) rows

/- The whole test; `none` when it gives up. -/
def run (s : ConstraintSystem) : Except Fault (Option Bool) := do
  match normalize s.equalities with
  | none => return some true
  | some eqs =>
      match ← substitute eqs s.inequalities with
      | none => return none
      | some (eqs, ges) =>
          match normalize eqs with
          | none => return some true
          | some eqs =>
              match split? eqs with
              | none => return none
              | some pairs => return eliminate? s.numVars (ges ++ pairs)

end Elimination

/- Whether the system provably has no integer solution. -/
def ConstraintSystem.isEmpty (s : ConstraintSystem) : Except Fault Bool := do
  return (← Elimination.run s).getD false

end AffineIR
