import AffineIR.Affine.Map

/-
  Integer sets: conjunctions of affine constraints, each of
  which asks that an expression be zero or not negative.

  Key definitions include:
    * `Affine.IntegerSet.render`, `Affine.IntegerSet.text`
-/

namespace AffineIR

namespace Affine

structure Constraint where
  expr : Expr
  isEquality : Bool
deriving DecidableEq, Inhabited, Repr

namespace Constraint

/- Whether a value of the expression meets the constraint. -/
def admits (c : Constraint) (value : Int) : Bool :=
  if c.isEquality then value == 0 else 0 ≤ value

def render (c : Constraint) (names : Names) : String :=
  c.expr.render names ++ (if c.isEquality then " == 0" else " >= 0")

end Constraint

structure IntegerSet where
  numDims : Nat
  numSymbols : Nat
  constraints : List Constraint
deriving DecidableEq, Inhabited, Repr

namespace IntegerSet

/- A set from its expressions and their flags, one for each. -/
def ofLists
    (numDims numSymbols : Nat)
    (exprs : List Expr)
    (flags : List Bool) : Except Fault IntegerSet :=
  if exprs.length = flags.length then
    .ok ⟨numDims, numSymbols, exprs.zipWith Constraint.mk flags⟩
  else
    .error .flagCount

def numInputs (s : IntegerSet) : Except Fault Nat :=
  inputCount s.numDims s.numSymbols

/-
  Whether the constraints hold one after the other; the first
  that fails or has no value settles the answer.
-/
def allHold? (dims symbols : List Int) : List Constraint → Option Bool
  | [] => some true
  | c :: rest =>
      match c.expr.eval? dims symbols with
      | none => none
      | some v => if c.admits v then allHold? dims symbols rest else some false

/- Whether a point belongs to the set, if that has an answer. -/
def contains (s : IntegerSet) (inputs : List Int) :
    Except Fault (Option Bool) := do
  if inputs.length = (← s.numInputs) then
    let dims := inputs.take s.numDims
    let symbols := inputs.drop s.numDims
    return allHold? dims symbols s.constraints
  else
    return none

def render (s : IntegerSet) (operands : List String) : String :=
  let names := Names.ofOperands s.numDims operands
  ", ".intercalate (s.constraints.map (·.render names))

def text (s : IntegerSet) : String :=
  inputsText s.numDims s.numSymbols ++ " : (" ++
    ", ".intercalate (s.constraints.map (·.render {})) ++ ")"

end IntegerSet

end Affine

end AffineIR
