import AffineIR.Affine.Text

/-
  Affine maps: lists of affine expressions over the same
  dimensions and symbols.

  Key definitions include:
    * `Affine.Map.render`, `Affine.Map.text`
-/

namespace AffineIR

namespace Affine

/- How many inputs there are; the sum has to fit 32 bits. -/
def inputCount (numDims numSymbols : Nat) : Except Fault Nat :=
  Word.count 32 (numDims + numSymbols)

/- The numbered inputs as they stand in front of a map or set. -/
def inputsText (numDims numSymbols : Nat) : String :=
  let dims := (List.range numDims).map fun i => "d" ++ toString i
  let symbols := (List.range numSymbols).map fun i => "s" ++ toString i
  "(" ++ ", ".intercalate dims ++ ")" ++
    if symbols.isEmpty then "" else "[" ++ ", ".intercalate symbols ++ "]"

structure Map where
  numDims : Nat
  numSymbols : Nat
  results : List Expr
deriving DecidableEq, Inhabited, Repr

namespace Map

/- The map without inputs whose only result is a number. -/
def ofConstant (c : Int) : Map :=
  ⟨0, 0, [.constant c]⟩

/- The map that gives back its dimensions. -/
def identity (rank : Nat) : Map :=
  ⟨rank, 0, (List.range rank).map .dim⟩

def numInputs (m : Map) : Except Fault Nat :=
  inputCount m.numDims m.numSymbols

/- The number that a map with a single constant result gives. -/
def constant? (m : Map) : Option Int :=
  match m.results with
  | [only] => only.toConstant?
  | _ => none

/-
  The results at a point.  Nothing is given for the wrong
  number of inputs or when one result has no value.
-/
def eval (m : Map) (inputs : List Int) :
    Except Fault (Option (List Int)) := do
  if inputs.length = (← m.numInputs) then
    let dims := inputs.take m.numDims
    let symbols := inputs.drop m.numDims
    return m.results.mapM (·.eval? dims symbols)
  else
    return none

/- The results with operand names in place of the inputs. -/
def render (m : Map) (operands : List String) : String :=
  let names := Names.ofOperands m.numDims operands
  ", ".intercalate (m.results.map (·.render names))

def text (m : Map) : String :=
  inputsText m.numDims m.numSymbols ++ " -> (" ++
    ", ".intercalate (m.results.map (·.text)) ++ ")"

end Map

end Affine

end AffineIR
