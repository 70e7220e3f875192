import AffineIR.Handle

/-
  Faults: the reasons for which a question about the IR has no
  answer or a change of it is refused.

  A fault names its cause.  The wording is kept apart in
  `Fault.message`; some causes have no words of their own.

  Key definitions include:
    * `Fault.message`
-/

namespace AffineIR

inductive Fault where
  /- A handle that names no live entity. -/
  | danglingHandle (tag : String) (index : Nat)
  | alreadyPlaced (op : OpId)
  | notPlaced (op : OpId)
  | missingFromBlock (op : OpId)
  | resultInUse (op : OpId) (result : ValueId)
  | notStore (op : OpId) (kind : String)
  | notConditional (op : OpId) (kind : String)
  | notBool
  | notIndex
  | notFloat32
  | negatedBool
  /- Several stores reach one load. -/
  | ambiguousStores (count : Nat) (load : OpId)
  | invalidAfter (pass : String) (problems : List String)
  | rowWidth
  | flagCount
  /- Two operations that should share a block do not. -/
  | differentBlocks
  | missingYield
  | overflow
  | divisionByZero
  | outOfRange
  | unlabelledBlock
  /- The nesting or the definitions run in a circle. -/
  | endless
deriving DecidableEq, Repr

namespace Fault

/- The words for a fault, if its cause has any. -/
def message : Fault → Option String
  | danglingHandle tag index =>
      some ("use of dangling handle " ++ tag ++ toString index)
  | alreadyPlaced op => some (op.text ++ " is already placed")
  | notPlaced op => some (op.text ++ " is not placed in a block")
  | missingFromBlock op =>
      some (op.text ++ " missing from its parent block")
  | resultInUse op result =>
      some ("erasing " ++ op.text ++ " whose result " ++
        result.text ++ " still has uses")
  | notStore op kind =>
      some (op.text ++ " is " ++ kind ++ ", not affine.store")
  | notConditional op kind =>
      some (op.text ++ " is " ++ kind ++ ", not affine.if")
  | notBool => some "not an i1 literal"
  | notIndex => some "not an index literal"
  | notFloat32 => some "not an f32 literal"
  | negatedBool => some "i1 literals cannot be negated"
  | ambiguousStores count load =>
      some (toString count ++ " stores can be forwarded to " ++
        load.text)
  | invalidAfter pass problems =>
      some ("Validation failed after pass '" ++ pass ++ "':\n" ++
        "\n".intercalate problems)
  | rowWidth => some "row width mismatch"
  | flagCount => some "every constraint needs an equality flag"
  | differentBlocks => none
  | missingYield => none
  | overflow => none
  | divisionByZero => none
  | outOfRange => none
  | unlabelledBlock => none
  | endless => none

end Fault

/- Read an entry of a list, or fail when there is none. -/
def entryAt {α : Type} (xs : List α) (i : Nat) : Except Fault α :=
  match xs[i]? with
  | some x => .ok x
  | none => .error .outOfRange

/- The entries from position `i` on; `i` may be the length. -/
def entriesFrom
    {α : Type}
    (xs : List α)
    (i : Nat) : Except Fault (List α) :=
  if i ≤ xs.length then .ok (xs.drop i) else .error .outOfRange

/- The first `i` entries; `i` may be the length. -/
def entriesUpTo
    {α : Type}
    (xs : List α)
    (i : Nat) : Except Fault (List α) :=
  if i ≤ xs.length then .ok (xs.take i) else .error .outOfRange

end AffineIR
