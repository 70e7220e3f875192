import AffineIR.Word

/-
  Linear forms: a constant plus multiples of named quantities.

  The terms are kept in ascending order of their handles, at
  most one per handle.  Addition stores no zero coefficient,
  so that forms without zero coefficients that always have the
  same value are equal.

  Key definitions include:
    * `LinearForm.text`
-/

namespace AffineIR

structure LinearForm (tag : String) where
  terms : List (Handle tag × Int) := []
  constant : Int := 0
deriving DecidableEq, Inhabited, Repr

------
-- Ordered terms
------

namespace Terms

variable {tag : String}

/- The coefficient of a quantity; zero if it has no term. -/
def coeff (h : Handle tag) : List (Handle tag × Int) → Int
  | [] => 0
  | (k, c) :: rest => if k = h then c else coeff h rest

/- Set the coefficient of a quantity, zero included. -/
def insert
    (h : Handle tag)
    (c : Int) :
    List (Handle tag × Int) → List (Handle tag × Int)
  | [] => [(h, c)]
  | (k, d) :: rest =>
      if h < k then (h, c) :: (k, d) :: rest
      else if h = k then (h, c) :: rest
      else (k, d) :: insert h c rest

/- Drop the term of a quantity. -/
def erase
    (h : Handle tag)
    (terms : List (Handle tag × Int)) : List (Handle tag × Int) :=
  terms.filter fun t => t.1 ≠ h

/- Set the coefficient of a quantity; a zero drops the term. -/
def update
    (h : Handle tag)
    (c : Int)
    (terms : List (Handle tag × Int)) : List (Handle tag × Int) :=
  if c = 0 then erase h terms else insert h c terms

/- Add further terms one after the other. -/
def add?
    (terms : List (Handle tag × Int)) :
    List (Handle tag × Int) → Option (List (Handle tag × Int))
  | [] => some terms
  | (h, c) :: rest =>
      match Word.add? (coeff h terms) c with
      | none => none
      | some sum => add? (update h sum terms) rest

end Terms

------
-- Forms
------

namespace LinearForm

variable {tag : String}

def ofConstant (c : Int) : LinearForm tag :=
  ⟨[], c⟩

/- The form of a single quantity. -/
def leaf (h : Handle tag) : LinearForm tag :=
  ⟨[(h, 1)], 0⟩

/- A form from terms in any order; a later term replaces an
   earlier one of the same quantity. -/
def ofTerms
    (terms : List (Handle tag × Int))
    (constant : Int) : LinearForm tag :=
  ⟨terms.foldl (fun acc t => Terms.insert t.1 t.2 acc) [], constant⟩

def isConstant (f : LinearForm tag) : Bool :=
  f.terms.isEmpty

def coeff (f : LinearForm tag) (h : Handle tag) : Int :=
  Terms.coeff h f.terms

/- The value of a form when the quantities have the values `x`. -/
def eval (f : LinearForm tag) (x : Handle tag → Int) : Int :=
  f.terms.foldr (fun t rest => t.2 * x t.1 + rest) f.constant

def add? (f g : LinearForm tag) : Option (LinearForm tag) := do
  let constant ← Word.add? f.constant g.constant
  let terms ← Terms.add? f.terms g.terms
  return ⟨terms, constant⟩

/- A multiple of a form; zero times a form has no terms. -/
def scale? (f : LinearForm tag) (factor : Int) : Option (LinearForm tag) :=
  if factor = 0 then
    some {}
  else do
    let terms ← f.terms.mapM fun t =>
      (Word.mul? t.2 factor).map fun c => (t.1, c)
    let constant ← Word.mul? f.constant factor
    return ⟨terms, constant⟩

def sub? (f g : LinearForm tag) : Option (LinearForm tag) := do
  f.add? (← g.scale? (-1))

/- A form moved by a constant. -/
def offset? (f : LinearForm tag) (amount : Int) : Option (LinearForm tag) :=
  (Word.add? f.constant amount).map fun c => { f with constant := c }

def text (f : LinearForm tag) : String :=
  String.join
    (f.terms.map fun t => toString t.2 ++ "*" ++ t.1.text ++ " + ") ++
    toString f.constant

end LinearForm

end AffineIR
