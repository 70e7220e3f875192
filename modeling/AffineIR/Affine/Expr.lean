import AffineIR.Row

/-
  Affine expressions over dimensions and symbols.

  Expressions are built by the folding operations `plus`,
  `times`, `minus`, `floorDiv`, `ceilDiv` and `modulo`, which
  collapse constant parts and keep constants on the right.

  Key definitions include:
    * `Affine.Expr.IsPure`
-/

namespace AffineIR

namespace Affine

inductive Expr where
  | dim (position : Nat)
  | symbol (position : Nat)
  | constant (value : Int)
  | add (left right : Expr)
  | mul (left right : Expr)
  | mod (left right : Expr)
  | floorDiv (left right : Expr)
  | ceilDiv (left right : Expr)
deriving DecidableEq, Inhabited, Repr

namespace Expr

def toConstant? : Expr → Option Int
  | constant c => some c
  | _ => none

------
-- Folding operations
------

/- The folded value, or the node itself if there is none. -/
def constantOr (value : Option Int) (node : Expr) : Expr :=
  match value with
  | some v => constant v
  | none => node

def plus (l r : Expr) : Expr :=
  match l, r with
  | constant a, constant b => constantOr (Word.add? a b) (add l r)
  | constant a, r => if a = 0 then r else add r (constant a)
  | l, constant b => if b = 0 then l else add l (constant b)
  | l, r => add l r

def times (l r : Expr) : Expr :=
  match l, r with
  | constant a, constant b => constantOr (Word.mul? a b) (mul l r)
  | constant a, r =>
      if a = 0 then constant 0
      else if a = 1 then r
      else mul r (constant a)
  | l, constant b =>
      if b = 0 then constant 0
      else if b = 1 then l
      else mul l (constant b)
  | l, r => mul l r

def negate (e : Expr) : Expr :=
  e.times (constant (-1))

def minus (l r : Expr) : Expr :=
  l.plus r.negate

/- Subtraction of a number; its negation is used if it fits. -/
def minusConstant (l : Expr) (c : Int) : Expr :=
  match Word.neg? c with
  | some n => l.plus (constant n)
  | none => l.minus (constant c)

def floorDivBy (l r : Expr) : Expr :=
  match l, r with
  | constant a, constant b =>
      constantOr (Word.floorDiv? a b) (floorDiv l r)
  | l, constant b =>
      if b = 1 then l else floorDiv l (constant b)
  | l, r => floorDiv l r

def ceilDivBy (l r : Expr) : Expr :=
  match l, r with
  | constant a, constant b =>
      constantOr (Word.ceilDiv? a b) (ceilDiv l r)
  | l, constant b =>
      if b = 1 then l else ceilDiv l (constant b)
  | l, r => ceilDiv l r

def modulo (l r : Expr) : Expr :=
  match l, r with
  | constant a, constant b =>
      constantOr (Word.floorMod? a b) (mod l r)
  | l, constant b =>
      if b = 1 then constant 0 else mod l (constant b)
  | l, r => mod l r

------
-- Evaluation
------

/-
  Products have a constant side, and there is no division and
  no remainder.
-/
def IsPure : Expr → Prop
  | dim _ => True
  | symbol _ => True
  | constant _ => True
  | add l r => l.IsPure ∧ r.IsPure
  | mul l r =>
      l.IsPure ∧ r.IsPure ∧
        (l.toConstant?.isSome ∨ r.toConstant?.isSome)
  | mod _ _ => False
  | floorDiv _ _ => False
  | ceilDiv _ _ => False

instance decidableIsPure : (e : Expr) → Decidable e.IsPure
  | dim _ => isTrue trivial
  | symbol _ => isTrue trivial
  | constant _ => isTrue trivial
  | add l r =>
      haveI := decidableIsPure l
      haveI := decidableIsPure r
      inferInstanceAs (Decidable (l.IsPure ∧ r.IsPure))
  | mul l r =>
      haveI := decidableIsPure l
      haveI := decidableIsPure r
      inferInstanceAs
        (Decidable
          (l.IsPure ∧ r.IsPure ∧
            (l.toConstant?.isSome ∨ r.toConstant?.isSome)))
  | mod _ _ => isFalse id
  | floorDiv _ _ => isFalse id
  | ceilDiv _ _ => isFalse id

/-
  The value at a point.  Nothing is given for an input that
  does not exist, a zero divisor or a value that is no word.
-/
def eval? (dims symbols : List Int) : Expr → Option Int
  | dim p => dims[p]?
  | symbol p => symbols[p]?
  | constant c => some c
  | add l r => do
      Word.add? (← l.eval? dims symbols) (← r.eval? dims symbols)
  | mul l r => do
      Word.mul? (← l.eval? dims symbols) (← r.eval? dims symbols)
  | mod l r => do
      Word.floorMod? (← l.eval? dims symbols) (← r.eval? dims symbols)
  | floorDiv l r => do
      Word.floorDiv? (← l.eval? dims symbols) (← r.eval? dims symbols)
  | ceilDiv l r => do
      Word.ceilDiv? (← l.eval? dims symbols) (← r.eval? dims symbols)

------
-- Flattening
------

/- Apply an operation to two rows that are both constant. -/
def foldRows?
    (f : Int → Int → Option Int)
    (l r : Row) : Option Row :=
  if l.isConstant && r.isConstant then
    (f l.constant r.constant).map (Row.ofConstant l.width)
  else
    none

/-
  The expression as a row over the dimensions followed by the
  symbols.  Nothing is given for a product, quotient or
  remainder of terms that do not flatten to constants.
-/
def flatten? (numDims numSymbols : Nat) : Expr → Option Row
  | dim p =>
      if p < numDims then
        some (Row.unit (numDims + numSymbols) p)
      else
        none
  | symbol p =>
      if p < numSymbols then
        some (Row.unit (numDims + numSymbols) (numDims + p))
      else
        none
  | constant c => some (Row.ofConstant (numDims + numSymbols) c)
  | add l r => do
      let left ← l.flatten? numDims numSymbols
      let right ← r.flatten? numDims numSymbols
      left.add? right
  | mul l r => do
      let left ← l.flatten? numDims numSymbols
      let right ← r.flatten? numDims numSymbols
      if left.isConstant then
        right.scale? left.constant
      else if right.isConstant then
        left.scale? right.constant
      else
        none
  | mod l r => do
      let left ← l.flatten? numDims numSymbols
      let right ← r.flatten? numDims numSymbols
      foldRows? Word.floorMod? left right
  | floorDiv l r => do
      let left ← l.flatten? numDims numSymbols
      let right ← r.flatten? numDims numSymbols
      foldRows? Word.floorDiv? left right
  | ceilDiv l r => do
      let left ← l.flatten? numDims numSymbols
      let right ← r.flatten? numDims numSymbols
      foldRows? Word.ceilDiv? left right

/- Flattening; too many inputs to count are a fault. -/
def flatten
    (e : Expr)
    (numDims numSymbols : Nat) : Except Fault (Option Row) := do
  let _ ← Word.count 32 (numDims + numSymbols)
  return e.flatten? numDims numSymbols

end Expr

end Affine

end AffineIR
