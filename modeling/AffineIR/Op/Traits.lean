/-
  Structural traits of operations, and the kinds of memory
  effects.

  Both have a compact form in which every trait or effect is
  one bit of a number.

  Key definitions include:
    * `DeclaredEffect`
-/

namespace AffineIR

/- The number that a flag adds to a sum of bits. -/
def bitOf (flag : Bool) (position : Nat) : Nat :=
  if flag then Nat.pow 2 position else 0

structure Traits where
  /- Has to be the last operation of its block. -/
  terminator : Bool := false
  /- Has the effects of the operations nested in it. -/
  recursiveEffects : Bool := false
  /- Opens a new scope for affine reasoning. -/
  affineScope : Bool := false
  loop : Bool := false
  conditional : Bool := false
deriving DecidableEq, Inhabited, Repr

namespace Traits

def bits (t : Traits) : Nat :=
  bitOf t.terminator 0 + bitOf t.recursiveEffects 1 +
    bitOf t.affineScope 2 + bitOf t.loop 3 + bitOf t.conditional 4

def ofBits (n : Nat) : Traits where
  terminator := n.testBit 0
  recursiveEffects := n.testBit 1
  affineScope := n.testBit 2
  loop := n.testBit 3
  conditional := n.testBit 4

end Traits

inductive EffectKind where
  | read
  | write
  | allocate
  | free
deriving DecidableEq, Inhabited, Repr

/- An effect that an operation declares, on one operand or on
   memory that it does not name. -/
structure DeclaredEffect where
  kind : EffectKind
  operand : Option Nat
deriving DecidableEq, Inhabited, Repr

end AffineIR
