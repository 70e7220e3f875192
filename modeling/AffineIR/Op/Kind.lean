import AffineIR.Affine.IntegerSet
import AffineIR.Literal
import AffineIR.Op.Traits

/-
  Kinds of operations.

  The kind fixes what the operands of an operation mean:
    * an affine load has the buffer, then the map operands,
    * an affine store has the value, the buffer, then the map
      operands,
    * a loop has the operands of its lower bound, then those
      of its upper bound,
    * a conditional has the operands of its set; its regions
      are the two branches, the second of which may be empty,
    * an affine select has the operands of its set, then the
      values for a point inside and outside of it,
    * plain loads and stores have indices in place of the map
      operands.

  Key definitions include:
    * `Kind.name`
-/

namespace AffineIR

inductive Arith where
  | addi
  | subi
  | muli
  | addf
  | subf
  | mulf
deriving DecidableEq, Inhabited, Repr

namespace Arith

def isFloat : Arith → Bool
  | addf | subf | mulf => true
  | addi | subi | muli => false

def name : Arith → String
  | addi => "arith.addi"
  | subi => "arith.subi"
  | muli => "arith.muli"
  | addf => "arith.addf"
  | subf => "arith.subf"
  | mulf => "arith.mulf"

end Arith

inductive Comparison where
  | eq
  | ne
  | lt
  | le
  | gt
  | ge
deriving DecidableEq, Inhabited, Repr

namespace Comparison

def name : Comparison → String
  | eq => "eq"
  | ne => "ne"
  | lt => "lt"
  | le => "le"
  | gt => "gt"
  | ge => "ge"

/- Whether the predicate holds of two things in this order. -/
def accepts : Comparison → Ordering → Bool
  | eq, o => o.isEq
  | ne, o => o.isNe
  | lt, o => o.isLT
  | le, o => o.isLE
  | gt, o => o.isGT
  | ge, o => o.isGE

end Comparison

inductive Kind where
  | constant (value : Literal)
  | arith (fn : Arith)
  | compare (predicate : Comparison)
  | select
  | apply (map : Affine.Map)
  | affineLoad (map : Affine.Map)
  | affineStore (map : Affine.Map)
  | loop (lower upper : Affine.Map) (step : Int)
  | conditional (set : Affine.IntegerSet)
  | affineSelect (set : Affine.IntegerSet)
  | yield
  | alloc
  | dealloc
  | load
  | store
  | call (callee : String)
  /- Effects that are not declared are unknown. -/
  | generic
      (name : String)
      (effects : Option (List DeclaredEffect))
      (traits : Traits)
  | branch
  | condBranch
  | ret
deriving DecidableEq, Inhabited, Repr

namespace Kind

def traits : Kind → Traits
  | yield | branch | condBranch | ret => { terminator := true }
  | loop _ _ _ => { recursiveEffects := true, loop := true }
  | conditional _ => { recursiveEffects := true, conditional := true }
  | generic _ _ traits => traits
  | _ => {}

def name : Kind → String
  | constant _ => "arith.constant"
  | arith fn => fn.name
  | compare _ => "arith.cmp"
  | select => "arith.select"
  | apply _ => "affine.apply"
  | affineLoad _ => "affine.load"
  | affineStore _ => "affine.store"
  | loop _ _ _ => "affine.for"
  | conditional _ => "affine.if"
  | affineSelect _ => "affine.select"
  | yield => "affine.yield"
  | alloc => "memref.alloc"
  | dealloc => "memref.dealloc"
  | load => "memref.load"
  | store => "memref.store"
  | call _ => "call"
  | generic name _ _ => name
  | branch => "cf.br"
  | condBranch => "cf.cond_br"
  | ret => "return"

def isTerminator (k : Kind) : Bool :=
  k.traits.terminator

def isAffineLoad : Kind → Bool
  | affineLoad _ => true
  | _ => false

def isAffineStore : Kind → Bool
  | affineStore _ => true
  | _ => false

def isLoop : Kind → Bool
  | loop _ _ _ => true
  | _ => false

def isConditional : Kind → Bool
  | conditional _ => true
  | _ => false

/- The map of an affine access. -/
def accessMap? : Kind → Option Affine.Map
  | affineLoad map => some map
  | affineStore map => some map
  | _ => none

/- The set of a conditional or an affine select. -/
def integerSet? : Kind → Option Affine.IntegerSet
  | conditional set => some set
  | affineSelect set => some set
  | _ => none

end Kind

end AffineIR
