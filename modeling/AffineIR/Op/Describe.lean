import AffineIR.Op.Kind
import AffineIR.Text.Quoted

/-
  Full descriptions of operation kinds with all their parts,
  for messages about an operation of an unexpected kind.

  Key definitions include:
    * `Kind.describe`
-/

namespace AffineIR

namespace Describe

/- A name with named parts between braces. -/
def record (name : String) (parts : List (String × String)) : String :=
  name ++ " \x7b " ++
    ", ".intercalate (parts.map fun p => p.1 ++ ": " ++ p.2) ++ " \x7d"

/- A name with parts between parentheses. -/
def tuple (name : String) (parts : List String) : String :=
  name ++ "(" ++ ", ".intercalate parts ++ ")"

def list (parts : List String) : String :=
  "[" ++ ", ".intercalate parts ++ "]"

def option (part : Option String) : String :=
  match part with
  | some p => tuple "Some" [p]
  | none => "None"

def bool (b : Bool) : String :=
  if b then "true" else "false"

def expr : Affine.Expr → String
  | .dim p => tuple "Dim" [toString p]
  | .symbol p => tuple "Symbol" [toString p]
  | .constant c => tuple "Constant" [toString c]
  | .add l r => tuple "Add" [expr l, expr r]
  | .mul l r => tuple "Mul" [expr l, expr r]
  | .mod l r => tuple "Mod" [expr l, expr r]
  | .floorDiv l r => tuple "FloorDiv" [expr l, expr r]
  | .ceilDiv l r => tuple "CeilDiv" [expr l, expr r]

def map (m : Affine.Map) : String :=
  record "AffineMap"
    [ ("num_dims", toString m.numDims),
      ("num_symbols", toString m.numSymbols),
      ("results", list (m.results.map expr)) ]

def set (s : Affine.IntegerSet) : String :=
  record "IntegerSet"
    [ ("num_dims", toString s.numDims),
      ("num_symbols", toString s.numSymbols),
      ("constraints", list (s.constraints.map fun c => expr c.expr)),
      ("eq_flags", list (s.constraints.map fun c => bool c.isEquality)) ]

def arith : Arith → String
  | .addi => "AddI"
  | .subi => "SubI"
  | .muli => "MulI"
  | .addf => "AddF"
  | .subf => "SubF"
  | .mulf => "MulF"

def comparison : Comparison → String
  | .eq => "Eq"
  | .ne => "Ne"
  | .lt => "Lt"
  | .le => "Le"
  | .gt => "Gt"
  | .ge => "Ge"

def effectKind : EffectKind → String
  | .read => "Read"
  | .write => "Write"
  | .allocate => "Allocate"
  | .free => "Free"

def effect (e : DeclaredEffect) : String :=
  record "GenericEffect"
    [ ("kind", effectKind e.kind),
      ("operand", option (e.operand.map toString)) ]

def traits (t : Traits) : String :=
  let names :=
    [ (t.terminator, "TERMINATOR"),
      (t.recursiveEffects, "RECURSIVE_EFFECTS"),
      (t.affineScope, "AFFINE_SCOPE"),
      (t.loop, "LOOP"),
      (t.conditional, "CONDITIONAL") ].filterMap
        fun (present, name) => if present then some name else none
  tuple "OpTraits"
    [if names.isEmpty then "0x0" else " | ".intercalate names]

/- A kind with all its parts. -/
def kind : Kind → String
  | .constant value => tuple "Constant" [value.typedText]
  | .arith fn => tuple "Arith" [arith fn]
  | .compare predicate => tuple "Cmp" [comparison predicate]
  | .select => "Select"
  | .apply m => record "AffineApply" [("map", map m)]
  | .affineLoad m => record "AffineLoad" [("map", map m)]
  | .affineStore m => record "AffineStore" [("map", map m)]
  | .loop lower upper step =>
      record "AffineFor"
        [ ("lower", map lower), ("upper", map upper),
          ("step", toString step) ]
  | .conditional s => record "AffineIf" [("set", set s)]
  | .affineSelect s => record "AffineSelect" [("set", set s)]
  | .yield => "AffineYield"
  | .alloc => "Alloc"
  | .dealloc => "Dealloc"
  | .load => "Load"
  | .store => "Store"
  | .call callee => record "Call" [("callee", Quoted.text callee)]
  | .generic name effects t =>
      record "Generic"
        [ ("name", Quoted.text name),
          ("effects",
            option (effects.map fun es => list (es.map effect))),
          ("traits", traits t) ]
  | .branch => "Branch"
  | .condBranch => "CondBranch"
  | .ret => "Return"

end Describe

def Kind.describe (k : Kind) : String :=
  Describe.kind k

end AffineIR
