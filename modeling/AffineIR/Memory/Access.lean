import AffineIR.Graph.Parts
import AffineIR.LinearForm

/-
  Affine accesses in closed form.

  The indices of an access are composed through constants and
  applied maps until they are linear forms over other values.
  Two accesses with equal forms touch the same element.

  Key definitions include:
    * `Access.sameElement`
-/

namespace AffineIR

/- A linear form over the values of a graph. -/
abbrev ValueForm :=
  LinearForm "v"

/- Add multiples of the forms of the operands to a form. -/
def addOperands
    (formOf : ValueId → Except Fault ValueForm)
    (acc : ValueForm) :
    List (Int × ValueId) → Except Fault (Option ValueForm)
  | [] => .ok (some acc)
  | (coeff, operand) :: rest =>
      if coeff = 0 then
        addOperands formOf acc rest
      else do
        match (← formOf operand).scale? coeff with
        | none => return none
        | some multiple =>
            match acc.add? multiple with
            | none => return none
            | some sum => addOperands formOf sum rest

/- A row with the forms of the operands in place of its variables. -/
def composeRow
    (formOf : ValueId → Except Fault ValueForm)
    (row : Row)
    (operands : List ValueId) : Except Fault (Option ValueForm) :=
  if row.width = operands.length then
    addOperands formOf (.ofConstant row.constant)
      (row.coeffs.zip operands)
  else
    .ok none

namespace Graph

variable (g : Graph)

/- The form of a value through a number of definitions. -/
def linearizeUpTo : Nat → ValueId → Except Fault ValueForm
  | 0, _ => .error .endless
  | depth + 1, v => do
      match ← g.definingOp? v with
      | none => return .leaf v
      | some h =>
          let o ← g.op h
          match o.kind with
          | .constant lit =>
              match lit.toInt? with
              | none => return .leaf v
              | some c =>
                  if (← g.valueTy v).isInteger then return .ofConstant c
                  else return .leaf v
          | .apply ⟨numDims, numSymbols, [e]⟩ =>
              match ← e.flatten numDims numSymbols with
              | none => return .leaf v
              | some row =>
                  let form ← composeRow (linearizeUpTo depth) row o.operands
                  return form.getD (.leaf v)
          | _ => return .leaf v

/-
  The closed form of a value: integer constants and applied
  maps are expanded, everything else stands for itself.
-/
def linearize (v : ValueId) : Except Fault ValueForm :=
  g.linearizeUpTo g.depthBound v

/- The closed form of an expression over operands. -/
def composeExpr
    (e : Affine.Expr)
    (numDims numSymbols : Nat)
    (operands : List ValueId) : Except Fault (Option ValueForm) := do
  match ← e.flatten numDims numSymbols with
  | none => return none
  | some row => composeRow g.linearize row operands

end Graph

/- An affine load or store with its composed indices. -/
structure Access where
  op : OpId
  memref : ValueId
  isStore : Bool
  /- One entry per result of the map; none if it is not affine. -/
  indices : List (Option ValueForm)
deriving Inhabited, Repr

namespace Access

def rank (a : Access) : Nat :=
  a.indices.length

def isAffine (a : Access) : Bool :=
  a.indices.all Option.isSome

/- Whether two indices are known and equal. -/
def sameIndex : Option ValueForm → Option ValueForm → Bool
  | some a, some b => a = b
  | _, _ => false

/- Whether two accesses provably touch the same element. -/
def sameElement (a b : Access) : Bool :=
  a.memref = b.memref && a.rank = b.rank &&
    (a.indices.zip b.indices).all fun (i, j) => sameIndex i j

end Access

namespace Graph

/- The access that an operation is, if it is one. -/
def access? (g : Graph) (h : OpId) : Except Fault (Option Access) := do
  let o ← g.op h
  match o.kind.accessMap? with
  | none => return none
  | some map =>
      let operands ← o.accessIndices
      let indices ← map.results.mapM fun e =>
        g.composeExpr e map.numDims map.numSymbols operands
      return o.memref?.map fun memref =>
        ⟨h, memref, o.kind.isAffineStore, indices⟩

end Graph

end AffineIR
