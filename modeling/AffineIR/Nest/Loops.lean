import AffineIR.Graph.Ancestry

/-
  The loops around an operation.

  Only loops inside the same affine scope count.  The scope of
  an operation is the nearest operation around it that opens
  one, or else the function body.

  Key definitions include:
    * `Kind.constantLower?`, `Kind.constantUpper?`, `Kind.step?`
-/

namespace AffineIR

namespace Kind

/- The lower bound of a loop, if it is a number. -/
def constantLower? : Kind → Option Int
  | loop lower _ _ => lower.constant?
  | _ => none

/- The upper bound of a loop, if it is a number. -/
def constantUpper? : Kind → Option Int
  | loop _ upper _ => upper.constant?
  | _ => none

def step? : Kind → Option Int
  | loop _ _ step => some step
  | _ => none

end Kind

namespace Graph

variable (g : Graph)

/- The first operation of a list that opens a scope. -/
def firstScope (l : Lineage) : List OpId → Except Fault (Option OpId)
  | [] => l.atTop none
  | h :: outer => do
      if (← g.kind h).traits.affineScope then return some h
      else firstScope l outer

/- The nearest operation around another one that opens a scope. -/
def affineScope? (h : OpId) : Except Fault (Option OpId) :=
  let l := g.lineage h
  g.firstScope l (l.ops.drop 1)

/- The loops of a list up to the first scope, in the same order. -/
def loopsInScope (l : Lineage) : List OpId → Except Fault (List OpId)
  | [] => l.atTop []
  | h :: outer => do
      let kind ← g.kind h
      if kind.traits.affineScope then
        return []
      else
        let loops ← loopsInScope l outer
        return if kind.isLoop then h :: loops else loops

/- The loops around an operation in its scope, outermost first. -/
def enclosingLoops (h : OpId) : Except Fault (List OpId) := do
  let l := g.lineage h
  return (← g.loopsInScope l (l.ops.drop 1)).reverse

/- The length of the longest common beginning of two lists. -/
def commonLength : List OpId → List OpId → Nat
  | a :: as, b :: bs => if a = b then commonLength as bs + 1 else 0
  | _, _ => 0

/- How many loops two operations have around them in common. -/
def numCommonLoops (a b : OpId) : Except Fault Nat := do
  return commonLength (← g.enclosingLoops a) (← g.enclosingLoops b)

end Graph

end AffineIR
