import AffineIR.Graph.Basic

/-
  Walks up the nesting of operations.

  The lineage of an operation lists the operation and the
  operations around it with their places, from the inside out.
  All questions about ancestors are answered from it.  A
  lineage that breaks off remembers why, so that an answer
  found before the break still counts.

  Key definitions include:
    * `Graph.ancestorInRegion?`, `Graph.ancestorInBlock?`
-/

namespace AffineIR

/- An operation with the block and the region that hold it. -/
structure Site where
  op : OpId
  block : BlockId
  region : RegionId
deriving DecidableEq, Inhabited, Repr

structure Lineage where
  /- The operations whose places are known, innermost first. -/
  sites : List Site := []
  /- The next operation outwards, if its place is not known. -/
  stuck : Option OpId := none
  /- Why the outermost operation was not reached. -/
  fault : Option Fault := none
deriving Inhabited, Repr

namespace Lineage

/- The operations of a lineage, innermost first. -/
def ops (l : Lineage) : List OpId :=
  l.sites.map Site.op ++ l.stuck.toList

/- An answer that holds when the walk got to the outside. -/
def atTop {α : Type} (l : Lineage) (answer : α) : Except Fault α :=
  match l.fault with
  | some f => .error f
  | none => .ok answer

/- All places, if the walk got to the outside. -/
def complete (l : Lineage) : Except Fault (List Site) :=
  l.atTop l.sites

end Lineage

namespace Graph

variable (g : Graph)

/- The place of an operation. -/
def site (h : OpId) : Except Fault Site := do
  let block ← g.parentBlock h
  return ⟨h, block, (← g.block block).parent⟩

/- The lineage of an operation, up to a number of levels. -/
def lineageUpTo : Nat → OpId → Lineage
  | 0, h => { stuck := some h, fault := some .endless }
  | levels + 1, h =>
      match g.site h with
      | .error f => { stuck := some h, fault := some f }
      | .ok s =>
          match g.region s.region with
          | .error f => { sites := [s], fault := some f }
          | .ok r =>
              match r.parent with
              | none => { sites := [s] }
              | some p =>
                  let outer := lineageUpTo levels p
                  { outer with sites := s :: outer.sites }

def lineage (h : OpId) : Lineage :=
  g.lineageUpTo g.depthBound h

/- Whether an operation is another one or encloses it. -/
def isAncestor (ancestor h : OpId) : Except Fault Bool :=
  let l := g.lineage h
  if ancestor ∈ l.ops then .ok true else l.atTop false

/- Whether an operation encloses another one. -/
def isProperAncestor (ancestor h : OpId) : Except Fault Bool :=
  if ancestor = h then .ok false else g.isAncestor ancestor h

/- Whether a region is another one or encloses it. -/
def regionIsAncestor (region other : RegionId) : Except Fault Bool := do
  if region = other then
    return true
  else
    match (← g.region other).parent with
    | none => return false
    | some p =>
        let l := g.lineage p
        if l.sites.any (·.region = region) then return true
        else l.atTop false

/- The ancestor of an operation that stands directly in a region. -/
def ancestorInRegion? (region : RegionId) (h : OpId) :
    Except Fault (Option OpId) :=
  let l := g.lineage h
  match l.sites.find? (·.region = region) with
  | some s => .ok (some s.op)
  | none => l.atTop none

/- The ancestor of an operation that stands in a block. -/
def ancestorInBlock? (block : BlockId) (h : OpId) :
    Except Fault (Option OpId) :=
  let l := g.lineage h
  match l.sites.find? (·.block = block) with
  | some s => .ok (some s.op)
  | none => l.atTop none

end Graph

end AffineIR
