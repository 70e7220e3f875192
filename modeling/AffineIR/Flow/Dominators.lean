import AffineIR.Flow.Order

/-
  Dominators of a flow graph.

  A node dominates another one if every path from the entry to
  the other passes through it.  Nodes that are not reachable
  are dominated by nothing.

  Every reachable node is given a guess for its immediate
  dominator.  The nodes are visited in reverse post-order, and
  a node is given the nearest node above all of its
  predecessors that have a guess, until no guess changes any
  more.  A node that is compared with another one is the lower
  one if it comes later in reverse post-order.

  Key definitions include:
    * `DominatorTree.immediate?`
-/

namespace AffineIR

/- The guess for the immediate dominator of each node. -/
structure Guesses where
  slots : Array (Option Nat) := #[]
deriving DecidableEq, Inhabited, Repr

namespace Guesses

/- The guess for a node, if it has one. -/
def get? (u : Guesses) (n : Nat) : Option Nat :=
  u.slots[n]?.join

/- Give a node a new guess. -/
def set (u : Guesses) (n p : Nat) : Guesses :=
  ⟨u.slots.setIfInBounds n (some p)⟩

/- No guesses but for the entry, which is given itself. -/
def initial (size entry : Nat) : Guesses :=
  set ⟨Array.replicate size none⟩ entry entry

/-
  A node and the nodes above it, at most `fuel` of them.  The
  walk ends at a node that was given itself.
-/
def climb (u : Guesses) : Nat → Nat → List Nat
  | 0, _ => []
  | fuel + 1, n =>
      match u.get? n with
      | none => []
      | some p => if p = n then [n] else n :: climb u fuel p

end Guesses

namespace Dominators

/-
  The nearest node above both of two nodes.  The lower one of
  them moves up until they meet.
-/
def meet (order : List Nat) (u : Guesses) :
    Nat → Nat → Nat → Except Fault Nat
  | 0, _, _ => .error .endless
  | fuel + 1, a, b =>
      if a = b then
        .ok a
      else if order.idxOf b < order.idxOf a then
        match u.get? a with
        | some p => meet order u fuel p b
        | none => .error .outOfRange
      else if order.idxOf a < order.idxOf b then
        match u.get? b with
        | some p => meet order u fuel a p
        | none => .error .outOfRange
      else
        .error .endless

/- No walk up is longer than the order. -/
def meetFuel (order : List Nat) : Nat :=
  2 * order.length + 1

/- The nearest node above all predecessors that have a guess. -/
def guess
    (g : FlowGraph)
    (order : List Nat)
    (u : Guesses)
    (n : Nat) : Except Fault (Option Nat) :=
  match (g.preds n).filter fun p => (u.get? p).isSome with
  | [] => .ok none
  | first :: rest =>
      some <$> rest.foldlM (meet order u (meetFuel order)) first

/- Guess anew for a node; the flag says whether a guess changed. -/
def visit
    (g : FlowGraph)
    (order : List Nat)
    (s : Guesses × Bool)
    (n : Nat) : Except Fault (Guesses × Bool) := do
  match ← guess g order s.1 n with
  | none => return s
  | some p =>
      if s.1.get? n = some p then return s
      else return (s.1.set n p, true)

/- Guess anew for all nodes but the entry. -/
def pass
    (g : FlowGraph)
    (order : List Nat)
    (u : Guesses) : Except Fault (Guesses × Bool) :=
  (order.drop 1).foldlM (visit g order) (u, false)

/- Make passes until nothing changes, at most `fuel` of them. -/
def settle (g : FlowGraph) (order : List Nat) :
    Nat → Guesses → Except Fault Guesses
  | 0, _ => .error .endless
  | fuel + 1, u => do
      let (next, changed) ← pass g order u
      if changed then settle g order fuel next else return next

/- Every pass but the last moves a guess up. -/
def settleFuel (order : List Nat) : Nat :=
  order.length * order.length + 1

end Dominators

structure DominatorTree where
  entry : Nat
  guesses : Guesses
deriving Inhabited, Repr

namespace DominatorTree

/- The dominators of all nodes of a graph. -/
def ofGraph (g : FlowGraph) : Except Fault DominatorTree := do
  if g.size = 0 then
    return ⟨g.entry, {}⟩
  else
    let order ← g.reversePostOrder
    let guesses ←
      Dominators.settle g order (Dominators.settleFuel order)
        (.initial g.size g.entry)
    return ⟨g.entry, guesses⟩

def isReachable (t : DominatorTree) (n : Nat) : Bool :=
  (t.guesses.get? n).isSome

/- The dominators of a node, from the node up. -/
def dominators (t : DominatorTree) (n : Nat) : List Nat :=
  t.guesses.climb t.guesses.slots.size n

def dominates (t : DominatorTree) (a b : Nat) : Bool :=
  (t.dominators b).contains a

def properlyDominates (t : DominatorTree) (a b : Nat) : Bool :=
  a != b && t.dominates a b

/- The immediate dominator; the entry has none. -/
def immediate? (t : DominatorTree) (n : Nat) : Option Nat :=
  (t.guesses.get? n).filter (· ≠ n)

end DominatorTree

end AffineIR
