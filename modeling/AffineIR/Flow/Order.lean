import AffineIR.Flow.Graph

/-
  Depth-first order of a flow graph.

  The search keeps a stack of nodes, each with the successors
  it still has to look at.  A node is put in front of the
  result when its successors are used up, so the result is the
  reverse of the post-order.

  Key definitions include:
    * `FlowGraph.reversePostOrder`
-/

namespace AffineIR

namespace FlowGraph

/-
  Run the search for at most `fuel` moves.  A move takes the
  next successor of the topmost node or finishes that node.
-/
def search (next : Nat → List Nat) :
    Nat → List (Nat × List Nat) → List Nat → List Nat → List Nat
  | 0, _, _, order => order
  | _ + 1, [], _, order => order
  | fuel + 1, (n, []) :: stack, seen, order =>
      search next fuel stack seen (n :: order)
  | fuel + 1, (n, s :: rest) :: stack, seen, order =>
      if seen.contains s then
        search next fuel ((n, rest) :: stack) seen order
      else
        search next fuel ((s, next s) :: (n, rest) :: stack)
          (s :: seen) order

/- As many moves as there are nodes and edges. -/
def searchFuel (g : FlowGraph) : Nat :=
  g.nodes.foldl (fun moves n => moves + n.succs.length + 1) 1

/-
  The nodes reachable from the entry in reverse post-order.
  A graph with nodes has to have its entry among them.
-/
def reversePostOrder (g : FlowGraph) : Except Fault (List Nat) :=
  if g.size = 0 then
    .ok []
  else if g.entry < g.size then
    .ok (search g.succs g.searchFuel
      [(g.entry, g.succs g.entry)] [g.entry] [])
  else
    .error .outOfRange

end FlowGraph

end AffineIR
