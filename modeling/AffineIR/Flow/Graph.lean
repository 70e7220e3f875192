import AffineIR.Fault

/-
  Flow graphs: numbered nodes with edges between them and an
  entry.

  Every edge is listed at both of its ends, once, in the order
  in which the edges were added.

  Key definitions include:
    * `FlowGraph.reversed`
-/

namespace AffineIR

structure FlowNode where
  preds : List Nat := []
  succs : List Nat := []
deriving DecidableEq, Inhabited, Repr

structure FlowGraph where
  nodes : Array FlowNode := #[]
  entry : Nat := 0
deriving Inhabited, Repr

namespace FlowGraph

def size (g : FlowGraph) : Nat :=
  g.nodes.size

/- The successors of a node; none beyond the last node. -/
def succs (g : FlowGraph) (n : Nat) : List Nat :=
  (g.nodes.getD n {}).succs

def preds (g : FlowGraph) (n : Nat) : List Nat :=
  (g.nodes.getD n {}).preds

/- A graph with `n` nodes and no edges. -/
def ofSize (n : Nat) (entry : Nat) : FlowGraph :=
  ⟨Array.replicate n {}, entry⟩

/- Add a node without edges; its number is the old size. -/
def addNode (g : FlowGraph) : FlowGraph :=
  { g with nodes := g.nodes.push {} }

/- Append a number to a list that does not hold it yet. -/
def appendNew (xs : List Nat) (x : Nat) : List Nat :=
  if xs.contains x then xs else xs ++ [x]

/- Add an edge between existing nodes; a second copy changes nothing. -/
def addEdge (g : FlowGraph) (source target : Nat) : FlowGraph :=
  let withSucc :=
    g.nodes.modify source fun n =>
      { n with succs := appendNew n.succs target }
  let withPred :=
    withSucc.modify target fun n =>
      { n with preds := appendNew n.preds source }
  { g with nodes := withPred }

/- Add an edge; both ends have to be nodes. -/
def addEdgeChecked
    (g : FlowGraph)
    (source target : Nat) : Except Fault FlowGraph :=
  if source < g.size ∧ target < g.size then
    .ok (g.addEdge source target)
  else
    .error .outOfRange

/-
  The edges of one node turned round; a node without
  successors is entered from `exit`.
-/
def addReversed (g : FlowGraph) (exit : Nat) (acc : FlowGraph) (n : Nat) :
    FlowGraph :=
  let start := if (g.succs n).isEmpty then acc.addEdge exit n else acc
  (g.succs n).foldl (fun acc s => acc.addEdge s n) start

/-
  The reversed graph.  One more node is its entry, from which
  all nodes without successors are reached.
-/
def reversed (g : FlowGraph) : FlowGraph :=
  (List.range g.size).foldl (g.addReversed g.size)
    (ofSize (g.size + 1) g.size)

end FlowGraph

end AffineIR
