import AffineIR.Proofs.Flow.Regions

/-
  Post-dominance is dominance in the reversed graph.

  The reversed graph has the edges of a graph the other way
  round, and edges from one more node to all nodes without
  successors.  So a path of the reversed graph from its entry
  is a path that leaves at a node without successors, read
  backwards.

  Main result: `DominatorTree.ofGraph_reversed`
-/

namespace AffineIR

open List

namespace FlowGraph

variable {g : FlowGraph} {a b c n exit : Nat} {nodes : List Nat}

/- A path from a node to one without successors. -/
def Leaves (g : FlowGraph) (b : Nat) (nodes : List Nat) : Prop :=
  ∃ e, g.Path b e nodes ∧ g.succs e = []

theorem Leaves.of_succs (hNone : g.succs b = []) : g.Leaves b [b] := ⟨b, .single b, hNone⟩

/- A path may start one node earlier. -/
theorem Path.cons (hEdge : b ∈ g.succs a) (hPath : g.Path b c nodes) : g.Path a c (a :: nodes) := by
  induction hPath with
  | single => exact .step (.single a) hEdge
  | step _ hNext ih => exact .step ih hNext

theorem Leaves.cons (hEdge : b ∈ g.succs a)
    (hLeaves : g.Leaves b nodes) : g.Leaves a (a :: nodes) := by
  obtain ⟨e, hPath, hNone⟩ := hLeaves
  exact ⟨e, hPath.cons hEdge, hNone⟩

/-
  A property of the end of a path that passes to the sources of
  edges holds at its start.
-/
theorem Path.back {p : Nat → List Nat → Prop} (hPath : g.Path a c nodes) (hLast : p c [c])
    (hStep : ∀ {x y ns}, y ∈ g.succs x → p y ns → p x (x :: ns)) : p a nodes := by
  -- the induction takes off the last node, the tail keeps the rest
  have hTail : ∀ tail, p c (c :: tail) → p a (nodes ++ tail) := by
    clear hLast
    induction hPath with
    | single => exact fun _ hHere => hHere
    | @step b d nodes _ hEdge ih =>
      intro tail hHere
      rw [append_assoc]
      exact ih (d :: tail) (hStep hEdge hHere)
  simpa using hTail [] hLast

------
-- Edges of the reversed graph
------

/- The sources of the edges to a node in the reversed graph. -/
def reversedSources (g : FlowGraph) (exit n : Nat) : List Nat :=
  if (g.succs n).isEmpty then [exit] else g.succs n

/- All edges of the reversed graph. -/
def reversedEdges (g : FlowGraph) : List (Nat × Nat) :=
  (range g.size).flatMap fun n => (g.reversedSources g.size n).map (·, n)

theorem reversed_eq (g : FlowGraph) : g.reversed =
    g.reversedEdges.foldl (fun acc e => acc.addEdge e.1 e.2) (ofSize (g.size + 1) g.size) := by
  unfold reversed reversedEdges
  rw [foldl_flatMap]
  congr 1
  funext acc n
  rw [foldl_map]
  unfold addReversed reversedSources
  dsimp only
  split
  next hNone =>
    rw [isEmpty_iff.mp hNone]
    rfl
  next => rfl

theorem mem_reversedSources_iff :
    a ∈ g.reversedSources exit n ↔ a ∈ g.succs n ∨ a = exit ∧ g.succs n = [] := by
  unfold reversedSources
  split
  next hNone => simp [isEmpty_iff.mp hNone]
  next hSome =>
    rw [List.isEmpty_iff] at hSome
    simp [hSome]

theorem succs_ofSize (n entry a : Nat) : (ofSize n entry).succs a = [] := by
  unfold succs ofSize
  rw [Array.getD_eq_getD_getElem?, Array.getElem?_replicate]
  split <;> rfl

theorem mem_reversedEdges_iff : (a, b) ∈ g.reversedEdges ↔
    b < g.size ∧ (a ∈ g.succs b ∨ a = g.size ∧ g.succs b = []) := by
  simp [reversedEdges, mem_reversedSources_iff]

/-
  The reversed graph is built like every other one.  Its entry
  is the node that was added.
-/
theorem Built.reversed (hBuilt : g.Built) :
    g.reversed.Built ∧ g.reversed.size = g.size + 1 ∧ g.reversed.entry = g.size ∧
      ∀ {a b}, b ∈ g.reversed.succs a ↔
        b < g.size ∧ (a ∈ g.succs b ∨ a = g.size ∧ g.succs b = []) := by
  have hInside : ∀ e ∈ g.reversedEdges, e.1 < (ofSize (g.size + 1) g.size).size ∧
      e.2 < (ofSize (g.size + 1) g.size).size := by
    rintro ⟨s, n⟩ hMem
    rw [size_ofSize]
    obtain ⟨hLess, hEdge | ⟨rfl, _⟩⟩ := mem_reversedEdges_iff.mp hMem
    · have hSource := (hBuilt.inside hEdge).2
      omega
    · omega
  obtain ⟨hReversed, hSize, hEntry, hEdges⟩ := (built_ofSize ..).addEdges hInside
  rw [← reversed_eq] at hReversed hSize hEntry hEdges
  refine ⟨hReversed, hSize.trans (size_ofSize ..), hEntry, ?_⟩
  intro a b
  rw [hEdges, succs_ofSize, mem_reversedEdges_iff]
  simp

theorem mem_succs_reversed_iff (hBuilt : g.Built) :
    b ∈ g.reversed.succs a ↔ b < g.size ∧ (a ∈ g.succs b ∨ a = g.size ∧ g.succs b = []) :=
  hBuilt.reversed.2.2.2

------
-- Paths of the reversed graph
------

theorem Path.lt_size (hBuilt : g.Built) (hPath : g.Path a b nodes)
    (hInside : a < g.size) : b < g.size := by
  cases hPath with
  | single => exact hInside
  | step _ hEdge => exact (hBuilt.inside hEdge).2

/- A way out, read backwards from the entry of the reversed graph. -/
theorem Leaves.path_reversed (hBuilt : g.Built) (hInside : b < g.size)
    (hLeaves : g.Leaves b nodes) : g.reversed.Path g.size b (g.size :: nodes.reverse) := by
  obtain ⟨e, hPath, hNone⟩ := hLeaves
  have hExit : g.reversed.Path g.size e [g.size, e] :=
    .step (.single g.size) ((mem_succs_reversed_iff hBuilt).mpr
      ⟨hPath.lt_size hBuilt hInside, .inr ⟨rfl, hNone⟩⟩)
  refine hPath.back (p := fun n ns => g.reversed.Path g.size n (g.size :: ns.reverse)) hExit ?_
  intro x y ns hEdge hThere
  have hTurned := (mem_succs_reversed_iff hBuilt).mpr ⟨(hBuilt.inside hEdge).1, .inl hEdge⟩
  rw [reverse_cons, ← cons_append]
  exact hThere.step hTurned

/- What a path from the entry of the reversed graph passes. -/
theorem leaves_of_path_reversed (hBuilt : g.Built) (hPath : g.reversed.Path g.size b nodes) :
    b = g.size ∧ nodes = [g.size] ∨
      b < g.size ∧ ∃ way, g.Leaves b way ∧ nodes = g.size :: way.reverse := by
  generalize hStart : g.size = start at hPath
  induction hPath with
  | single => exact .inl ⟨rfl, rfl⟩
  | @step p c nodes _ hEdge ih =>
    subst hStart
    obtain ⟨hLess, hEdge | ⟨rfl, hNone⟩⟩ := (mem_succs_reversed_iff hBuilt).mp hEdge
    · rcases ih with ⟨rfl, _⟩ | ⟨_, way, hLeaves, rfl⟩
      · -- no edge leads to a node beyond the last one
        exact absurd (hBuilt.inside hEdge).2 (lt_irrefl _)
      · exact .inr ⟨hLess, c :: way, hLeaves.cons hEdge, by simp⟩
    · rcases ih with ⟨_, rfl⟩ | ⟨hInside, _⟩
      · exact .inr ⟨hLess, [c], .of_succs hNone, rfl⟩
      · exact absurd hInside (lt_irrefl _)

theorem path_reversed_iff (hBuilt : g.Built) (hInside : b < g.size) :
    g.reversed.Path g.size b nodes ↔ ∃ way, g.Leaves b way ∧ nodes = g.size :: way.reverse := by
  constructor
  · intro hPath
    rcases leaves_of_path_reversed hBuilt hPath with ⟨rfl, _⟩ | ⟨_, hWay⟩
    · exact absurd hInside (lt_irrefl _)
    · exact hWay
  · rintro ⟨way, hLeaves, rfl⟩
    exact hLeaves.path_reversed hBuilt hInside

/- There is a way out, and every way out passes the first node. -/
def PostDominates (g : FlowGraph) (a b : Nat) : Prop :=
  (∃ way, g.Leaves b way) ∧ ∀ way, g.Leaves b way → a ∈ way

theorem dominates_reversed_iff (hBuilt : g.Built) (hOther : a ≠ g.size)
    (hInside : b < g.size) : g.reversed.Dominates a b ↔ g.PostDominates a b := by
  unfold Dominates Reachable PostDominates
  simp only [hBuilt.reversed.2.2.1, path_reversed_iff hBuilt hInside]
  constructor
  · rintro ⟨⟨_, way, hLeaves, _⟩, hAll⟩
    refine ⟨⟨way, hLeaves⟩, ?_⟩
    intro way' hLeaves'
    have hMem := hAll _ ⟨way', hLeaves', rfl⟩
    exact mem_reverse.mp (mem_of_ne_of_mem hOther hMem)
  · rintro ⟨⟨way, hLeaves⟩, hAll⟩
    refine ⟨⟨_, way, hLeaves, rfl⟩, ?_⟩
    rintro nodes ⟨way', hLeaves', rfl⟩
    exact mem_cons_of_mem _ (mem_reverse.mpr (hAll way' hLeaves'))

end FlowGraph

namespace DominatorTree

open FlowGraph

/-
  The tree of the reversed graph exists and says which nodes
  lie on every way out of a node.  A node without a way out is
  below no node, not even itself.
-/
theorem ofGraph_reversed (g : FlowGraph) (hBuilt : g.Built) :
    ∃ t, ofGraph g.reversed = .ok t ∧ (∀ a b, a < g.size → b < g.size →
        (t.dominates a b = true ↔ g.PostDominates a b)) ∧
      ∀ b, b < g.size → (¬∃ way, g.Leaves b way) → ∀ a, t.dominates a b = false := by
  obtain ⟨hReversed, hSize, hEntry, _⟩ := hBuilt.reversed
  obtain ⟨t, hTree, hDominates⟩ := exists_ofGraph hReversed (by omega)
  refine ⟨t, hTree, ?_, ?_⟩
  · intro a b hFirst hSecond
    rw [hDominates, dominates_reversed_iff hBuilt (Nat.ne_of_lt hFirst) hSecond]
  · intro b hInside hStuck a
    rw [Bool.eq_false_iff]
    intro hTrue
    obtain ⟨nodes, hPath⟩ := ((hDominates a b).mp hTrue).1
    rw [hEntry] at hPath
    obtain ⟨way, hLeaves, _⟩ := (path_reversed_iff hBuilt hInside).mp hPath
    exact hStuck ⟨way, hLeaves⟩

/-
  Two ways lead from the first node to the fourth one, which
  has no successors.  On the second way there is also an edge
  to a node that only leads to itself.
-/
def trappedGraph : FlowGraph := [(0, 1), (0, 2), (1, 3), (2, 3), (2, 4), (4, 4)].foldl
    (fun g e => g.addEdge e.1 e.2) (ofSize 5 0)

theorem built_trappedGraph : trappedGraph.Built := ((built_ofSize 5 0).addEdges (by decide)).1

/- Only the fourth node is on both ways, and the last one has none. -/
theorem ofGraph_reversed_trappedGraph :
    trappedGraph.Built ∧ trappedGraph.PostDominates 3 0 ∧ ¬ trappedGraph.PostDominates 1 0 ∧
        ¬ ∃ way, trappedGraph.Leaves 4 way := by
  obtain ⟨t, hTree, hDominates, _⟩ := ofGraph_reversed trappedGraph built_trappedGraph
  have hResult : ofGraph trappedGraph.reversed =
      .ok ⟨5, ⟨#[some 3, some 3, some 3, some 5, none, some 5]⟩⟩ := rfl
  cases hResult.symm.trans hTree
  have hNot (a b : Nat) (hFirst : a < 5) (hSecond : b < 5)
      (hTest : dominates ⟨5, ⟨#[some 3, some 3, some 3, some 5, none,
        some 5]⟩⟩ a b = false) : ¬ trappedGraph.PostDominates a b := by
    rw [← hDominates a b hFirst hSecond, hTest]
    decide
  refine ⟨built_trappedGraph, (hDominates 3 0 (by decide) (by decide)).mp rfl,
    hNot 1 0 (by decide) (by decide) rfl, ?_⟩
  rintro ⟨way, hLeaves⟩
  refine hNot 4 4 (by decide) (by decide) rfl ⟨⟨way, hLeaves⟩, ?_⟩
  rintro nodes ⟨e, hPath, _⟩
  exact hPath.source_mem

end DominatorTree

end AffineIR
