import AffineIR.Flow.Graph
import Mathlib.Data.List.Basic

/-
  Paths of flow graphs and dominance by paths.

  A graph is built by adding nodes and edges.  In such a graph
  the lists of predecessors and successors describe the same
  edges, and all edges are between nodes.

  Main declarations:
    * `FlowGraph.Dominates`, `FlowGraph.StrictlyDominates`
-/

namespace AffineIR

open List

variable {g h : FlowGraph} {a b d n p source target x y : Nat}

namespace FlowGraph

------
-- Construction
------

/- Graphs that come from adding nodes and edges. -/
inductive Built : FlowGraph → Prop where
  | empty (entry : Nat) : Built { entry := entry }
  | addNode {g : FlowGraph} (hBuilt : Built g) : Built g.addNode
  | addEdge {g h : FlowGraph} {source target : Nat} (hBuilt : Built g)
      (hEdge : g.addEdgeChecked source target = .ok h) : Built h
  | withEntry {g : FlowGraph} (hBuilt : Built g) (entry : Nat) : Built { g with entry := entry }

theorem mem_appendNew_iff {xs : List Nat} : y ∈ appendNew xs x ↔ y ∈ xs ∨ y = x := by
  unfold appendNew
  split
  · rename_i hContains
    have hMember : x ∈ xs := by simpa using hContains
    constructor
    · exact .inl
    · rintro (hOld | rfl)
      · exact hOld
      · exact hMember
  · simp

theorem getD_modify (nodes : Array FlowNode) (i n : Nat) (f : FlowNode → FlowNode)
    (hInside : i < nodes.size) :
    (nodes.modify i f).getD n {} =
      if i = n then f (nodes.getD n {}) else nodes.getD n {} := by
  simp only [Array.getD_eq_getD_getElem?, Array.getElem?_modify]
  split
  · rename_i hSame
    subst hSame
    simp [hInside]
  · rfl

@[simp] theorem size_addEdge (g : FlowGraph)
    (source target : Nat) : (g.addEdge source target).size = g.size := by
  simp [addEdge, size]

/- An added edge is one more successor of its source. -/
theorem mem_succs_addEdge_iff (hSource : source < g.size) (hTarget : target < g.size) :
    b ∈ (g.addEdge source target).succs a ↔ b ∈ g.succs a ∨ (a = source ∧ b = target) := by
  simp only [addEdge, succs]
  rw [getD_modify _ _ _ _ (by simpa [size] using hTarget), getD_modify _ _ _ _ hSource]
  by_cases hSame : source = a
  · subst hSame
    split <;> simp [mem_appendNew_iff]
  · have hNe : a ≠ source := fun hEq => hSame hEq.symm
    split <;> simp [hNe]

/- An added edge is one more predecessor of its target. -/
theorem mem_preds_addEdge_iff (hSource : source < g.size) (hTarget : target < g.size) :
    a ∈ (g.addEdge source target).preds b ↔ a ∈ g.preds b ∨ (a = source ∧ b = target) := by
  simp only [addEdge, preds]
  rw [getD_modify _ _ _ _ (by simpa [size] using hTarget), getD_modify _ _ _ _ hSource]
  by_cases hSame : target = b
  · subst hSame
    simp only [if_true, mem_appendNew_iff, and_true]
    split <;> rfl
  · have hNe : b ≠ target := fun hEq => hSame hEq.symm
    simp only [hSame, if_false, hNe, and_false, or_false]
    split <;> rfl

theorem getD_push (nodes : Array FlowNode)
    (n : Nat) : (nodes.push {}).getD n {} = nodes.getD n {} := by
  simp only [Array.getD_eq_getD_getElem?, Array.getElem?_push]
  split
  · rename_i hLast
    subst hLast
    simp
  · rfl

theorem of_addEdgeChecked (hEdge : g.addEdgeChecked source target = .ok h) :
    source < g.size ∧ target < g.size ∧ h = g.addEdge source target := by
  unfold addEdgeChecked at hEdge
  split at hEdge
  · rename_i hInside
    cases hEdge
    exact ⟨hInside.1, hInside.2, rfl⟩
  · cases hEdge

theorem Built.addEdge_of_lt (hBuilt : Built g) (hSource : source < g.size)
    (hTarget : target < g.size) : Built (g.addEdge source target) := by
  have hEdge : g.addEdgeChecked source target = .ok (g.addEdge source target) := by
    simp [addEdgeChecked, hSource, hTarget]
  exact .addEdge hBuilt hEdge

/- Edges between nodes are added one after the other. -/
theorem Built.addEdges {edges : List (Nat × Nat)} (hBuilt : g.Built)
    (hInside : ∀ e ∈ edges, e.1 < g.size ∧ e.2 < g.size) :
    let after := edges.foldl (fun g e => g.addEdge e.1 e.2) g
    after.Built ∧ after.size = g.size ∧ after.entry = g.entry ∧
      ∀ {a b}, b ∈ after.succs a ↔ b ∈ g.succs a ∨ (a, b) ∈ edges := by
  induction edges generalizing g with
  | nil => exact ⟨hBuilt, rfl, rfl, by simp⟩
  | cons e edges ih =>
    obtain ⟨⟨hSource, hTarget⟩, hRest⟩ := forall_mem_cons.mp hInside
    have hSize := size_addEdge g e.1 e.2
    obtain ⟨hBuilt', hSize', hEntry, hEdges⟩ :=
      ih (hBuilt.addEdge_of_lt hSource hTarget) (hSize ▸ hRest)
    refine ⟨hBuilt', hSize'.trans hSize, hEntry, ?_⟩
    intro a b
    rw [foldl_cons, hEdges, mem_succs_addEdge_iff hSource hTarget, mem_cons, or_assoc,
      Prod.ext_iff]

/- Edges are between nodes. -/
theorem Built.inside (hBuilt : Built g) (hEdge : b ∈ g.succs a) : a < g.size ∧ b < g.size := by
  induction hBuilt with
  | empty entry => simp [succs] at hEdge
  | @addNode g _ ih =>
    have hOld : b ∈ g.succs a := by simpa only [FlowGraph.addNode, succs, getD_push] using hEdge
    have hBounds := ih hOld
    simp only [FlowGraph.addNode, size, Array.size_push] at *
    omega
  | addEdge _ hAdded ih =>
    obtain ⟨hSource, hTarget, rfl⟩ := of_addEdgeChecked hAdded
    rw [size_addEdge]
    rcases (mem_succs_addEdge_iff hSource hTarget).mp hEdge with hOld | ⟨rfl, rfl⟩
    · exact ih hOld
    · exact ⟨hSource, hTarget⟩
  | withEntry _ entry ih => exact ih hEdge

/- Predecessors and successors describe the same edges. -/
theorem Built.mem_preds_iff (hBuilt : Built g) : a ∈ g.preds b ↔ b ∈ g.succs a := by
  induction hBuilt with
  | empty entry => simp [succs, preds]
  | addNode _ ih => simpa only [FlowGraph.addNode, succs, preds, getD_push] using ih
  | addEdge _ hAdded ih =>
    obtain ⟨hSource, hTarget, rfl⟩ := of_addEdgeChecked hAdded
    rw [mem_succs_addEdge_iff hSource hTarget, mem_preds_addEdge_iff hSource hTarget, ih]
  | withEntry _ entry ih => exact ih

------
-- Paths
------

/- A path with the nodes on it, first one first. -/
inductive Path (g : FlowGraph) : Nat → Nat → List Nat → Prop where
  | single (n : Nat) : Path g n n [n]
  | step {a b c : Nat} {nodes : List Nat} (hPath : Path g a b nodes)
      (hEdge : c ∈ g.succs b) : Path g a c (nodes ++ [c])

theorem Path.source_mem {nodes : List Nat} (hPath : g.Path a b nodes) : a ∈ nodes := by
  induction hPath with
  | single => exact mem_singleton_self _
  | step _ _ ih => exact mem_append_left _ ih

/- There is a path from the entry. -/
def Reachable (g : FlowGraph) (n : Nat) : Prop := ∃ nodes, g.Path g.entry n nodes

theorem reachable_entry (g : FlowGraph) : g.Reachable g.entry :=
  ⟨_, .single _⟩

theorem Reachable.step (hReachable : g.Reachable a) (hEdge : b ∈ g.succs a) : g.Reachable b := by
  obtain ⟨nodes, hPath⟩ := hReachable
  exact ⟨_, hPath.step hEdge⟩

theorem Built.lt_size_of_reachable (hBuilt : g.Built) (hEntry : g.entry < g.size)
    (hReachable : g.Reachable n) : n < g.size := by
  obtain ⟨nodes, hPath⟩ := hReachable
  cases hPath with
  | single => exact hEntry
  | step _ hEdge => exact (hBuilt.inside hEdge).2

/- The node can be reached, and only through the first one. -/
def Dominates (g : FlowGraph) (a b : Nat) : Prop := g.Reachable b ∧
    ∀ nodes, g.Path g.entry b nodes → a ∈ nodes

def StrictlyDominates (g : FlowGraph) (a b : Nat) : Prop := a ≠ b ∧ g.Dominates a b

/- Only the entry dominates the entry. -/
theorem eq_entry_of_dominates_entry (hDominates : g.Dominates a g.entry) : a = g.entry := by
  have hMember := hDominates.2 _ (.single g.entry)
  exact mem_singleton.mp hMember

/-
  A strict dominator of a node dominates each predecessor that
  can be reached.
-/
theorem StrictlyDominates.of_edge (hStrict : g.StrictlyDominates d n) (hReachable : g.Reachable p)
    (hEdge : n ∈ g.succs p) : g.Dominates d p := by
  refine ⟨hReachable, ?_⟩
  intro nodes hPath
  have hMember := hStrict.2.2 _ (hPath.step hEdge)
  rcases mem_append.mp hMember with hBefore | hLast
  · exact hBefore
  · exact absurd (mem_singleton.mp hLast) hStrict.1

end FlowGraph

end AffineIR
