import AffineIR.Flow.Order
import AffineIR.Proofs.Flow.Paths
import Mathlib

/-
  Depth-first order of a flow graph.

  The search has enough moves to finish.  Its result lists
  every node that can be reached, once, and every node but the
  entry comes after one of its predecessors.  An edge that does
  not lead forward in it is part of a cycle.

  Main result: `FlowGraph.reversePostOrder_numbers`
-/

namespace AffineIR

open List

variable {g : FlowGraph} {order rest seen seen' : List Nat} {fuel n s : Nat}
  {stack : List (Nat × List Nat)}

namespace FlowGraph

/- The moves that a node costs once it is found. -/
def nodeMoves (g : FlowGraph) (n : Nat) : Nat := (g.succs n).length + 1

/- The moves for the nodes that are not found yet. -/
def unseenMoves (g : FlowGraph) (seen : List Nat) : Nat :=
  (((List.range g.size).filter (· ∉ seen)).map g.nodeMoves).sum

/- The moves for the nodes on the stack. -/
def stackMoves (stack : List (Nat × List Nat)) : Nat := (stack.map fun p => p.2.length + 1).sum

/- Finding a node takes its moves away from what is not found. -/
theorem unseenMoves_cons (hInside : n < g.size) (hUnseen : n ∉ seen) :
    g.unseenMoves (n :: seen) + g.nodeMoves n = g.unseenMoves seen := by
  have hSplit : ∀ nodes : List Nat, nodes.Nodup →
      ((nodes.filter (· ∉ n :: seen)).map g.nodeMoves).sum +
          (if n ∈ nodes then g.nodeMoves n else 0) =
        ((nodes.filter (· ∉ seen)).map g.nodeMoves).sum := by
    intro nodes hNodup
    induction nodes with
    | nil => simp
    | cons m rest ih =>
      obtain ⟨hFresh, hRest⟩ := nodup_cons.mp hNodup
      have hTail := ih hRest
      by_cases hSame : m = n
      · subst hSame
        simp [hFresh, hUnseen] at hTail ⊢
        omega
      · have hNe : n ≠ m := fun hEq => hSame hEq.symm
        by_cases hSeen : m ∈ seen
        · simpa [hSeen, hNe] using hTail
        · simp [hSeen, hNe, hSame] at hTail ⊢
          omega
  have hRange := hSplit (List.range g.size) nodup_range
  rwa [if_pos (mem_range.mpr hInside)] at hRange

/- The moves of the whole search. -/
theorem searchFuel_eq (g : FlowGraph) : g.searchFuel = g.unseenMoves [] + 1 := by
  have hFold : ∀ (nodes : List FlowNode) (start : Nat), nodes.foldl
          (fun moves n => moves + n.succs.length + 1) start =
        start + (nodes.map fun n => n.succs.length + 1).sum := by
    intro nodes
    induction nodes with
    | nil => simp
    | cons n rest ih =>
      intro start
      simp only [foldl_cons, map_cons, sum_cons]
      rw [ih]
      omega
  have hNodes :
      g.nodes.toList.map (fun n => n.succs.length + 1) = (List.range g.size).map g.nodeMoves := by
    apply ext_getElem
    · simp [size]
    · intro i hLeft hRight
      have hInside : i < g.nodes.size := by simpa using hLeft
      simp [nodeMoves, succs, hInside]
  unfold searchFuel unseenMoves
  rw [← Array.foldl_toList, hFold, hNodes]
  simp
  omega

------
-- The state of the search
------

/- Every node on the stack was found from the one below it. -/
def Linked (g : FlowGraph) : List Nat → Prop
  | [] => True
  | [n] => n = g.entry
  | n :: below :: rest => n ∈ g.succs below ∧ Linked g (below :: rest)

/- What is left of the successors of a node, where the others are found. -/
structure Frame (g : FlowGraph) (seen : List Nat) (p : Nat × List Nat) : Prop where
  ahead : ∀ s ∈ p.2, s ∈ g.succs p.1
  behind : ∀ s ∈ g.succs p.1, s ∈ p.2 ∨ s ∈ seen

theorem Frame.mono {p : Nat × List Nat} (hFrame : Frame g seen p) (hFound : seen ⊆ seen') :
    Frame g seen' p :=
  ⟨hFrame.ahead, fun s hEdge => (hFrame.behind s hEdge).imp_right (hFound ·)⟩

/- A successor that is found is not looked at any more. -/
theorem Frame.advance (hFrame : Frame g seen (n, s :: rest)) (hSeen : s ∈ seen) :
    Frame g seen (n, rest) where
  ahead t hNext := hFrame.ahead t (mem_cons_of_mem _ hNext)
  behind t hEdge := by
    rcases hFrame.behind t hEdge with hNext | hFound
    · rcases mem_cons.mp hNext with rfl | hLater
      · exact .inr hSeen
      · exact .inl hLater
    · exact .inr hFound

/-
  What holds of finished nodes: each but the entry has a
  predecessor that will come before it, and an edge to a node
  that does not come after it is part of a cycle.
-/
def Finished (g : FlowGraph) (seen : List Nat) : List Nat → Prop
  | [] => True
  | n :: after =>
    (n = g.entry ∨ ∃ p ∈ seen, p ∉ n :: after ∧ n ∈ g.succs p) ∧
      (∀ s ∈ g.succs n, s ∈ seen ∧ (s ∈ after ∨ ∃ nodes, g.Path s n nodes)) ∧
      Finished g seen after

theorem Finished.mono (hFinished : g.Finished seen order) (hFound : seen ⊆ seen') :
    g.Finished seen' order := by
  induction order with
  | nil => trivial
  | cons n after ih =>
    obtain ⟨hParent, hEdges, hRest⟩ := hFinished
    refine ⟨hParent.imp_right ?_, fun s hEdge => ?_, ih hRest⟩
    · rintro ⟨p, hSeen, hBefore⟩
      exact ⟨p, hFound hSeen, hBefore⟩
    · obtain ⟨hSeen, hPlace⟩ := hEdges s hEdge
      exact ⟨hFound hSeen, hPlace⟩

theorem Finished.of_append {before : List Nat} (hFinished : g.Finished seen (before ++ order)) :
    g.Finished seen order := by
  induction before with
  | nil => exact hFinished
  | cons _ _ ih => exact ih hFinished.2.2

/- The nodes on the stack lead to the topmost one. -/
theorem Linked.path {nodes : List Nat} (hLinked : g.Linked (n :: nodes)) (hMem : s ∈ n :: nodes) :
    ∃ path, g.Path s n path := by
  induction nodes generalizing n with
  | nil =>
    rw [mem_singleton.mp hMem]
    exact ⟨_, .single n⟩
  | cons below nodes ih =>
    rcases mem_cons.mp hMem with rfl | hMem
    · exact ⟨_, .single s⟩
    · obtain ⟨path, hPath⟩ := ih hLinked.2 hMem
      exact ⟨_, hPath.step hLinked.1⟩

/- What holds during the search. -/
structure Searching (g : FlowGraph) (stack : List (Nat × List Nat))
    (seen order : List Nat) : Prop where
  nodup : (stack.map Prod.fst ++ order).Nodup
  seen_iff : ∀ n, n ∈ seen ↔ n ∈ stack.map Prod.fst ∨ n ∈ order
  entry_seen : g.entry ∈ seen
  reachable : ∀ n ∈ seen, g.Reachable n
  frames : ∀ p ∈ stack, Frame g seen p
  finished : g.Finished seen order
  linked : g.Linked (stack.map Prod.fst)

theorem searching_start (g : FlowGraph) :
    Searching g [(g.entry, g.succs g.entry)] [g.entry] [] where
  nodup := by simp
  seen_iff := by simp
  entry_seen := by simp
  reachable := by
    intro n hMember
    rw [mem_singleton] at hMember
    exact hMember ▸ g.reachable_entry
  frames := forall_mem_singleton.mpr ⟨fun _ hNext => hNext, fun _ hEdge => .inl hEdge⟩
  finished := trivial
  linked := rfl

/- A node whose successors are used up is finished. -/
theorem Searching.finish (hState : Searching g ((n, []) :: stack) seen order) :
    Searching g stack seen (n :: order) where
  nodup := (perm_middle.nodup_iff).mpr hState.nodup
  seen_iff := by
    intro m
    rw [hState.seen_iff m]
    simp only [map_cons, mem_cons]
    tauto
  entry_seen := hState.entry_seen
  reachable := hState.reachable
  frames p hMember := hState.frames p (mem_cons_of_mem _ hMember)
  finished := by
    refine ⟨?_, fun s hEdge => ?_, hState.finished⟩
    · have hLinked := hState.linked
      cases stack with
      | nil => exact .inl hLinked
      | cons below stack =>
        -- The node below is still on the stack, so it is not listed yet.
        refine .inr ⟨below.1, (hState.seen_iff _).mpr (.inl (by simp)), ?_, hLinked.1⟩
        have hNodup : (n :: below.1 :: (stack.map Prod.fst ++ order)).Nodup := hState.nodup
        simp only [nodup_cons, mem_cons, mem_append, not_or] at hNodup ⊢
        exact ⟨Ne.symm hNodup.1.1, hNodup.2.1.2⟩
    · have hSeen := ((hState.frames _ mem_cons_self).behind s hEdge).resolve_left not_mem_nil
      refine ⟨hSeen, ((hState.seen_iff s).mp hSeen).symm.imp_right ?_⟩
      exact hState.linked.path
  linked := by
    have hLinked := hState.linked
    cases stack with
    | nil => trivial
    | cons below rest => exact hLinked.2

/- A successor that was found before is passed over. -/
theorem Searching.skip (hState : Searching g ((n, s :: rest) :: stack) seen order)
    (hSeen : s ∈ seen) : Searching g ((n, rest) :: stack) seen order where
  nodup := hState.nodup
  seen_iff := hState.seen_iff
  entry_seen := hState.entry_seen
  reachable := hState.reachable
  frames := by
    obtain ⟨hTop, hBelow⟩ := forall_mem_cons.mp hState.frames
    exact forall_mem_cons.mpr ⟨hTop.advance hSeen, hBelow⟩
  finished := hState.finished
  linked := hState.linked

/- A successor that is new goes on top of the stack. -/
theorem Searching.descend (hState : Searching g ((n, s :: rest) :: stack) seen order)
    (hUnseen : s ∉ seen) :
    Searching g ((s, g.succs s) :: (n, rest) :: stack) (s :: seen) order := by
  obtain ⟨hTop, hBelow⟩ := forall_mem_cons.mp hState.frames
  have hEdge : s ∈ g.succs n := hTop.ahead s mem_cons_self
  have hFound : seen ⊆ s :: seen := subset_cons_self s seen
  constructor
  case nodup =>
    refine nodup_cons.mpr ⟨fun hMember => ?_, hState.nodup⟩
    exact hUnseen ((hState.seen_iff s).mpr (mem_append.mp hMember))
  case seen_iff =>
    intro m
    rw [mem_cons, hState.seen_iff m]
    simp only [map_cons, mem_cons]
    tauto
  case entry_seen => exact hFound hState.entry_seen
  case reachable =>
    refine forall_mem_cons.mpr ⟨?_, hState.reachable⟩
    exact (hState.reachable n ((hState.seen_iff n).mpr (.inl (by simp)))).step hEdge
  case frames =>
    refine forall_mem_cons.mpr ⟨⟨fun _ hNext => hNext, fun _ hNext => .inl hNext⟩, ?_⟩
    exact forall_mem_cons.mpr ⟨(hTop.mono hFound).advance mem_cons_self,
      fun p hMem => (hBelow p hMem).mono hFound⟩
  case finished => exact hState.finished.mono hFound
  case linked => exact ⟨hEdge, hState.linked⟩

/-
  With as many moves as are left, the search empties its
  stack.  Every move uses up one of them.
-/
theorem searching_search (hEdges : ∀ a, ∀ b ∈ g.succs a, b < g.size)
    (hState : Searching g stack seen order) (hFuel : stackMoves stack + g.unseenMoves seen ≤ fuel) :
    ∃ seen', Searching g [] seen' (search g.succs fuel stack seen order) := by
  induction fuel generalizing stack seen order with
  | zero =>
    cases stack with
    | nil => exact ⟨seen, hState⟩
    | cons p rest => simp [stackMoves] at hFuel
  | succ fuel ih =>
    cases stack with
    | nil => exact ⟨seen, hState⟩
    | cons p stack =>
      obtain ⟨n, rest⟩ := p
      cases rest with
      | nil =>
        rw [search]
        apply ih hState.finish
        simp only [stackMoves, map_cons, sum_cons, length_nil] at hFuel ⊢
        omega
      | cons s rest =>
        rw [search]
        by_cases hSeen : s ∈ seen
        · rw [if_pos (by simpa using hSeen)]
          apply ih (hState.skip hSeen)
          simp only [stackMoves, map_cons, sum_cons, length_cons] at hFuel ⊢
          omega
        · rw [if_neg (by simpa using hSeen)]
          apply ih (hState.descend hSeen)
          have hEdge : s ∈ g.succs n := (hState.frames _ mem_cons_self).ahead s mem_cons_self
          have hMoves := unseenMoves_cons (hEdges n s hEdge) hSeen
          simp only [nodeMoves] at hMoves
          simp only [stackMoves, map_cons, sum_cons, length_cons] at hFuel ⊢
          omega

/-
  The nodes that can be reached, each once, and each but the
  entry after one of its predecessors.
-/
structure DepthFirst (g : FlowGraph) (order : List Nat) : Prop where
  nodup : order.Nodup
  mem_iff : ∀ n, n ∈ order ↔ g.Reachable n
  head : order.head? = some g.entry
  parent : ∀ n ∈ order, n ≠ g.entry → ∃ p ∈ order, order.idxOf p < order.idxOf n ∧ n ∈ g.succs p
  /- An edge that does not lead forward closes a cycle. -/
  retreat : ∀ u ∈ order, ∀ v ∈ g.succs u, order.idxOf v ≤ order.idxOf u → ∃ nodes, g.Path v u nodes

namespace Searching

variable (hState : Searching g [] seen order)

include hState

theorem mem_order (hSeen : n ∈ seen) : n ∈ order :=
  ((hState.seen_iff n).mp hSeen).resolve_left not_mem_nil

/- What a finished node looks like, with what comes before and after it. -/
theorem split_of_mem (hMem : n ∈ order) :
    ∃ before after, order = before ++ n :: after ∧ n ∉ before ∧
      g.Finished seen (n :: after) := by
  have hNodup : order.Nodup := hState.nodup
  obtain ⟨before, after, rfl⟩ := append_of_mem hMem
  refine ⟨before, after, rfl, fun hTwice => ?_, hState.finished.of_append⟩
  exact disjoint_of_nodup_append hNodup hTwice mem_cons_self

theorem mem_of_reachable (hReachable : g.Reachable n) : n ∈ order := by
  obtain ⟨nodes, hPath⟩ := hReachable
  induction hPath with
  | single => exact hState.mem_order hState.entry_seen
  | step _ hEdge ih =>
    obtain ⟨_, _, _, _, hFinished⟩ := hState.split_of_mem ih
    exact hState.mem_order (hFinished.2.1 _ hEdge).1

theorem depthFirst : DepthFirst g order where
  nodup := hState.nodup
  mem_iff n := by
    constructor
    · intro hMember
      exact hState.reachable n ((hState.seen_iff n).mpr (.inr hMember))
    · exact hState.mem_of_reachable
  head := by
    -- The first node has no predecessor before it.
    have hEntry := hState.mem_of_reachable g.reachable_entry
    cases order with
    | nil => cases hEntry
    | cons first rest =>
      rcases hState.finished.1 with hFirst | ⟨p, hSeen, hBefore, _⟩
      · rw [← hFirst]
        rfl
      · exact absurd (hState.mem_order hSeen) hBefore
  parent := by
    intro n hMember hNe
    obtain ⟨before, after, rfl, hNotBefore, hFinished⟩ := hState.split_of_mem hMember
    obtain ⟨p, hSeen, hNotAfter, hEdge⟩ := hFinished.1.resolve_left hNe
    have hBefore := (mem_append.mp (hState.mem_order hSeen)).resolve_right hNotAfter
    refine ⟨p, mem_append_left _ hBefore, ?_, hEdge⟩
    rw [idxOf_append_of_mem hBefore, idxOf_append_of_notMem hNotBefore]
    have hLess := idxOf_lt_length_of_mem hBefore
    omega
  retreat := by
    intro u hMember v hEdge hOrder
    have hNodup : order.Nodup := hState.nodup
    obtain ⟨before, after, rfl, hNotBefore, hFinished⟩ := hState.split_of_mem hMember
    refine (hFinished.2.1 v hEdge).2.resolve_left fun hAfter => ?_
    -- A node after this one is neither before it nor the same.
    have hNotBefore' : v ∉ before := fun hIn =>
      disjoint_of_nodup_append hNodup hIn (mem_cons_of_mem _ hAfter)
    have hOther : u ≠ v := fun hSame => (nodup_cons.mp hNodup.of_append_right).1 (hSame ▸ hAfter)
    rw [idxOf_append_of_notMem hNotBefore, idxOf_append_of_notMem hNotBefore', idxOf_cons_self,
      idxOf_cons_ne _ hOther] at hOrder
    omega

end Searching

/- The search gives an order of the graph. -/
theorem depthFirst_reversePostOrder (hEdges : ∀ a, ∀ b ∈ g.succs a, b < g.size)
    (hEntry : g.entry < g.size) : ∃ order, g.reversePostOrder = .ok order ∧ DepthFirst g order := by
  have hSize : g.size ≠ 0 := by omega
  have hMoves :
      stackMoves [(g.entry, g.succs g.entry)] + g.unseenMoves [g.entry] ≤ g.searchFuel := by
    have hCons := unseenMoves_cons hEntry not_mem_nil
    rw [searchFuel_eq]
    simp only [stackMoves, nodeMoves, map_cons,
      map_nil, sum_cons, sum_nil] at hCons ⊢
    omega
  obtain ⟨seen, hState⟩ := searching_search hEdges (searching_start g) hMoves
  refine ⟨_, ?_, hState.depthFirst⟩
  simp [reversePostOrder, hSize, hEntry]

/-
  With edges between nodes and an entry among them there is an
  answer: each node that the entry leads to, once, the entry
  first, every other one behind one of its predecessors.  From
  the target of an edge that does not lead forward there is a
  path back to its source.
-/
theorem reversePostOrder_numbers (g : FlowGraph) (hEdges : ∀ a, ∀ b ∈ g.succs a, b < g.size)
    (hEntry : g.entry < g.size) :
    ∃ order, g.reversePostOrder = .ok order ∧ order.Nodup ∧ (∀ n, n ∈ order ↔ g.Reachable n) ∧
      order.head? = some g.entry ∧
      (∀ n ∈ order, n ≠ g.entry → ∃ p ∈ order, order.idxOf p < order.idxOf n ∧ n ∈ g.succs p) ∧
      ∀ u ∈ order, ∀ v ∈ order, v ∈ g.succs u → order.idxOf v ≤ order.idxOf u →
        ∃ nodes, g.Path v u nodes := by
  obtain ⟨order, hRun, hOrder⟩ := depthFirst_reversePostOrder hEdges hEntry
  exact ⟨order, hRun, hOrder.nodup, hOrder.mem_iff, hOrder.head, hOrder.parent,
    fun u hU v _ => hOrder.retreat u hU v⟩

/- A loop with an exit, and a node that the entry does not lead to. -/
def loopedGraph : FlowGraph :=
  [(0, 1), (1, 2), (2, 1), (1, 3), (4, 3)].foldl (fun g e => g.addEdge e.1 e.2) (.ofSize 5 0)

theorem loopedGraph_reversePostOrder_numbers : loopedGraph.reversePostOrder = .ok [0, 1, 3, 2] ∧
    (∃ nodes, loopedGraph.Path 1 2 nodes) ∧ ¬loopedGraph.Reachable 4 := by
  have hEdges (a : Nat) : ∀ b ∈ loopedGraph.succs a, b < loopedGraph.size := by
    by_cases hInside : a < 5
    · revert a
      decide
    · have hNone : loopedGraph.nodes[a]? = none := Array.getElem?_eq_none (Nat.le_of_not_lt hInside)
      simp [succs, hNone]
  obtain ⟨order, hRun, _, hReachable, _, _, hRetreat⟩ :=
    reversePostOrder_numbers loopedGraph hEdges (by decide)
  have hResult : loopedGraph.reversePostOrder = .ok [0, 1, 3, 2] := rfl
  cases hResult.symm.trans hRun
  exact ⟨hResult, hRetreat 2 (by decide) 1 (by decide) (by decide) (by decide), fun hLeads =>
    absurd ((hReachable 4).mpr hLeads) (by decide)⟩

end FlowGraph

end AffineIR
