import AffineIR.Proofs.Flow.Settling

/-
  The dominator tree is right.

  On every graph that is built from nodes and edges the tree
  exists, and it agrees with dominance by paths: settled
  guesses lead over exactly the dominators of a node, and the
  guess of a node is its nearest strict dominator.

  Main result: `DominatorTree.ofGraph_dominance`
-/

namespace AffineIR

open List

namespace Dominators

open FlowGraph Guesses

variable {g : FlowGraph} {order : List Nat} {u : Guesses} {a d n : Nat}

namespace Final

variable (hFinal : Final g order u)

include hFinal

/- The final guesses are for the nodes that can be reached. -/
theorem isSome_iff_reachable : (u.get? n).isSome ↔ g.Reachable n := by
  rw [← hFinal.searched.mem_iff n]
  refine ⟨hFinal.state.listed n, fun hMember => ?_⟩
  exact hFinal.state.visited n hMember (idxOf_lt_length_of_mem hMember)

theorem get?_eq_none (hUnreachable : ¬g.Reachable n) : u.get? n = none := by
  rw [← hFinal.isSome_iff_reachable] at hUnreachable
  simpa using hUnreachable

/- A node with a dominator of its own has a guess that is another node. -/
theorem exists_guess (hReachable : g.Reachable n) (hEntry : n ≠ g.entry) :
    ∃ p, u.get? n = some p ∧ p ≠ n ∧ order.idxOf p < order.idxOf n := by
  obtain ⟨p, hGuess⟩ := Option.isSome_iff_exists.mp (hFinal.isSome_iff_reachable.mpr hReachable)
  have hFall := hFinal.state.falls n p hGuess hEntry
  refine ⟨p, hGuess, ?_, hFall⟩
  rintro rfl
  omega

/-
  What is above a node lies on every path to it.  The last
  edge of the path leads from a node below the guess.
-/
theorem mem_of_above {nodes : List Nat} (hPath : g.Path g.entry n nodes)
    (hAbove : u.Above a n) : a ∈ nodes := by
  have hTop : ∀ x, u.Above x g.entry → x = g.entry := by
    intro x hUp
    by_contra hNe
    obtain ⟨p, hGuess, hDiffer, _⟩ := hUp.of_ne hNe
    cases hFinal.state.entry.symm.trans hGuess
    exact hDiffer rfl
  induction hPath with
  | single =>
    rw [hTop a hAbove]
    exact mem_singleton_self _
  | @step b c nodes hBefore hEdge ih =>
    by_cases hEntry : c = g.entry
    · subst hEntry
      rw [hTop a hAbove]
      exact mem_append_left _ hBefore.source_mem
    · by_cases hLast : a = c
      · simp [hLast]
      · have hReachB : g.Reachable b := ⟨_, hBefore⟩
        have hIn : c ∈ order := (hFinal.searched.mem_iff c).mpr (hReachB.step hEdge)
        obtain ⟨p, hGuess, hAll⟩ := hFinal.settled c hIn hEntry
        have hPred : b ∈ guessedPreds g u c := mem_guessedPreds_iff.mpr
          ⟨hFinal.built.mem_preds_iff.mpr hEdge, hFinal.isSome_iff_reachable.mpr hReachB⟩
        obtain ⟨q, hGuess', _, hUp⟩ := hAbove.of_ne hLast
        cases hGuess.symm.trans hGuess'
        exact mem_append_left _ (ih (hUp.trans (hAll b hPred)))

/- Dominators are above: no guess has passed one of them. -/
theorem above_of_dominates (hDominates : g.Dominates d n) : u.Above d n := by
  generalize hRank : order.idxOf n = rank
  induction rank using Nat.strong_induction_on generalizing n with
  | _ rank ih =>
    by_cases hSame : d = n
    · exact hSame ▸ .refl d
    · have hEntry : n ≠ g.entry := by
        rintro rfl
        exact hSame (eq_entry_of_dominates_entry hDominates)
      obtain ⟨p, hGuess, hNe, hFall⟩ := hFinal.exists_guess hDominates.1 hEntry
      have hUp := hFinal.state.covers n p d hGuess hEntry ⟨hSame, hDominates⟩
      exact .up hGuess hNe (ih _ (by omega) hUp rfl)

/- Above is dominance, for nodes that can be reached. -/
theorem above_iff_dominates (hReachable : g.Reachable n) : u.Above a n ↔ g.Dominates a n :=
  ⟨fun hAbove => ⟨hReachable, fun _ hPath => hFinal.mem_of_above hPath hAbove⟩,
    hFinal.above_of_dominates⟩

/- The order is no longer than the graph is large. -/
theorem length_le_size (hInside : g.entry < g.size) : order.length ≤ g.size := by
  have hSubset : order ⊆ List.range g.size := by
    intro n hMember
    exact mem_range.mpr
      (hFinal.built.lt_size_of_reachable hInside ((hFinal.searched.mem_iff n).mp hMember))
  simpa using (hFinal.searched.nodup.subperm hSubset).length_le

/- The tree of settled guesses names the dominators of every node. -/
theorem dominates_iff (hInside : g.entry < g.size) (a b : Nat) :
    (DominatorTree.mk g.entry u).dominates a b = true ↔ g.Dominates a b := by
  unfold DominatorTree.dominates DominatorTree.dominators
  rw [contains_iff_mem]
  by_cases hReachable : g.Reachable b
  · have hState := hFinal.state
    have hHas := hFinal.isSome_iff_reachable.mpr hReachable
    have hRank := idxOf_lt_length_of_mem (hState.listed b hHas)
    have hLength := hFinal.length_le_size hInside
    rw [mem_climb_iff hState.ranked hState.closed (by rw [hState.size]; omega) hHas,
      hFinal.above_iff_dominates hReachable]
  · rw [climb_eq_nil (hFinal.get?_eq_none hReachable)]
    exact ⟨nofun, fun hDominates => absurd hDominates.1 hReachable⟩

end Final

/- The tree of a graph exists, with guesses that are settled. -/
theorem exists_final (hBuilt : g.Built) (hInside : g.entry < g.size) :
    ∃ order u, DominatorTree.ofGraph g = .ok ⟨g.entry, u⟩ ∧ Final g order u := by
  obtain ⟨order, hRun, hOrder⟩ :=
    depthFirst_reversePostOrder (fun _ _ hEdge => (hBuilt.inside hEdge).2) hInside
  have hFuel : totalRoom order (.initial g.size g.entry) < settleFuel order := by
    have hRoom := totalRoom_le order (.initial g.size g.entry)
    unfold settleFuel
    omega
  obtain ⟨u, hSettle, hFinal⟩ :=
    settle_settled hBuilt hInside hOrder (settling_initial hInside hOrder) hFuel
  refine ⟨order, u, ?_, hFinal⟩
  have hSize : g.size ≠ 0 := by omega
  simp [DominatorTree.ofGraph, hSize, hRun, hSettle, bind, Except.bind, pure, Except.pure]

end Dominators

------
-- The order of dominance
------

namespace FlowGraph

open Dominators

variable {g : FlowGraph} {a b c : Nat}

theorem Dominates.trans (hBuilt : g.Built) (hInside : g.entry < g.size) (hFirst : g.Dominates a b)
    (hSecond : g.Dominates b c) : g.Dominates a c := by
  obtain ⟨_, _, _, hFinal⟩ := exists_final hBuilt hInside
  exact (hFinal.above_iff_dominates hSecond.1).mp
    ((hFinal.above_of_dominates hFirst).trans (hFinal.above_of_dominates hSecond))

theorem Dominates.antisymm (hBuilt : g.Built) (hInside : g.entry < g.size)
    (hFirst : g.Dominates a b) (hSecond : g.Dominates b a) : a = b := by
  obtain ⟨_, _, _, hFinal⟩ := exists_final hBuilt hInside
  by_contra hOther
  have hRanked := hFinal.state.ranked
  have hLess := hRanked.lt_of_above (hFinal.above_of_dominates hFirst) hOther
  have hMore := hRanked.lt_of_above (hFinal.above_of_dominates hSecond) (Ne.symm hOther)
  omega

/- The dominators of a node dominate each other in one direction. -/
theorem Dominates.comparable (hBuilt : g.Built) (hInside : g.entry < g.size)
    (hFirst : g.Dominates a c) (hSecond : g.Dominates b c) : g.Dominates a b ∨ g.Dominates b a := by
  obtain ⟨_, u, _, hFinal⟩ := exists_final hBuilt hInside
  have hA := hFinal.above_of_dominates hFirst
  have hB := hFinal.above_of_dominates hSecond
  have hReachable {n : Nat} (hAbove : u.Above n c) : g.Reachable n :=
    hFinal.isSome_iff_reachable.mp (hFinal.state.closed.isSome_of_above hAbove
      (hFinal.isSome_iff_reachable.mpr hFirst.1))
  rcases hA.comparable hB with hUp | hUp
  · exact .inl ((hFinal.above_iff_dominates (hReachable hB)).mp hUp)
  · exact .inr ((hFinal.above_iff_dominates (hReachable hA)).mp hUp)

end FlowGraph

namespace DominatorTree

open FlowGraph Guesses Dominators

/-
  The tree of a graph exists and agrees with the paths of the
  graph in what it says about reachability, dominance and
  immediate dominators.
-/
theorem ofGraph_dominance (g : FlowGraph) (hBuilt : g.Built) (hInside : g.entry < g.size) :
    ∃ t, ofGraph g = .ok t ∧ (∀ b, t.isReachable b = true ↔ g.Reachable b) ∧
      (∀ a b, t.dominates a b = true ↔ g.Dominates a b) ∧ (∀ b, g.Reachable b → b ≠ g.entry →
        ∃ d, t.immediate? b = some d ∧ g.StrictlyDominates d b ∧
            ∀ a, g.StrictlyDominates a b → a ≠ d → g.Dominates a d) ∧ t.immediate? g.entry = none ∧
      (∀ b, ¬ g.Reachable b → t.immediate? b = none) := by
  obtain ⟨order, u, hTree, hFinal⟩ := exists_final hBuilt hInside
  refine ⟨⟨g.entry, u⟩, hTree, fun b => hFinal.isSome_iff_reachable, hFinal.dominates_iff hInside,
    ?_, ?_, ?_⟩
  · intro b hReachable hEntry
    obtain ⟨d, hGuess, hNe, _⟩ := hFinal.exists_guess hReachable hEntry
    refine ⟨d, by simp [immediate?, hGuess, hNe], ⟨hNe, ?_⟩, fun a hStrict _ => ?_⟩
    · exact (hFinal.above_iff_dominates hReachable).mp (.up hGuess hNe (.refl d))
    · exact hFinal.state.covers b d a hGuess hEntry hStrict
  · simp [immediate?, hFinal.state.entry]
  · intro b hUnreachable
    simp [immediate?, hFinal.get?_eq_none hUnreachable]

/-
  Two nodes that the entry leads to lead to each other, and a
  node that cannot be reached leads to one of them.
-/
def crossedGraph : FlowGraph := [(0, 1), (0, 2), (1, 2), (2, 1), (3, 1)].foldl
    (fun g e => g.addEdge e.1 e.2) (({ entry := 0 } : FlowGraph).addNode.addNode.addNode.addNode)

theorem built_crossedGraph : crossedGraph.Built := by
  have hNodes := Built.addNode (.addNode (.addNode (.addNode (.empty 0))))
  exact (hNodes.addEdges (by decide)).1

/- Neither of the two nodes dominates the other one. -/
theorem ofGraph_crossedGraph :
    crossedGraph.Reachable 2 ∧ ¬ crossedGraph.Dominates 1 2 ∧ crossedGraph.Dominates 0 2 ∧
          ¬ crossedGraph.Reachable 3 := by
  rcases ofGraph_dominance crossedGraph built_crossedGraph (by decide) with
    ⟨t, hTree, hReachable, hDominates, _⟩
  have hResult : ofGraph crossedGraph = .ok ⟨0, ⟨#[some 0, some 0, some 0, none]⟩⟩ := rfl
  cases hResult.symm.trans hTree
  refine ⟨(hReachable 2).mp rfl, ?_, (hDominates 0 2).mp rfl, ?_⟩
  · rw [← hDominates 1 2]
    decide
  · rw [← hReachable 3]
    decide

end DominatorTree

end AffineIR
