import AffineIR.Proofs.Flow.Dominance
import AffineIR.Proofs.Graph.Nesting

/-
  Dominance between the blocks of a region.

  The flow graph of a region has an edge for each successor of
  a block.  So a block that strictly dominates another one lies
  on every way to it, and dominates the block that the last
  step came from.

  Main result: `DominanceQuery.Answers`
-/

namespace AffineIR

open Answer List

variable {g : Graph} {blocks bs succs : List BlockId} {acc fg g₁ g₂ g₃ : FlowGraph} {r : RegionId}
  {a b : BlockId} {t : RegionTree} {i source : Nat} {blk blk' : Block}

/- The tree of a graph exists and names the dominators of every node. -/
theorem DominatorTree.exists_ofGraph {g : FlowGraph} (hBuilt : g.Built)
    (hInside : g.entry < g.size) :
    ∃ t, ofGraph g = .ok t ∧ ∀ a b, t.dominates a b = true ↔ g.Dominates a b := by
  obtain ⟨order, u, hTree, hFinal⟩ := Dominators.exists_final hBuilt hInside
  exact ⟨_, hTree, hFinal.dominates_iff hInside⟩

------
-- Flow graphs of regions
------

namespace FlowGraph

theorem built_ofSize (n entry : Nat) : (ofSize n entry).Built := by
  induction n with
  | zero => exact .empty entry
  | succ n ih =>
    have hSame : ofSize (n + 1) entry = (ofSize n entry).addNode := by
      unfold ofSize addNode
      rw [Array.replicate_succ]
    rw [hSame]
    exact .addNode ih

theorem size_ofSize (n entry : Nat) : (ofSize n entry).size = n := by
  simp [ofSize, size]

/- A graph with more edges between the same nodes. -/
structure Extends (acc fg : FlowGraph) : Prop where
  built : fg.Built
  size : fg.size = acc.size
  entry : fg.entry = acc.entry
  edges {i j : Nat} (hEdge : j ∈ acc.succs i) : j ∈ fg.succs i

theorem Extends.refl (hBuilt : acc.Built) : acc.Extends acc :=
  ⟨hBuilt, rfl, rfl, id⟩

theorem Extends.trans (hFirst : g₁.Extends g₂) (hSecond : g₂.Extends g₃) : g₁.Extends g₃ where
  built := hSecond.built
  size := hSecond.size.trans hFirst.size
  entry := hSecond.entry.trans hFirst.entry
  edges hEdge := hSecond.edges (hFirst.edges hEdge)

theorem extends_addEdges {targets : List Nat} (hBuilt : acc.Built) (hSource : source < acc.size)
    (hTargets : ∀ t ∈ targets, t < acc.size) :
    acc.Extends (targets.foldl (fun acc t => acc.addEdge source t) acc) ∧ ∀ t ∈ targets,
        t ∈ (targets.foldl (fun acc t => acc.addEdge source t) acc).succs source := by
  have hInside : ∀ e ∈ targets.map (source, ·), e.1 < acc.size ∧ e.2 < acc.size :=
    forall_mem_map.mpr fun t hMem => ⟨hSource, hTargets t hMem⟩
  obtain ⟨hAfter, hSize, hEntry, hEdges⟩ := hBuilt.addEdges hInside
  rw [foldl_map] at hAfter hSize hEntry hEdges
  exact ⟨⟨hAfter, hSize, hEntry, fun hEdge => hEdges.mpr (.inl hEdge)⟩,
    fun t hMem => hEdges.mpr (.inr (mem_map_of_mem hMem))⟩

/- The edges that are in the graph for a block. -/
def HasEdges (g : Graph) (blocks : List BlockId) (fg : FlowGraph) (b : BlockId) :
    Prop :=
  ∀ succs, g.blockSuccessors b = .ok succs → ∀ s ∈ succs,
    ∀ j, blocks.idxOf? s = some j → j ∈ fg.succs (blocks.idxOf b)

theorem extends_addBlockEdges (hAdd : addBlockEdges g blocks acc b = .ok fg) (hBuilt : acc.Built)
    (hSize : acc.size = blocks.length)
    (hMem : b ∈ blocks) : acc.Extends fg ∧ HasEdges g blocks fg b := by
  unfold addBlockEdges at hAdd
  obtain ⟨succs, hSuccs, hAdd⟩ := bind_eq_ok.mp hAdd
  rw [pure_eq_ok] at hAdd
  subst hAdd
  have hSource : blocks.idxOf b < acc.size := by
    rw [hSize]
    exact idxOf_lt_length_of_mem hMem
  have hTargets : ∀ t ∈ succs.filterMap fun s => blocks.idxOf? s, t < acc.size := by
    intro t hIn
    obtain ⟨s, _, hIndex⟩ := mem_filterMap.mp hIn
    rw [hSize]
    exact (List.idxOf?_eq_some_iff.mp hIndex).1
  obtain ⟨hExtends, hEdges⟩ := extends_addEdges hBuilt hSource hTargets
  refine ⟨hExtends, ?_⟩
  intro succs' hSuccs' s hIn j hIndex
  cases hSuccs.symm.trans hSuccs'
  exact hEdges j (mem_filterMap.mpr ⟨s, hIn, hIndex⟩)

theorem extends_addAllEdges (hAdd : bs.foldlM (addBlockEdges g blocks) acc = .ok fg)
    (hBuilt : acc.Built) (hSize : acc.size = blocks.length)
    (hSubset : ∀ b ∈ bs, b ∈ blocks) : acc.Extends fg ∧ ∀ b ∈ bs, HasEdges g blocks fg b := by
  induction bs generalizing acc with
  | nil =>
    rw [foldlM_nil, pure_eq_ok] at hAdd
    subst hAdd
    exact ⟨.refl hBuilt, by simp⟩
  | cons b bs ih =>
    rw [foldlM_cons] at hAdd
    obtain ⟨acc', hFirst, hAdd⟩ := bind_eq_ok.mp hAdd
    obtain ⟨hHead, hTail⟩ := forall_mem_cons.mp hSubset
    obtain ⟨hStep, hHere⟩ := extends_addBlockEdges hFirst hBuilt hSize hHead
    obtain ⟨hRest, hAll⟩ := ih hAdd hStep.built (hStep.size.trans hSize) hTail
    refine ⟨hStep.trans hRest, forall_mem_cons.mpr ⟨?_, hAll⟩⟩
    intro succs hSuccs s hIn j hIndex
    exact hRest.edges (hHere succs hSuccs s hIn j hIndex)

/- The flow graph of a region. -/
theorem of_ofRegion (hFlow : ofRegion g r = .ok (fg, blocks)) :
    fg.Built ∧ fg.size = blocks.length ∧ fg.entry = 0 ∧
      (∃ reg, g.region r = .ok reg ∧ reg.blocks = blocks) ∧
      ∀ b ∈ blocks, HasEdges g blocks fg b := by
  unfold ofRegion at hFlow
  obtain ⟨reg, hRegion, hFlow⟩ := bind_eq_ok.mp hFlow
  obtain ⟨fg', hAdd, hFlow⟩ := bind_eq_ok.mp hFlow
  rw [pure_eq_ok, Prod.mk.injEq] at hFlow
  obtain ⟨rfl, rfl⟩ := hFlow
  rcases extends_addAllEdges hAdd (built_ofSize ..) (size_ofSize ..)
    (fun _ => id) with ⟨hExtends, hEdges⟩
  exact ⟨hExtends.built, hExtends.size.trans (size_ofSize ..), hExtends.entry,
    ⟨reg, hRegion, rfl⟩, hEdges⟩

theorem inside_of_ofRegion (hFlow : ofRegion g r = .ok (fg, blocks))
    (hAt : blocks.idxOf? b = some i) : fg.Built ∧ fg.entry < fg.size := by
  obtain ⟨hBuilt, hSize, hEntry, _, _⟩ := of_ofRegion hFlow
  have hLess := (List.idxOf?_eq_some_iff.mp hAt).1
  exact ⟨hBuilt, by omega⟩

theorem exists_ofRegion {reg : Region} (hRegion : g.region r = .ok reg)
    (hSuccs : ∀ b ∈ reg.blocks, ∃ succs, g.blockSuccessors b = .ok succs) :
    ∃ fg, ofRegion g r = .ok (fg, reg.blocks) := by
  have hAdds {bs : List BlockId} (hAll : ∀ b ∈ bs, ∃ succs,
      g.blockSuccessors b = .ok succs) (acc : FlowGraph) :
      ∃ fg, bs.foldlM (addBlockEdges g reg.blocks) acc = .ok fg := by
    induction bs generalizing acc with
    | nil => exact ⟨acc, rfl⟩
    | cons b bs ih =>
      obtain ⟨⟨succs, hHere⟩, hRest⟩ := forall_mem_cons.mp hAll
      rcases ih hRest (((succs.filterMap fun s => reg.blocks.idxOf? s)).foldl
        (fun acc t => acc.addEdge (reg.blocks.idxOf b) t) acc) with ⟨fg, hFold⟩
      refine ⟨fg, ?_⟩
      rwa [foldlM_cons, addBlockEdges, hHere]
  obtain ⟨fg, hFold⟩ := hAdds hSuccs (ofSize reg.blocks.length 0)
  exact ⟨fg, bind_eq_ok.mpr ⟨reg, hRegion, bind_eq_ok.mpr ⟨fg, hFold, rfl⟩⟩⟩

end FlowGraph

------
-- Blocks
------

namespace Graph

variable {reg : Region} {s : BlockId}

/- A block of a region strictly dominates another one. -/
def StrictlyAbove (g : Graph) (r : RegionId) (a b : BlockId) : Prop :=
  ∃ fg blocks i j, FlowGraph.ofRegion g r = .ok (fg, blocks) ∧
    blocks.idxOf? a = some i ∧ blocks.idxOf? b = some j ∧ fg.StrictlyDominates i j

/- The blocks that successors lead to from the first one. -/
inductive Arrives (g : Graph) (r : RegionId) : BlockId → Prop
  | entry {reg : Region} {b : BlockId} (hRegion : g.region r = .ok reg)
      (hFirst : reg.blocks.head? = some b) : Arrives g r b
  | step {reg : Region} {b s : BlockId} {succs : List BlockId}
      (hArrives : Arrives g r b) (hRegion : g.region r = .ok reg) (hHere : b ∈ reg.blocks)
      (hSuccs : g.blockSuccessors b = .ok succs) (hMem : s ∈ succs)
      (hThere : s ∈ reg.blocks) : Arrives g r s

theorem idxOf?_of_mem {α : Type} [DecidableEq α] {xs : List α} {x : α}
    (hMem : x ∈ xs) : xs.idxOf? x = some (xs.idxOf x) := by
  cases hIndex : xs.idxOf? x with
  | none => exact absurd hMem (List.idxOf?_eq_none_iff.mp hIndex)
  | some i => rw [idxOf_eq_getD_idxOf?, hIndex]; rfl

theorem eq_of_idxOf? {α : Type} [DecidableEq α] {xs : List α} {x y : α}
    (hFirst : xs.idxOf? x = some i) (hSecond : xs.idxOf? y = some i) : x = y := by
  obtain ⟨_, hX, _⟩ := List.idxOf?_eq_some_iff.mp hFirst
  obtain ⟨_, hY, _⟩ := List.idxOf?_eq_some_iff.mp hSecond
  exact hX.symm.trans hY

theorem Arrives.reachable (hArrives : g.Arrives r b)
    (hFlow : FlowGraph.ofRegion g r = .ok (fg, blocks)) :
    b ∈ blocks ∧ fg.Reachable (blocks.idxOf b) := by
  obtain ⟨_, _, hEntry, ⟨reg, hRegion, hBlocks⟩, hEdges⟩ := FlowGraph.of_ofRegion hFlow
  induction hArrives with
  | @entry _ b hRegion' hFirst =>
    cases hRegion.symm.trans hRegion'
    rw [hBlocks] at hFirst
    obtain ⟨rest, hList⟩ := List.head?_eq_some_iff.mp hFirst
    refine ⟨by simp [hList], ?_⟩
    have hZero : blocks.idxOf b = fg.entry := by simp [hList, hEntry]
    rw [hZero]
    exact fg.reachable_entry
  | step _ hRegion' hHere hSuccs hMem hThere ih =>
    cases hRegion.symm.trans hRegion'
    rw [hBlocks] at hHere hThere
    exact ⟨hThere, ih.2.step (hEdges _ hHere _ hSuccs _ hMem _ (idxOf?_of_mem hThere))⟩

/- Nothing is above the first block. -/
theorem not_strictlyAbove_entry (hRegion : g.region r = .ok reg)
    (hFirst : reg.blocks.head? = some b) : ¬g.StrictlyAbove r a b := by
  intro ⟨fg, blocks, i, j, hFlow, hA, hB, hStrict⟩
  obtain ⟨_, _, hEntry, ⟨reg', hRegion', hBlocks⟩, _⟩ := FlowGraph.of_ofRegion hFlow
  cases hRegion.symm.trans hRegion'
  rw [hBlocks] at hFirst
  obtain ⟨rest, hList⟩ := List.head?_eq_some_iff.mp hFirst
  have hZero : j = fg.entry := by
    rw [idxOf?_of_mem (by simp [hList]), Option.some.injEq] at hB
    rw [← hB, hEntry]
    simp [hList]
  rw [hZero] at hStrict
  exact hStrict.1 (FlowGraph.eq_entry_of_dominates_entry hStrict.2)

/- What is above a block is, or is above, where one comes from. -/
theorem StrictlyAbove.of_edge (hAbove : g.StrictlyAbove r a s) (hArrives : g.Arrives r b)
    (hSuccs : g.blockSuccessors b = .ok succs)
    (hMem : s ∈ succs) : a = b ∨ g.StrictlyAbove r a b := by
  obtain ⟨fg, blocks, i, j, hFlow, hA, hS, hStrict⟩ := hAbove
  obtain ⟨_, _, _, _, hEdges⟩ := FlowGraph.of_ofRegion hFlow
  obtain ⟨hIn, hReachable⟩ := hArrives.reachable hFlow
  have hEdge := hEdges b hIn succs hSuccs s hMem j hS
  have hDominates := hStrict.of_edge hReachable hEdge
  have hB := idxOf?_of_mem hIn
  by_cases hSame : i = blocks.idxOf b
  · rw [← hSame] at hB
    exact .inl (eq_of_idxOf? hA hB)
  · exact .inr ⟨fg, blocks, i, _, hFlow, hA, hB, hSame, hDominates⟩

/- What the tree of a region says about two blocks. -/
theorem properlyDominates_iff_strictlyAbove (hTree : RegionTree.ofRegion .forward g r = .ok t) :
    t.properlyDominates a b = true ↔ g.StrictlyAbove r a b := by
  unfold RegionTree.ofRegion at hTree
  obtain ⟨⟨fg, blocks⟩, hFlow, hTree⟩ := bind_eq_ok.mp hTree
  obtain ⟨tree, hDominators, hTree⟩ := bind_eq_ok.mp hTree
  rw [pure_eq_ok] at hTree
  subst hTree
  have hIff {i j : Nat} (hA : blocks.idxOf? a = some i) :
      tree.properlyDominates i j = true ↔ fg.StrictlyDominates i j := by
    obtain ⟨hBuilt, hInside⟩ := FlowGraph.inside_of_ofRegion hFlow hA
    obtain ⟨_, hTree, hIff⟩ := DominatorTree.exists_ofGraph hBuilt hInside
    cases hDominators.symm.trans hTree
    simp [DominatorTree.properlyDominates, FlowGraph.StrictlyDominates, hIff]
  unfold RegionTree.properlyDominates
  constructor
  · intro hTrue
    split at hTrue
    next i j hA hB => exact ⟨fg, blocks, i, j, hFlow, hA, hB, (hIff hA).mp hTrue⟩
    next => cases hTrue
  · rintro ⟨_, _, i, j, hFlow', hA, hB, hStrict⟩
    cases hFlow.symm.trans hFlow'
    simp only [hA, hB]
    exact (hIff hA).mpr hStrict

theorem StrictlyAbove.trans (hFirst : g.StrictlyAbove r a b)
    (hSecond : g.StrictlyAbove r b s) : g.StrictlyAbove r a s := by
  obtain ⟨fg, blocks, i, j, hFlow, hA, hB, hNe, hDominates⟩ := hFirst
  obtain ⟨_, _, j', k, hFlow', hB', hS, hNe', hDominates'⟩ := hSecond
  cases hFlow.symm.trans hFlow'
  cases hB.symm.trans hB'
  obtain ⟨hBuilt, hInside⟩ := FlowGraph.inside_of_ofRegion hFlow hA
  refine ⟨fg, blocks, i, k, hFlow, hA, hS, ?_, hDominates.trans hBuilt hInside hDominates'⟩
  rintro rfl
  exact hNe (hDominates.antisymm hBuilt hInside hDominates')

/- The blocks above a block are above each other in one direction. -/
theorem StrictlyAbove.comparable (hFirst : g.StrictlyAbove r a s)
    (hSecond : g.StrictlyAbove r b s) : a = b ∨ g.StrictlyAbove r a b ∨ g.StrictlyAbove r b a := by
  obtain ⟨fg, blocks, i, k, hFlow, hA, hS, _, hDominates⟩ := hFirst
  obtain ⟨_, _, j, k', hFlow', hB, hS', _, hDominates'⟩ := hSecond
  cases hFlow.symm.trans hFlow'
  cases hS.symm.trans hS'
  obtain ⟨hBuilt, hInside⟩ := FlowGraph.inside_of_ofRegion hFlow hA
  by_cases hSame : i = j
  · exact .inl (eq_of_idxOf? hA (hSame ▸ hB))
  · refine .inr ((hDominates.comparable hBuilt hInside hDominates').imp ?_ ?_)
    · exact fun hUp => ⟨fg, blocks, i, j, hFlow, hA, hB, hSame, hUp⟩
    · exact fun hUp => ⟨fg, blocks, j, i, hFlow, hB, hA, Ne.symm hSame, hUp⟩

/- A fresh question finds that a block dominates another one. -/
def Above (g : Graph) (a b : BlockId) : Prop :=
  ∃ c, (g.blockProperlyDominates a b).run (.fresh .forward) = .ok (true, c)

/- The first question about a region builds its tree. -/
theorem run_treeOf_fresh {c : DominanceCache} :
    (DominanceQuery.treeOf g r).run (.fresh .forward) = .ok (t, c) ↔
      RegionTree.ofRegion .forward g r = .ok t ∧ c = { trees := [(r, t)] } := by
  unfold DominanceQuery.treeOf
  constructor
  · intro hRun
    obtain ⟨_, _, hGet, hRun⟩ := run_bind_eq_ok.mp hRun
    cases hGet
    obtain ⟨t', hTree, hRun⟩ := run_lift_bind_eq_ok.mp hRun
    cases hRun
    exact ⟨hTree, rfl⟩
  · rintro ⟨hTree, rfl⟩
    refine run_bind_eq_ok.mpr ⟨_, _, rfl, ?_⟩
    exact run_bind_eq_ok.mpr ⟨t, _, run_lift_eq_ok.mpr ⟨hTree, rfl⟩, rfl⟩

/- What a fresh question about two blocks says. -/
theorem above_iff :
    g.Above a b ↔ a ≠ b ∧ ∃ blk blk' t, g.block a = .ok blk ∧
      g.block b = .ok blk' ∧ blk'.parent = blk.parent ∧
      RegionTree.ofRegion .forward g blk.parent = .ok t ∧ t.properlyDominates a b = true := by
  unfold Above blockProperlyDominates
  constructor
  · rintro ⟨c, hRun⟩
    split at hRun
    next => cases hRun
    next hOther =>
      obtain ⟨blk, hBlock, hRun⟩ := run_lift_bind_eq_ok.mp hRun
      obtain ⟨blk', hBlock', hRun⟩ := run_lift_bind_eq_ok.mp hRun
      split at hRun
      next => cases hRun
      next hSame =>
        obtain ⟨t, _, hTree, hRun⟩ := run_bind_eq_ok.mp hRun
        exact ⟨hOther, blk, blk', t, hBlock, hBlock', not_not.mp hSame,
          (run_treeOf_fresh.mp hTree).1, (run_pure_eq_ok.mp hRun).1⟩
  · rintro ⟨hOther, blk, blk', t, hBlock, hBlock', hSame, hTree, hTrue⟩
    refine ⟨{ trees := [(blk.parent, t)] }, ?_⟩
    rw [if_neg hOther, run_lift_bind hBlock, run_lift_bind hBlock',
      if_neg (not_not.mpr hSame)]
    exact run_bind_eq_ok.mpr ⟨t, _, run_treeOf_fresh.mpr ⟨hTree, rfl⟩,
      run_pure_eq_ok.mpr ⟨hTrue, rfl⟩⟩

theorem Above.strictlyAbove (hAbove : g.Above a b)
    (hBlock : g.block a = .ok blk) : g.StrictlyAbove blk.parent a b := by
  obtain ⟨_, blk', _, t, hBlock', _, _, hTree, hTrue⟩ := above_iff.mp hAbove
  cases hBlock.symm.trans hBlock'
  exact (properlyDominates_iff_strictlyAbove hTree).mp hTrue

end Graph

------
-- Questions with kept trees
------

/- The kept trees are those of a graph. -/
structure DominanceCache.Current (c : DominanceCache) (g : Graph) : Prop where
  forward : c.direction = .forward
  trees {r : RegionId} {t : RegionTree} (hKept : c.trees.lookup r = some t) :
    RegionTree.ofRegion .forward g r = .ok t

theorem DominanceCache.Current.fresh (g : Graph) :
    (DominanceCache.fresh .forward).Current g :=
  ⟨rfl, nofun⟩

/- The kept trees are those of a graph, in a direction. -/
structure DominanceCache.Holds (c : DominanceCache) (d : Direction) (g : Graph) : Prop where
  direction : c.direction = d
  trees {r : RegionId} {t : RegionTree} (hKept : c.trees.lookup r = some t) :
    RegionTree.ofRegion d g r = .ok t

namespace DominanceCache

variable {c : DominanceCache} {d : Direction}

theorem current_iff : c.Current g ↔ c.Holds .forward g :=
  ⟨fun hCurrent => ⟨hCurrent.forward, hCurrent.trees⟩, fun hHolds => ⟨hHolds.1, hHolds.2⟩⟩

theorem holds_fresh (d : Direction) (g : Graph) : (fresh d).Holds d g := ⟨rfl, nofun⟩

theorem Holds.keep (hHolds : c.Holds d g) (hTree : RegionTree.ofRegion d g r = .ok t) :
    Holds { c with trees := (r, t) :: c.trees } d g where
  direction := hHolds.direction
  trees {r' t'} hKept := by
    rw [lookup_cons] at hKept
    split at hKept
    next hSame =>
      cases hKept
      rwa [eq_of_beq hSame]
    next => exact hHolds.trees hKept

end DominanceCache

namespace DominanceQuery

variable {α β : Type} {q : DominanceQuery α} {x y : α}

/-
  A question that keeps only trees of the graph, and whose
  answer is the same whichever of them were kept before.
-/
structure Steady (g : Graph) (q : DominanceQuery α) : Prop where
  keeps {c c' : DominanceCache} {a : α} (hRun : q.run c = .ok (a, c')) :
    c'.direction = c.direction ∧ ∀ d, c.Holds d g → c'.Holds d g
  same {c₁ c₂ : DominanceCache} {d : Direction} (hFirst : c₁.Holds d g) (hSecond : c₂.Holds d g) :
    q.run' c₁ = q.run' c₂

theorem Steady.lift (answer : Except Fault α) : Steady g (liftM answer) where
  keeps hRun := by
    obtain ⟨_, rfl⟩ := run_lift_eq_ok.mp hRun
    exact ⟨rfl, fun _ => id⟩
  same _ _ := by
    cases answer <;> rfl

theorem Steady.pure (a : α) : Steady g (pure a) := .lift (.ok a)

theorem Steady.bind {q : DominanceQuery α} {k : α → DominanceQuery β} (hFirst : q.Steady g)
    (hRest : ∀ a, (k a).Steady g) : Steady g (q >>= k) where
  keeps hRun := by
    obtain ⟨a, c₁, hQuestion, hRun⟩ := run_bind_eq_ok.mp hRun
    obtain ⟨hDirection, hHolds⟩ := hFirst.keeps hQuestion
    obtain ⟨hDirection', hHolds'⟩ := (hRest a).keeps hRun
    exact ⟨hDirection'.trans hDirection, fun d => hHolds' d ∘ hHolds d⟩
  same {c₁ c₂ d} hHolds₁ hHolds₂ := by
    have hSame := hFirst.same hHolds₁ hHolds₂
    rw [StateT.run'_eq, StateT.run'_eq] at hSame ⊢
    rw [StateT.run_bind, StateT.run_bind]
    rcases hRun₁ : q.run c₁ with e | ⟨a, c₁'⟩ <;> rcases hRun₂ : q.run c₂ with e' | ⟨a', c₂'⟩ <;>
      rw [hRun₁, hRun₂] at hSame <;> cases hSame
    · rfl
    · exact (hRest a).same ((hFirst.keeps hRun₁).2 d hHolds₁) ((hFirst.keeps hRun₂).2 d hHolds₂)

/- A question that may look at the direction of the trees. -/
theorem Steady.direction {k : DominanceCache → DominanceQuery α} (hRest : ∀ c, (k c).Steady g)
    (hSame : ∀ c₁ c₂, c₁.direction = c₂.direction → k c₁ = k c₂) :
    Steady g (MonadState.get >>= k) where
  keeps {c c' a} hRun := (hRest c).keeps hRun
  same {c₁ c₂ d} hHolds₁ hHolds₂ := by
    change (k c₁).run' c₁ = (k c₂).run' c₂
    rw [hSame c₁ c₂ (hHolds₁.direction.trans hHolds₂.direction.symm)]
    exact (hRest c₂).same hHolds₁ hHolds₂

theorem run'_treeOf {c : DominanceCache} {d : Direction} {r : RegionId} (hHolds : c.Holds d g) :
    (treeOf g r).run' c = RegionTree.ofRegion d g r := by
  have hGet {k : DominanceCache → DominanceQuery RegionTree} :
      (MonadState.get >>= k).run' c = (k c).run' c := rfl
  unfold DominanceQuery.treeOf
  rw [hGet]
  cases hKept : c.trees.lookup r with
  | some t => exact (hHolds.trees hKept).symm
  | none =>
    rw [← hHolds.direction]
    cases RegionTree.ofRegion c.direction g r <;> rfl

theorem Steady.treeOf (g : Graph) (r : RegionId) : (treeOf g r).Steady g where
  same hHolds₁ hHolds₂ := by rw [run'_treeOf hHolds₁, run'_treeOf hHolds₂]
  keeps {c c' t} hRun := by
    unfold DominanceQuery.treeOf at hRun
    obtain ⟨_, _, hGet, hRun⟩ := run_bind_eq_ok.mp hRun
    cases hGet
    split at hRun
    next =>
      obtain ⟨_, rfl⟩ := run_pure_eq_ok.mp hRun
      exact ⟨rfl, fun _ => id⟩
    next =>
      obtain ⟨_, hTree, hRun⟩ := run_lift_bind_eq_ok.mp hRun
      obtain ⟨_, _, hSet, hRun⟩ := run_bind_eq_ok.mp hRun
      obtain ⟨rfl, rfl⟩ := run_pure_eq_ok.mp hRun
      cases hSet
      refine ⟨rfl, fun d hHolds => hHolds.keep ?_⟩
      rwa [hHolds.direction] at hTree

theorem Steady.blockProperlyDominates (g : Graph) (a b : BlockId) :
    (g.blockProperlyDominates a b).Steady g := by
  unfold Graph.blockProperlyDominates
  split
  next => exact .pure false
  next =>
    refine .bind (.lift _) fun blk => .bind (.lift _) fun blk' => ?_
    split
    next => exact .pure false
    next => exact .bind (.treeOf g _) fun t => .pure _

theorem Steady.properlyDominatesOr (enclosing : Bool) (g : Graph) (a b : OpId) :
    (g.properlyDominatesOr enclosing a b).Steady g := by
  unfold Graph.properlyDominatesOr
  split
  next => exact .pure false
  next =>
    refine .bind (.lift _) fun r => .bind (.lift _) fun lifted => ?_
    cases lifted with
    | none => exact .pure false
    | some z =>
      dsimp only
      split
      next => exact .pure enclosing
      next =>
        refine .bind (.lift _) fun b => .bind (.lift _) fun c => ?_
        split
        next =>
          refine .direction (fun c => ?_) fun c₁ c₂ hSame => by rw [hSame]
          split <;> exact .lift _
        next => exact .blockProperlyDominates g b c

theorem Steady.dominates (g : Graph) (a b : OpId) :
    (g.dominates a b).Steady g := by
  unfold Graph.dominates
  split
  next => exact .pure true
  next => exact .properlyDominatesOr true g a b

/- A question has an answer, whatever trees of the graph are kept. -/
def Answers (g : Graph) (q : DominanceQuery α) (x : α) : Prop := ∀ c : DominanceCache, c.Current g →
    ∃ c' : DominanceCache, c'.Current g ∧ q.run c = .ok (x, c')

theorem Answers.unique {c c' : DominanceCache} (hAnswers : q.Answers g x) (hCurrent : c.Current g)
    (hRun : q.run c = .ok (y, c')) : x = y ∧ c'.Current g := by
  obtain ⟨_, hNext, hSame⟩ := hAnswers c hCurrent
  cases hRun.symm.trans hSame
  exact ⟨rfl, hNext⟩

theorem Answers.runFresh (hAnswers : q.Answers g x) : q.runFresh .forward = .ok x := by
  obtain ⟨_, _, hRun⟩ := hAnswers _ (.fresh g)
  exact map_eq_ok.mpr ⟨_, hRun, rfl⟩

/- The answer without kept trees is the answer with them. -/
theorem Steady.answers (hSteady : q.Steady g) (hFresh : q.runFresh .forward = .ok x) :
    q.Answers g x := by
  intro c hCurrent
  have hHolds := DominanceCache.current_iff.mp hCurrent
  have hSame := (hSteady.same hHolds (DominanceCache.holds_fresh .forward g)).trans hFresh
  obtain ⟨⟨_, c'⟩, hRun, rfl⟩ := map_eq_ok.mp hSame
  exact ⟨c', DominanceCache.current_iff.mpr ((hSteady.keeps hRun).2 _ hHolds), hRun⟩

theorem runFresh_lift_bind {e : Except Fault α} {k : α → DominanceQuery β} {d : Direction}
    (hOk : e = .ok x) : (liftM e >>= k : DominanceQuery β).runFresh d = (k x).runFresh d := by
  rw [hOk]
  rfl

/- The blocks of one region are compared by its tree. -/
theorem runFresh_blockProperlyDominates (hOther : a ≠ b) (hBlock : g.block a = .ok blk)
    (hBlock' : g.block b = .ok blk') (hSame : blk'.parent = blk.parent)
    (hTree : RegionTree.ofRegion .forward g blk.parent = .ok t) :
    (g.blockProperlyDominates a b).runFresh .forward = .ok (t.properlyDominates a b) := by
  unfold Graph.blockProperlyDominates
  rw [if_neg hOther, runFresh_lift_bind hBlock, runFresh_lift_bind hBlock',
    if_neg (not_not.mpr hSame)]
  have hRun := Graph.run_treeOf_fresh.mpr ⟨hTree, rfl⟩
  exact map_eq_ok.mpr ⟨_, run_bind_eq_ok.mpr ⟨t, _, hRun, rfl⟩, rfl⟩

end DominanceQuery

end AffineIR
