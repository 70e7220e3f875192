import AffineIR.Proofs.Graph.Sight

/-
  Which values are known at a place.

  A place is a position in a block.  A value is known there if
  it is defined before the position, in the block or in one
  that strictly dominates it, or is known where the operation
  around the block stands.  The operands of an operation of a
  valid function are known at its place.  What is known at a
  place was known at the one before it in a run, or is defined
  in between.

  Main declarations:
    * `Graph.Known.first`, `Graph.Known.jump`
-/

namespace AffineIR

variable {blk blk' next outer : Block} {i k : Nat} {reg : Region}

namespace Graph

variable {g : Graph} {x y z a : OpId} {b c : BlockId} {r r' : RegionId} {v : ValueId}

/- A value is defined in a region before a place in it. -/
def Defined (g : Graph) (v : ValueId) (c : BlockId) (k : Nat) : Prop := ∃ val, g.value v = .ok val ∧
    match val.definer with
    | .result a _ => ∃ (b : BlockId) (blk : Block) (i : Nat),
        g.block b = .ok blk ∧ blk.ops[i]? = some a ∧
          (b = c ∧ i < k ∨ g.StrictlyAbove blk.parent b c)
    | .argument b _ => ∃ blk, g.block b = .ok blk ∧ (b = c ∨ g.StrictlyAbove blk.parent b c)

/- A value is defined before a place or before what is around it. -/
inductive Known (g : Graph) (v : ValueId) : BlockId → Nat → Prop
  | here {c : BlockId} {k : Nat} (hDefined : g.Defined v c k) : Known g v c k
  | around {b c : BlockId} {i k : Nat} {outer inner : Block} {reg : Region}
      {w : OpId} (hOuter : Known g v b i) (hBlock : g.block b = .ok outer)
      (hAt : outer.ops[i]? = some w) (hInner : g.block c = .ok inner)
      (hRegion : g.region inner.parent = .ok reg) (hParent : reg.parent = some w) : Known g v c k

/- What is known around an operation is known inside. -/
theorem Known.inside (hIntact : g.Intact) (hInside : g.Inside z y) (hKnown : g.Known v c k)
    (hBlock : g.block c = .ok blk) (hAt : blk.ops[k]? = some z) (hBlock' : g.block b = .ok blk')
    (hAt' : blk'.ops[i]? = some y) : g.Known v b i := by
  induction hInside generalizing b blk' i with
  | self =>
    obtain ⟨rfl, rfl⟩ := hIntact.place_unique hBlock hAt hBlock' hAt'
    exact hKnown
  | @child w y hInside hHolder ih =>
    have hPlaced : ∃ (d : BlockId) (outer : Block) (j : Nat),
        g.block d = .ok outer ∧ outer.ops[j]? = some w := by
      cases hInside with
      | self => exact ⟨c, blk, k, hBlock, hAt⟩
      | child _ hHolder =>
        obtain ⟨_, _, d, _, _, _, outer, hOuter, hMem⟩ := hHolder
        obtain ⟨j, hPlace⟩ := List.getElem?_of_mem hMem
        exact ⟨d, outer, j, hOuter, hPlace⟩
    obtain ⟨d, outer, j, hOuter, hPlace⟩ := hPlaced
    obtain ⟨o, r, c', hOp, hHeld, ⟨reg, hRegion, hListed⟩, inner, hInner, hMem⟩ := hHolder
    rcases (hIntact.sits_of_mem hInner hMem).unique
      (hIntact.sits_of_mem hBlock' (List.mem_of_getElem? hAt')) with ⟨rfl, _⟩
    obtain ⟨blk'', hBlock'', rfl⟩ := hIntact.listed hRegion hListed
    obtain ⟨reg', hRegion', hParent⟩ := hIntact.held hOp hHeld
    exact .around (ih hOuter hPlace) hOuter hPlace hBlock'' hRegion' hParent

/- What an operation sees is known at its place. -/
theorem Sees.known (hSees : g.Sees v y) (hIntact : g.Intact) (hBlock : g.block b = .ok blk)
    (hAt : blk.ops[i]? = some y) : g.Known v b i := by
  obtain ⟨z, hInside, hProvides⟩ := hSees
  cases hProvides with
  | result hResult hLeading =>
    obtain ⟨val, j, hValue, hDefiner⟩ := hResult
    cases hLeading with
    | earlier hHome hOrder =>
      obtain ⟨m, k, hFirst, hSecond, hLess⟩ := pair_sublist_iff.mp hOrder
      refine Known.inside hIntact hInside (.here ⟨val, hValue, ?_⟩) hHome hSecond hBlock hAt
      rw [hDefiner]
      exact ⟨_, _, m, hHome, hFirst, .inl ⟨rfl, hLess⟩⟩
    | above hThere hIn hAbove hHome hMem =>
      obtain ⟨m, hFirst⟩ := List.getElem?_of_mem hIn
      obtain ⟨k, hSecond⟩ := List.getElem?_of_mem hMem
      refine Known.inside hIntact hInside (.here ⟨val, hValue, ?_⟩) hHome hSecond hBlock hAt
      rw [hDefiner]
      exact ⟨_, _, m, hThere, hFirst, .inr (hAbove.strictlyAbove hThere)⟩
  | argument hArgument hHome hMem hOrder =>
    obtain ⟨val, j, hValue, hDefiner⟩ := hArgument
    obtain ⟨k, hSecond⟩ := List.getElem?_of_mem hMem
    refine Known.inside hIntact hInside (.here ⟨val, hValue, ?_⟩) hHome hSecond hBlock hAt
    rw [hDefiner]
    rcases hOrder with rfl | hAbove
    · exact ⟨_, hHome, .inl rfl⟩
    · obtain ⟨_, blk', _, _, hThere, _⟩ := above_iff.mp hAbove
      exact ⟨blk', hThere, .inr (hAbove.strictlyAbove hThere)⟩

------
-- Known values from place to place
------

/- Behind an operation its results are known, too. -/
theorem Known.step (hBlock : g.block b = .ok blk) (hAt : blk.ops[k]? = some x)
    (hKnown : g.Known v b (k + 1)) : g.Known v b k ∨ g.IsResult v x := by
  cases hKnown with
  | around hOuter hBlock' hAt' hInner hRegion hParent =>
    exact .inl (.around hOuter hBlock' hAt' hInner hRegion hParent)
  | here hDefined =>
    obtain ⟨val, hValue, hPlace⟩ := hDefined
    split at hPlace
    next a j hDefiner =>
      obtain ⟨c, blk', i, hBlock', hAt', ⟨rfl, hLess⟩ | hAbove⟩ := hPlace
      · cases hBlock.symm.trans hBlock'
        rcases Nat.lt_succ_iff_lt_or_eq.mp hLess with hBefore | rfl
        · refine .inl (.here ⟨val, hValue, ?_⟩)
          rw [hDefiner]
          exact ⟨c, blk, i, hBlock, hAt', .inl ⟨rfl, hBefore⟩⟩
        · cases hAt.symm.trans hAt'
          exact .inr ⟨val, j, hValue, hDefiner⟩
      · refine .inl (.here ⟨val, hValue, ?_⟩)
        rw [hDefiner]
        exact ⟨c, blk', i, hBlock', hAt', .inr hAbove⟩
    next c j hDefiner =>
      refine .inl (.here ⟨val, hValue, ?_⟩)
      rwa [hDefiner]

theorem StrictlyAbove.parent_eq (hIntact : g.Intact) (hAbove : g.StrictlyAbove r b c)
    (hBlock : g.block c = .ok blk) : blk.parent = r := by
  obtain ⟨fg, blocks, i, j, hFlow, _, hIndex, _⟩ := hAbove
  obtain ⟨_, _, _, ⟨reg, hRegion, rfl⟩, _⟩ := FlowGraph.of_ofRegion hFlow
  obtain ⟨hLess, hAt, _⟩ := List.idxOf?_eq_some_iff.mp hIndex
  obtain ⟨blk', hBlock', hParent⟩ := hIntact.listed hRegion (List.mem_of_getElem hAt)
  cases hBlock.symm.trans hBlock'
  exact hParent

/- At the first block of a region only its arguments are defined. -/
theorem Defined.argument_of_first (hIntact : g.Intact) (hBlock : g.block b = .ok blk)
    (hRegion : g.region blk.parent = .ok reg) (hFirst : reg.blocks.head? = some b)
    (hDefined : g.Defined v b 0) : g.IsArgument v b := by
  have hNone {r : RegionId} {a : BlockId} : ¬g.StrictlyAbove r a b := by
    intro hAbove
    rw [← hAbove.parent_eq hIntact hBlock] at hAbove
    exact not_strictlyAbove_entry hRegion hFirst hAbove
  obtain ⟨val, hValue, hPlace⟩ := hDefined
  split at hPlace
  next a j hDefiner =>
    obtain ⟨c, home, i, _, _, ⟨_, hLess⟩ | hAbove⟩ := hPlace
    · cases hLess
    · exact absurd hAbove hNone
  next c j hDefiner =>
    obtain ⟨home, _, rfl | hAbove⟩ := hPlace
    · exact ⟨val, j, hValue, hDefiner⟩
    · exact absurd hAbove hNone

/- At the first block of a region its arguments and what is around are known. -/
theorem Known.enter (hIntact : g.Intact) (hBlock : g.block b = .ok blk)
    (hRegion : g.region blk.parent = .ok reg) (hFirst : reg.blocks.head? = some b)
    (hParent : reg.parent = some x) (hOuter : g.block c = .ok outer) (hAt : outer.ops[i]? = some x)
    (hKnown : g.Known v b 0) : g.IsArgument v b ∨ g.Known v c i := by
  cases hKnown with
  | here hDefined => exact .inl (hDefined.argument_of_first hIntact hBlock hRegion hFirst)
  | around hKnown hOuter' hAt' hBlock' hRegion' hParent' =>
    cases hBlock.symm.trans hBlock'
    cases hRegion.symm.trans hRegion'
    cases hParent.symm.trans hParent'
    obtain ⟨rfl, rfl⟩ := hIntact.place_unique hOuter hAt hOuter' hAt'
    exact .inr hKnown

/- At the first block of a region with nothing around only its arguments are. -/
theorem Known.first (hIntact : g.Intact) (hBlock : g.block b = .ok blk)
    (hRegion : g.region blk.parent = .ok reg) (hFirst : reg.blocks.head? = some b)
    (hParent : reg.parent = none) (hKnown : g.Known v b 0) : g.IsArgument v b := by
  cases hKnown with
  | here hDefined => exact hDefined.argument_of_first hIntact hBlock hRegion hFirst
  | around _ _ _ hBlock' hRegion' hParent' =>
    cases hBlock.symm.trans hBlock'
    cases hRegion.symm.trans hRegion'
    cases hParent.symm.trans hParent'

/-
  At the successor of a block what is known at the end of the
  block is known, and the arguments are.
-/
theorem Known.jump {succs : List BlockId} (hIntact : g.Intact) (hBlock : g.block b = .ok blk)
    (hArrives : g.Arrives blk.parent b) (hSuccs : g.blockSuccessors b = .ok succs)
    (hMem : c ∈ succs) (hNext : g.block c = .ok next) (hParent : next.parent = blk.parent)
    (hKnown : g.Known v c 0) : g.IsArgument v c ∨ g.Known v b blk.ops.length := by
  have hEdge {r : RegionId} {a : BlockId} (hAbove : g.StrictlyAbove r a c) :
      a = b ∨ g.StrictlyAbove r a b := by
    have hSame : r = blk.parent := (hAbove.parent_eq hIntact hNext).symm.trans hParent
    rw [hSame] at hAbove ⊢
    exact hAbove.of_edge hArrives hSuccs hMem
  cases hKnown with
  | around hOuter hBlock' hAt hNext' hRegion hAround =>
    cases hNext.symm.trans hNext'
    rw [hParent] at hRegion
    exact .inr (.around hOuter hBlock' hAt hBlock hRegion hAround)
  | here hDefined =>
    obtain ⟨val, hValue, hPlace⟩ := hDefined
    split at hPlace
    next a j hDefiner =>
      obtain ⟨d, home, i, hHome, hAt, ⟨_, hLess⟩ | hAbove⟩ := hPlace
      · cases hLess
      · refine .inr (.here ⟨val, hValue, ?_⟩)
        rw [hDefiner]
        refine ⟨d, home, i, hHome, hAt, ?_⟩
        rcases hEdge hAbove with rfl | hAbove
        · cases hBlock.symm.trans hHome
          exact .inl ⟨rfl, (List.getElem?_eq_some_iff.mp hAt).1⟩
        · exact .inr hAbove
    next d j hDefiner =>
      obtain ⟨home, hHome, rfl | hAbove⟩ := hPlace
      · exact .inl ⟨val, j, hValue, hDefiner⟩
      · refine .inr (.here ⟨val, hValue, ?_⟩)
        rw [hDefiner]
        exact ⟨home, hHome, hEdge hAbove⟩

end Graph

namespace Function

variable {f : Function} {y : OpId} {o : Operation} {v : ValueId}

theorem known_of_operand {b : BlockId} (hValid : f.problems = .ok []) (hIntact : f.graph.Intact)
    (hReached : f.graph.Reached f.body y) (hOp : f.graph.op y = .ok o) (hMem : v ∈ o.operands)
    (hBlock : f.graph.block b = .ok blk) (hAt : blk.ops[i]? = some y) : f.graph.Known v b i := by
  exact ((hIntact.valueDominates_iff (linked_body hValid) hReached).mp
    (visible_of_operand hValid hReached hOp hMem)).known hIntact hBlock hAt

end Function

end AffineIR
