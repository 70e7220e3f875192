import AffineIR.Proofs.Nest.Lowering

/-
  What operations see after others were moved inwards.

  A value is seen by an operation through the operation around
  it in the region of the value.  Moved operations are around
  the same operations as before; the order among them is kept,
  and where they have left a block the loop that they went into
  takes their place.  So values stay in sight, except results of
  moved operations whose users stay behind.

  Main result: `Perfection.Lowers.sees`
-/

namespace AffineIR

open List

theorem filter_mem_of_sublist {α : Type} [DecidableEq α] {xs ys : List α} (hSub : xs.Sublist ys)
    (hNodup : ys.Nodup) : ys.filter (· ∈ xs) = xs := by
  induction hSub with
  | slnil => rfl
  | @cons xs ys a hSub ih =>
    obtain ⟨hFirst, hRest⟩ := nodup_cons.mp hNodup
    rw [filter_cons_of_neg]
    · exact ih hRest
    · simpa using fun hMem => hFirst (hSub.subset hMem)
  | @cons_cons xs ys a hSub ih =>
    obtain ⟨hFirst, hRest⟩ := nodup_cons.mp hNodup
    rw [filter_cons_of_pos (by simp), List.cons.injEq]
    refine ⟨rfl, ?_⟩
    rw [← ih hRest]
    refine filter_congr ?_
    intro y hMem
    have hOther : y ≠ a := fun hSame => hFirst (hSame ▸ hMem)
    simp [hOther, ih hRest]

/- A sublist has its elements in the order of the list. -/
theorem pair_sublist_of_mem {α : Type} [DecidableEq α] {xs ys : List α} {s t : α}
    (hSub : xs.Sublist ys) (hNodup : ys.Nodup) (hOrder : [s, t].Sublist ys) (hFirst : s ∈ xs)
    (hSecond : t ∈ xs) : [s, t].Sublist xs := by
  have hBoth := hOrder.filter (· ∈ xs)
  rw [filter_mem_of_sublist hSub hNodup] at hBoth
  simpa [hFirst, hSecond] using hBoth

/- The body of a loop is alone in its region. -/
theorem Graph.LoopBody.eq_of_above {g : Graph} {x : OpId} {b c d : BlockId} {blk : Block}
    (hBody : g.LoopBody x b blk) (hIntact : g.Intact) (hAbove : g.Above c d) : c ≠ b ∧ d ≠ b := by
  obtain ⟨hOther, blk₁, blk₂, _, hFirst, hSecond, hSame, _, _⟩ := above_iff.mp hAbove
  obtain ⟨reg, hRegion, hListed⟩ := hIntact.home hFirst
  obtain ⟨reg', hRegion', hListed'⟩ := hIntact.home hSecond
  rw [hSame] at hRegion'
  cases hRegion.symm.trans hRegion'
  obtain ⟨home, hHome, hBlocks, _⟩ := hBody.region
  -- either block in the region of the body is the body
  have hAlone (hParent : blk₁.parent = blk.parent) : False := by
    rw [hParent] at hRegion
    cases hHome.symm.trans hRegion
    rw [hBlocks, mem_singleton] at hListed hListed'
    exact hOther (hListed.trans hListed'.symm)
  constructor
  · rintro rfl
    cases hFirst.symm.trans hBody.block
    exact hAlone rfl
  · rintro rfl
    cases hSecond.symm.trans hBody.block
    exact hAlone hSame.symm

namespace Perfection.Lowers

variable {f : Function} {g' : Graph} {outer passage inner : OpId} {b home : BlockId}
  {blk blk' : Block} {ops : List OpId} {set : Affine.IntegerSet} {vars : List ValueId}
  {guard close : OpId} {branch : BlockId} {yes no : RegionId} {before after : List OpId}
  {v : ValueId} {a x z : OpId}
  (h : Lowers f g' outer passage inner b home blk blk' ops set vars guard close branch yes no before
    after)

include h

/- A moved operation was in the source. -/
theorem source_of_mem {c : BlockId} {old : Block} (hMem : x ∈ ops)
    (hBlock : f.graph.block c = .ok old) (hIn : x ∈ old.ops) : c = b ∧ old = blk := by
  have hSits := h.intact.sits_of_mem hBlock hIn
  have hSits' := h.intact.sits_of_mem h.source.block (h.mem_source hMem)
  obtain ⟨rfl, _⟩ := hSits.unique hSits'
  cases hBlock.symm.trans h.source.block
  exact ⟨rfl, rfl⟩

/- What is around a moved operation's inside, in the source. -/
theorem eq_of_inside {s t : OpId} (hReached : f.graph.Reached f.body x)
    (hFirst : f.graph.Inside s x) (hSecond : f.graph.Inside t x) (hMem : s ∈ blk.ops)
    (hMem' : t ∈ blk.ops) : s = t :=
  h.intact.eq_of_inside h.linked hReached hFirst hSecond
    (h.intact.sits_of_mem h.source.block hMem)
    (h.intact.sits_of_mem h.source.block hMem')

/- What is inside a moved operation is inside the passage. -/
theorem inside_passage_of_mem (hMem : z ∈ ops)
    (hInside : f.graph.Inside z x) : g'.Inside passage x := by
  obtain ⟨w, _, hThere, hHeld⟩ := h.lands hMem
  exact ((Graph.Inside.child (h.inside_passage h.below) hHeld).trans
    hThere).trans (h.inside hInside)

theorem hasResults_of_isResult (hReached : f.graph.Reached f.body a)
    (hResult : f.graph.IsResult v a) : f.graph.hasResults a = true := by
  obtain ⟨o, hOp⟩ := h.intact.op_of_reached hReached
  have hMem := h.intact.mem_results hOp hResult
  rw [Graph.hasResults_of_op hOp]
  cases hNone : o.results with
  | nil =>
    rw [hNone] at hMem
    cases hMem
  | cons => rfl

/- Moved operations come in the order they had. -/
theorem order (hOrder : [a, z].Sublist ops) (hResults : f.graph.hasResults a = true) :
    ∃ w, [a, w].Sublist (ops.filter f.graph.hasResults ++ [guard]) ∧ g'.Inside w z := by
  cases hSecond : f.graph.hasResults z with
  | true =>
    refine ⟨z, ?_, .self⟩
    have hBoth := hOrder.filter f.graph.hasResults
    rw [filter_cons_of_pos hResults, filter_cons_of_pos hSecond, filter_nil] at hBoth
    exact hBoth.trans (sublist_append_left _ _)
  | false =>
    have hMem : z ∈ ops := hOrder.subset (by simp)
    refine ⟨guard, ?_, .child .self (h.holder_branch hMem hSecond)⟩
    have hFirst : a ∈ ops.filter f.graph.hasResults :=
      mem_filter.mpr ⟨hOrder.subset (by simp), hResults⟩
    exact (singleton_sublist.mpr hFirst).append (List.Sublist.refl [guard])

theorem above' {c d : BlockId} (hAbove : f.graph.Above c d) : g'.Above c d := by
  refine h.behind.edited.above h.intact ?_ hAbove
  intro c old now hOld hNow
  obtain ⟨now', hNow', hLast, _⟩ := h.block hOld
  cases hNow.symm.trans hNow'
  exact hLast

/-
  Values stay in sight, if users of results of what was moved
  have moved along or come after it in the body of the inner
  loop.
-/
theorem sees (hQuiet : ∀ v, ¬f.graph.IsResult v passage)
    (hPrior : ∀ {a z}, [a, z].Sublist blk.ops → z ∈ ops → a ∈ ops ∨ a = passage)
    (hUse : f.graph.Inside outer x → ∀ a ∈ ops, f.graph.IsResult v a →
      (∃ s ∈ ops, f.graph.Inside s x) ∨ (∃ w ∈ after, f.graph.Inside w x) ∨
      f.graph.Inside passage x ∧ ¬[a, passage].Sublist blk.ops)
    (hReached : f.graph.Reached f.body x)
    (hSees : f.graph.Sees v x) : g'.Sees v x := by
  obtain ⟨z, hInside, hProvides⟩ := hSees
  cases hProvides with
  | @result a hResult hLeading =>
    have hResult' := h.behind.edited.isResult h.intact h.intact' hResult
    cases hLeading with
    | @earlier c old hOld hOrder =>
      have hFirst : a ∈ old.ops := hOrder.subset (by simp)
      have hSecond : z ∈ old.ops := hOrder.subset (by simp)
      by_cases hMoved : a ∈ ops
      · obtain ⟨rfl, rfl⟩ := h.source_of_mem hMoved hOld hFirst
        have hResults := h.hasResults_of_isResult (h.reached_moved hMoved) hResult
        by_cases hAlong : z ∈ ops
        · -- both have moved
          have hSub := h.front.trans (dropLast_sublist old.ops)
          rcases h.order (pair_sublist_of_mem hSub (h.intact.nodup_ops hOld)
            hOrder hMoved hAlong) hResults with ⟨w, hBoth, hThere⟩
          refine ⟨w, hThere.trans (h.inside hInside), .result hResult' (.earlier h.landed ?_)⟩
          rw [append_cons (ops.filter f.graph.hasResults)]
          exact (hBoth.trans (sublist_append_left _ after)).trans
            (sublist_append_right before _)
        · have hOuter := (Graph.Inside.child .self (h.source.holder hSecond)).trans hInside
          rcases hUse hOuter a hMoved hResult with
            ⟨s, hMem, hAround⟩ | ⟨w, hMem, hAround⟩ | ⟨hAround, hNot⟩
          · cases h.eq_of_inside hReached hAround hInside (h.mem_source hMem) hSecond
            exact absurd hMem hAlong
          · refine ⟨w, h.inside hAround, .result hResult' (.earlier h.landed ?_)⟩
            have hFront : a ∈ ops.filter f.graph.hasResults := mem_filter.mpr ⟨hMoved, hResults⟩
            have hBoth := (singleton_sublist.mpr hFront).append
              (singleton_sublist.mpr (mem_cons_of_mem guard hMem))
            exact hBoth.trans (sublist_append_right before _)
          · cases h.eq_of_inside hReached hAround hInside h.between hSecond
            exact absurd hOrder hNot
      · by_cases hAlong : z ∈ ops
        · obtain ⟨rfl, rfl⟩ := h.source_of_mem hAlong hOld hSecond
          rcases hPrior hOrder hAlong with hMem | rfl
          · exact absurd hMem hMoved
          · exact absurd hResult (hQuiet v)
        · obtain ⟨now, hNow, _, hSub, _⟩ := h.block hOld
          have hBoth := hOrder.filter (· ∉ ops)
          rw [filter_cons_of_pos (by simpa using hMoved),
            filter_cons_of_pos (by simpa using hAlong), filter_nil] at hBoth
          exact ⟨z, h.inside hInside, .result hResult' (.earlier hNow (hBoth.trans hSub))⟩
    | @above c d old old' hOld hFirst hAbove hOld' hSecond =>
      -- neither block is the body that the operations have left
      have hStays {x : OpId} {e : BlockId} {blk₁ : Block} (hBlock : f.graph.block e = .ok blk₁)
          (hMem : x ∈ blk₁.ops) (hApart : e ≠ b) :
          ∃ now, g'.block e = .ok now ∧ x ∈ now.ops := by
        obtain ⟨now, hNow, _, hSub, _⟩ := h.block hBlock
        refine ⟨_, hNow, hSub.subset (mem_filter.mpr ⟨hMem, ?_⟩)⟩
        simpa using fun hMoved => hApart (h.source_of_mem hMoved hBlock hMem).1
      obtain ⟨hApart, hApart'⟩ := h.source.eq_of_above h.intact hAbove
      obtain ⟨_, hNow, hHere⟩ := hStays hOld hFirst hApart
      obtain ⟨_, hNow', hThere⟩ := hStays hOld' hSecond hApart'
      exact ⟨z, h.inside hInside,
        .result hResult' (.above hNow hHere (h.above' hAbove) hNow' hThere)⟩
  | @argument c d old hArgument hOld hMem hOrder =>
    have hArgument' := h.behind.edited.isArgument h.intact h.intact' hArgument
    have hOrder' : d = c ∨ g'.Above c d := hOrder.imp_right h.above'
    obtain ⟨now, hNow, _, hSub, _⟩ := h.block hOld
    by_cases hAlong : z ∈ ops
    · -- the passage is there in place of what has moved
      obtain ⟨rfl, rfl⟩ := h.source_of_mem hAlong hOld hMem
      have hStays : passage ∈ now := hSub.subset (mem_filter.mpr
          ⟨h.between, by simpa using h.stays⟩)
      exact ⟨passage, h.inside_passage_of_mem hAlong hInside,
        .argument hArgument' hNow hStays hOrder'⟩
    · have hStays : z ∈ now := hSub.subset (mem_filter.mpr ⟨hMem, by simpa using hAlong⟩)
      exact ⟨z, h.inside hInside, .argument hArgument' hNow hStays hOrder'⟩

end Perfection.Lowers

end AffineIR
