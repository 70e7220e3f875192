import AffineIR.Proofs.Nest.Keeping

/-
  Moving operations into the body of an inner loop.

  Operations of the body of a loop are moved behind a new guard
  in the body of a loop further inside.  What is nested in what
  stays so, blocks end as before, and only the guard and its
  yield are new.  So the function keeps its shape, and what was
  moved is found in the body of the inner loop, in its order.

  Main declarations:
    * `Perfection.Lowers`, `Perfection.Lowers.shaped'`
-/

namespace AffineIR

open Answer List Option

variable {w x z : OpId} {c : BlockId} {r : RegionId} {o : Operation} {parent : Option OpId}
  {f : Function} {now : List OpId}

------
-- Bodies of loops
------

/- A loop with the only block of its body. -/
structure Graph.LoopBody (g : Graph) (x : OpId) (b : BlockId) (blk : Block) : Prop where
  op : ∃ o, g.op x = .ok o ∧ o.kind.isLoop = true ∧ o.regions = [blk.parent]
  region : ∃ reg, g.region blk.parent = .ok reg ∧ reg.blocks = [b] ∧ reg.parent = some x
  block : g.block b = .ok blk

namespace Graph.LoopBody

variable {g : Graph} {y : OpId} {b : BlockId} {blk : Block} {body : RegionId}

theorem holder (hBody : g.LoopBody x b blk) (hMem : y ∈ blk.ops) : g.Holder x y := by
  obtain ⟨o, hOp, _, hRegions⟩ := hBody.op
  obtain ⟨reg, hRegion, hBlocks, _⟩ := hBody.region
  exact ⟨o, blk.parent, b, hOp, by simp [hRegions],
    ⟨reg, hRegion, by simp [hBlocks]⟩, blk, hBody.block, hMem⟩

theorem mem_of_holder (hBody : g.LoopBody x b blk) (hHolder : g.Holder x y) : y ∈ blk.ops := by
  obtain ⟨o, r, c, hOp, hMem, ⟨reg, hRegion, hListed⟩, blk', hBlock, hIn⟩ := hHolder
  obtain ⟨o', hOp', _, hRegions⟩ := hBody.op
  cases hOp.symm.trans hOp'
  rw [hRegions, mem_singleton] at hMem
  subst hMem
  obtain ⟨reg', hRegion', hBlocks, _⟩ := hBody.region
  cases hRegion.symm.trans hRegion'
  rw [hBlocks, mem_singleton] at hListed
  subst hListed
  cases hBlock.symm.trans hBody.block
  exact hIn

theorem covers (hBody : g.LoopBody x b blk)
    (hReached : g.Reached body x) : g.Covers body (some x) blk.parent := by
  obtain ⟨o, hOp, _, hRegions⟩ := hBody.op
  exact .inner hReached hOp (by simp [hRegions])

theorem bodyBlock (hBody : g.LoopBody x b blk) : g.bodyBlock x = .ok b := by
  obtain ⟨o, hOp, _, hRegions⟩ := hBody.op
  obtain ⟨reg, hRegion, hBlocks, _⟩ := hBody.region
  unfold Graph.bodyBlock
  rw [hOp, ok_bind, hRegions]
  change (do entryAt (← g.region blk.parent).blocks 0) = _
  rw [hRegion, ok_bind, hBlocks]
  rfl

theorem head_args {v : ValueId} (hBody : g.LoopBody x b blk)
    (hVar : g.inductionVar x = .ok v) : blk.args[0]? = some v := by
  unfold Graph.inductionVar at hVar
  rwa [hBody.bodyBlock, ok_bind, hBody.block, ok_bind, entryAt_eq_ok] at hVar

/- The body of a loop ends with a yield. -/
theorem yield (hBody : f.graph.LoopBody x b blk) (hShaped : f.Shaped)
    (hReached : f.graph.Reached f.body x) :
    ∃ init last o, blk.ops = init ++ [last] ∧ f.graph.op last = .ok o ∧ o.kind = .yield := by
  obtain ⟨o, hOp, hLoop, _⟩ := hBody.op
  obtain ⟨kind, hKind, hEnds⟩ := hShaped.ends (hBody.covers hReached) hBody.block
  unfold Graph.kind at hKind
  rw [mapM_some, hOp] at hKind
  cases hKind
  exact yield_of_endProblems (.inl hLoop) hEnds

end Graph.LoopBody

theorem Function.Shaped.loopBody (hShaped : f.Shaped) (hIntact : f.graph.Intact)
    (hReached : f.graph.Reached f.body x) (hOp : f.graph.op x = .ok o)
    (hLoop : o.kind.isLoop = true) : ∃ b blk, f.graph.LoopBody x b blk := by
  have hKind : ∃ lower upper step, o.kind = .loop lower upper step := by
    unfold Kind.isLoop at hLoop
    split at hLoop
    next lower upper step hKind => exact ⟨lower, upper, step, hKind⟩
    next => cases hLoop
  obtain ⟨lower, upper, step, hKind⟩ := hKind
  rcases shape_of_loop (hShaped.kinds hReached) hOp hKind with
    ⟨_, r, reg, b, blk, _, hRegions, hRegion, hBlocks, hBlock, _⟩
  obtain ⟨_, hSame, rfl⟩ := hIntact.listed hRegion (by rw [hBlocks]; exact mem_singleton_self b)
  cases hBlock.symm.trans hSame
  obtain ⟨_, hRegion', hParent⟩ := hIntact.held hOp (by rw [hRegions]; exact mem_singleton_self _)
  cases hRegion.symm.trans hRegion'
  exact ⟨b, blk, ⟨o, hOp, hLoop, hRegions⟩, ⟨reg, hRegion, hBlocks, hParent⟩, hBlock⟩

------
-- Lowered operations
------

namespace Perfection

/-
  Operations of the body of a loop that are to be moved into
  the body of a loop inside another operation of this body.
-/
structure Descent (g : Graph) (body : RegionId) (outer passage inner : OpId) (b home : BlockId)
    (blk blk' : Block) (ops : List OpId) : Prop where
  intact : g.Intact
  linked : g.Linked body none
  source : g.LoopBody outer b blk
  target : g.LoopBody inner home blk'
  reached : g.Reached body outer
  between : passage ∈ blk.ops
  below : g.Inside passage inner
  stays : passage ∉ ops
  front : ops.Sublist blk.ops.dropLast

/- The operations have been moved behind a guard there. -/
structure Lowered (g g' : Graph) (body : RegionId) (outer passage inner : OpId) (b home : BlockId)
    (blk blk' : Block) (ops : List OpId) (set : Affine.IntegerSet) (vars : List ValueId)
    (guard close : OpId) (branch : BlockId) (yes no : RegionId) (before after : List OpId) : Prop
    extends Descent g body outer passage inner b home blk blk' ops where
  behind : Behind g g' set vars ops b home guard close branch yes no
  split : blk'.ops = before ++ after
  rest : after ≠ []
  landed : g'.block home = .ok { blk' with ops :=
    before ++ (ops.filter g.hasResults ++ guard :: after) }

variable {g g' : Graph} {body : RegionId} {outer passage inner : OpId} {b home : BlockId}
  {blk blk' : Block} {ops : List OpId} {set : Affine.IntegerSet} {vars : List ValueId}
  {guard close : OpId} {branch : BlockId} {yes no : RegionId} {before after : List OpId}

namespace Lowered

variable
  (h : Lowered g g' body outer passage inner b home blk blk' ops set vars guard close branch yes no
    before after)

include h

theorem mem_source (hMem : x ∈ ops) : x ∈ blk.ops :=
  mem_of_mem_dropLast (h.front.subset hMem)

theorem reached_moved (hMem : x ∈ ops) : g.Reached body x :=
  .child h.reached (h.source.holder (h.mem_source hMem))

/- The last operation of the source stays there. -/
theorem source_split : ∃ init last, blk.ops = init ++ [last] ∧ last ∉ ops := by
  have hNodup := h.intact.nodup_ops h.source.block
  rcases eq_nil_or_concat' blk.ops with hNil | ⟨init, last, hSplit⟩
  · have hMem := h.between
    rw [hNil] at hMem
    cases hMem
  · refine ⟨init, last, hSplit, ?_⟩
    intro hMem
    have hIn := h.front.subset hMem
    rw [hSplit, dropLast_concat] at hIn
    rw [hSplit, nodup_append] at hNodup
    exact hNodup.2.2 last hIn last (mem_singleton_self last) rfl

/- What blocks list after the move. -/
theorem block {old : Block} (hBlock : g.block c = .ok old) :
    ∃ now, g'.block c = .ok { old with ops := now } ∧ now.getLast? = old.ops.getLast? ∧
      (old.ops.filter (· ∉ ops)).Sublist now ∧ ∀ x ∈ now.dropLast, x ∈ old.ops.dropLast ∨
        c = home ∧ (x ∈ ops ∨ x = guard) := by
  by_cases hHome : c = home
  · subst hHome
    cases hBlock.symm.trans h.target.block
    refine ⟨_, h.landed, ?_⟩
    rcases eq_nil_or_concat' after with hNil | ⟨init, last, rfl⟩
    · exact absurd hNil h.rest
    have hNow : before ++ (ops.filter g.hasResults ++ guard :: (init ++ [last])) =
          before ++ (ops.filter g.hasResults ++ guard :: init) ++ [last] := by
      simp
    have hOld : blk'.ops = before ++ init ++ [last] := by rw [h.split, append_assoc]
    refine ⟨?_, ?_, ?_⟩
    · rw [hNow, hOld, List.getLast?_concat, List.getLast?_concat]
    · refine filter_sublist.trans ?_
      rw [h.split]
      refine List.Sublist.append (List.Sublist.refl _) ?_
      exact (sublist_cons_self _ _).trans (sublist_append_right _ _)
    · intro x hMem
      rw [hNow, dropLast_concat] at hMem
      rw [hOld, dropLast_concat]
      simp only [mem_append, mem_cons, mem_filter] at hMem
      rcases hMem with hMem | ⟨hMem, _⟩ | rfl | hMem
      · exact .inl (mem_append_left _ hMem)
      · exact .inr ⟨rfl, .inl hMem⟩
      · exact .inr ⟨rfl, .inr rfl⟩
      · exact .inl (mem_append_right _ hMem)
  · by_cases hSource : c = b
    · subst hSource
      cases hBlock.symm.trans h.source.block
      refine ⟨_, h.behind.left hBlock, ?_, List.Sublist.refl _, ?_⟩
      all_goals
        obtain ⟨init, last, hSplit, hOut⟩ := h.source_split
        rw [hSplit, filter_append,
          filter_cons_of_pos (by simpa using hOut), filter_nil]
      · rw [List.getLast?_concat, List.getLast?_concat]
      · rw [dropLast_concat, dropLast_concat]
        intro x hMem
        exact .inl (mem_of_mem_filter hMem)
    · refine ⟨old.ops, h.behind.edited.block hBlock (by simp [hHome, hSource]),
        rfl, filter_sublist, ?_⟩
      intro x hMem
      exact .inl hMem

theorem mem_block {old : Block} (hBlock : g.block c = .ok old)
    (hNow : g'.block c = .ok { old with ops := now })
    (hMem : x ∈ now) : x ∈ old.ops ∨ c = home ∧ (x ∈ ops ∨ x = guard) := by
  obtain ⟨now', hNow', hLast, _, hFront⟩ := h.block hBlock
  cases hNow.symm.trans hNow'
  rcases eq_nil_or_concat' now with rfl | ⟨init, last, rfl⟩
  · cases hMem
  rw [dropLast_concat] at hFront
  rw [List.getLast?_concat] at hLast
  rcases mem_append.mp hMem with hMem | hMem
  · rcases hFront x hMem with hOld | hNew
    · exact .inl (mem_of_mem_dropLast hOld)
    · exact .inr hNew
  · rw [mem_singleton.mp hMem]
    exact .inl (mem_of_getLast? hLast.symm)

/- What the regions that were there before list now. -/
theorem lists_old {reg : Region} (hRegion : g.region r = .ok reg)
    (hLists : g'.Lists r c x) : g.Lists r c x ∨ x ∈ ops ∨ x = guard := by
  obtain ⟨⟨reg', hRegion', hListed⟩, now, hNow, hMem⟩ := hLists
  cases (h.behind.edited.region hRegion).symm.trans hRegion'
  obtain ⟨old, hOld, _⟩ := h.intact.listed hRegion hListed
  obtain ⟨ops', hNow'⟩ := h.behind.edited.lists hOld
  cases hNow.symm.trans hNow'
  rcases h.mem_block hOld hNow hMem with hIn | ⟨_, hNew⟩
  · exact .inl ⟨⟨reg, hRegion, hListed⟩, old, hOld, hIn⟩
  · exact .inr hNew

------
-- Nesting
------

theorem lists_of_stays (hLists : g.Lists r c x) (hStays : x ∉ ops) : g'.Lists r c x := by
  obtain ⟨⟨reg, hRegion, hListed⟩, old, hOld, hMem⟩ := hLists
  obtain ⟨now, hNow, _, hSub, _⟩ := h.block hOld
  exact ⟨⟨reg, h.behind.edited.region hRegion, hListed⟩, _, hNow,
    hSub.subset (mem_filter.mpr ⟨hMem, by simpa using hStays⟩)⟩

theorem holder_of_stays (hHolder : g.Holder w x) (hStays : x ∉ ops) : g'.Holder w x := by
  obtain ⟨o, r, c, hOp, hMem, hLists⟩ := hHolder
  obtain ⟨q, hOp'⟩ := h.behind.edited.moves hOp
  exact ⟨_, r, c, hOp', hMem, h.lists_of_stays hLists hStays⟩

/- Nothing inside the passage is moved. -/
theorem stays_of_inside (hInside : g.Inside passage x) : x ∉ ops := by
  intro hMem
  have hSits := h.intact.sits_of_mem h.source.block (h.mem_source hMem)
  have hSits' := h.intact.sits_of_mem h.source.block h.between
  have hSame := h.intact.eq_of_inside h.linked (h.reached_moved hMem) .self hInside hSits hSits'
  exact h.stays (hSame ▸ hMem)

theorem inside_passage (hInside : g.Inside passage x) : g'.Inside passage x := by
  induction hInside with
  | self => exact .self
  | child hOuter hHolder ih =>
    exact .child ih (h.holder_of_stays hHolder (h.stays_of_inside (.child hOuter hHolder)))

theorem loopBody' {old : Block} (hBody : g.LoopBody x c old)
    (hNow : g'.block c = .ok { old with ops := now }) :
    g'.LoopBody x c { old with ops := now } := by
  obtain ⟨o, hOp, hLoop, hRegions⟩ := hBody.op
  obtain ⟨reg, hRegion, hBlocks, hParent⟩ := hBody.region
  obtain ⟨q, hOp'⟩ := h.behind.edited.moves hOp
  exact ⟨⟨_, hOp', hLoop, hRegions⟩, ⟨reg, h.behind.edited.region hRegion, hBlocks, hParent⟩, hNow⟩

/- The body of the inner loop, after the move. -/
theorem target' : g'.LoopBody inner home { blk' with ops :=
      before ++ (ops.filter g.hasResults ++ guard :: after) } := h.loopBody' h.target h.landed

/- The body of the outer loop, after the move. -/
theorem source' : g'.LoopBody outer b { blk with ops := blk.ops.filter (· ∉ ops) } :=
  h.loopBody' h.source (h.behind.left h.source.block)

theorem holder_guard : g'.Holder inner guard := h.target'.holder (by simp)

theorem holder_branch (hMem : x ∈ ops) (hResults : g.hasResults x = false) : g'.Holder guard x := by
  refine ⟨_, yes, branch, h.behind.guardOp, by simp,
    ⟨_, h.behind.yesRegion, by simp⟩, _, h.behind.branchBlock, ?_⟩
  exact mem_append_left _ (mem_filter.mpr ⟨hMem, by simp [hResults]⟩)

/- Moved operations are found in the body of the inner loop. -/
theorem lands (hMem : x ∈ ops) :
    ∃ w ∈ ops.filter g.hasResults ++ [guard], g'.Inside w x ∧ g'.Holder inner w := by
  cases hResults : g.hasResults x with
  | true =>
    have hIn : x ∈ ops.filter g.hasResults := mem_filter.mpr ⟨hMem, hResults⟩
    exact ⟨x, mem_append_left _ hIn, .self, h.target'.holder (by simp [hIn])⟩
  | false => exact ⟨guard, by simp, .child .self (h.holder_branch hMem hResults), h.holder_guard⟩

/- What was inside an operation still is. -/
theorem inside (hInside : g.Inside w x) : g'.Inside w x := by
  induction hInside with
  | self => exact .self
  | @child z x _ hHolder ih =>
    by_cases hMem : x ∈ ops
    · -- a moved operation is inside the passage now
      have hOuter : z = outer := by
        have hFirst := h.intact.parentOp?_of_holder hHolder
        have hSecond := h.intact.parentOp?_of_holder (h.source.holder (h.mem_source hMem))
        cases hFirst.symm.trans hSecond
        rfl
      subst hOuter
      obtain ⟨w, _, hThere, hHeld⟩ := h.lands hMem
      have hPassage : g'.Holder z passage := h.holder_of_stays (h.source.holder h.between) h.stays
      have hDown := (Graph.Inside.child (h.inside_passage h.below) hHeld).trans hThere
      exact (Graph.Inside.child ih hPassage).trans hDown
    · exact .child ih (h.holder_of_stays hHolder hMem)

/- The regions of the guard list what was moved there and the yield. -/
theorem lists_branch (hMem : r ∈ [yes, no])
    (hLists : g'.Lists r c x) : r = yes ∧ c = branch ∧ (x ∈ ops ∨ x = close) := by
  obtain ⟨⟨reg, hRegion, hListed⟩, blk₁, hBlock, hIn⟩ := hLists
  simp only [mem_cons, not_mem_nil, or_false] at hMem
  rcases hMem with rfl | rfl
  · cases hRegion.symm.trans h.behind.yesRegion
    cases mem_singleton.mp hListed
    cases hBlock.symm.trans h.behind.branchBlock
    refine ⟨rfl, rfl, ?_⟩
    rcases mem_append.mp hIn with hIn | hIn
    · exact .inl (mem_of_mem_filter hIn)
    · exact .inr (mem_singleton.mp hIn)
  · cases hRegion.symm.trans h.behind.noRegion
    cases hListed

/- What an operation from before holds now. -/
theorem holder_old (hOp : g.op z = .ok o)
    (hHolder : g'.Holder z x) : g.Holder z x ∨ x ∈ ops ∨ x = guard := by
  obtain ⟨o', r, c, hOp', hHeld, hLists⟩ := hHolder
  obtain ⟨q, hSame⟩ := h.behind.edited.moves hOp
  cases hOp'.symm.trans hSame
  obtain ⟨reg, hRegion, _⟩ := h.intact.held hOp hHeld
  rcases h.lists_old hRegion hLists with hThere | hNew
  · exact .inl ⟨o, r, c, hOp, hHeld, hThere⟩
  · exact .inr hNew

/- What the guard and its yield hold. -/
theorem holder_new (hNew : z = guard ∨ z = close)
    (hHolder : g'.Holder z x) : x ∈ ops ∨ x = close := by
  obtain ⟨o, r, c, hOp, hHeld, hLists⟩ := hHolder
  rcases hNew with rfl | rfl
  · cases hOp.symm.trans h.behind.guardOp
    exact (h.lists_branch hHeld hLists).2.2
  · cases hOp.symm.trans h.behind.closeOp
    cases hHeld

/- The body keeps all that is in it. -/
theorem reached' (hReached : g.Reached body x) : g'.Reached body x := by
  induction hReached with
  | @top c x hLists =>
    refine .top (h.lists_of_stays hLists ?_)
    intro hMem
    have hHolder := h.source.holder (h.mem_source hMem)
    cases (h.linked.parentOp? hLists).symm.trans (h.intact.parentOp?_of_holder hHolder)
  | child _ hHolder ih => exact (h.inside (.child .self hHolder)).reached ih

/- What is in the body was there before, or belongs to the guard. -/
theorem reached_cases
    (hReached : g'.Reached body x) : g.Reached body x ∨ x = guard ∨ x = close := by
  induction hReached with
  | top hLists =>
    obtain ⟨reg, hRegion, _⟩ := h.linked.region
    rcases h.lists_old hRegion hLists with hThere | hMem | rfl
    · exact .inl (.top hThere)
    · exact .inl (h.reached_moved hMem)
    · exact .inr (.inl rfl)
  | child _ hHolder ih =>
    rcases ih with hReached | hNew
    · obtain ⟨o, hOp⟩ := h.intact.op_of_reached hReached
      rcases h.holder_old hOp hHolder with hThere | hMem | rfl
      · exact .inl (.child hReached hThere)
      · exact .inl (h.reached_moved hMem)
      · exact .inr (.inl rfl)
    · rcases h.holder_new hNew hHolder with hMem | rfl
      · exact .inl (h.reached_moved hMem)
      · exact .inr (.inr rfl)

/- The same for what is inside an operation around the source. -/
theorem inside_cases (hAround : g.Inside w outer)
    (hInside : g'.Inside w x) : g.Inside w x ∨ x = guard ∨ x = close := by
  have hMoved {x : OpId} (hMem : x ∈ ops) : g.Inside w x :=
    .child hAround (h.source.holder (h.mem_source hMem))
  have hReached := h.intact.reached_of_inside h.linked h.reached hAround
  induction hInside with
  | self => exact .inl .self
  | child _ hHolder ih =>
    rcases ih with hThere | hNew
    · obtain ⟨o, hOp⟩ := h.intact.op_of_reached (hThere.reached hReached)
      rcases h.holder_old hOp hHolder with hOld | hMem | rfl
      · exact .inl (.child hThere hOld)
      · exact .inl (hMoved hMem)
      · exact .inr (.inl rfl)
    · rcases h.holder_new hNew hHolder with hMem | rfl
      · exact .inl (hMoved hMem)
      · exact .inr (.inr rfl)

end Lowered

/- The same in a function that is well-shaped. -/
structure Lowers (f : Function) (g' : Graph) (outer passage inner : OpId) (b home : BlockId)
    (blk blk' : Block) (ops : List OpId) (set : Affine.IntegerSet) (vars : List ValueId)
    (guard close : OpId) (branch : BlockId) (yes no : RegionId) (before after : List OpId) : Prop
    extends Lowered f.graph g' f.body outer passage inner b home blk blk' ops set vars guard close
      branch yes no before after where
  plain {x : OpId} {o : Operation} (hMem : x ∈ ops) (hOp : f.graph.op x = .ok o) : o.successors = []
  fits : set.numInputs = .ok vars.length
  intact' : g'.Intact
  shaped : f.Shaped

namespace Lowers

variable
  (h : Lowers f g' outer passage inner b home blk blk' ops set vars guard close branch yes no before
    after)

include h

theorem covers_cases (hCovers : g'.Covers f.body parent r) :
    f.graph.Covers f.body parent r ∨ parent = some guard ∧ r ∈ [yes, no] := by
  cases hCovers with
  | top => exact .inl .top
  | inner hReached hOp' hHeld =>
    rcases h.reached_cases hReached with hThere | rfl | rfl
    · obtain ⟨o, hOp⟩ := h.intact.op_of_reached hThere
      obtain ⟨q, hSame⟩ := h.behind.edited.moves hOp
      cases hOp'.symm.trans hSame
      exact .inl (.inner hThere hOp hHeld)
    · cases hOp'.symm.trans h.behind.guardOp
      exact .inr ⟨rfl, hHeld⟩
    · cases hOp'.symm.trans h.behind.closeOp
      cases hHeld

theorem region_of_covers
    (hCovers : f.graph.Covers f.body parent r) : ∃ reg, f.graph.region r = .ok reg := by
  cases hCovers with
  | top =>
    obtain ⟨reg, hRegion, _⟩ := h.shaped.root
    exact ⟨reg, hRegion⟩
  | inner _ hOp hHeld =>
    obtain ⟨reg, hRegion, _⟩ := h.intact.held hOp hHeld
    exact ⟨reg, hRegion⟩

/- The blocks of a body: those from before, and the one of the guard. -/
theorem block_cases {now : Block} (hCovers : g'.Covers f.body parent now.parent)
    (hNow : g'.block c = .ok now) :
    (∃ old, f.graph.block c = .ok old ∧ now = { old with ops := now.ops } ∧
      f.graph.Covers f.body parent old.parent) ∨
    parent = some guard ∧ now = {
      ops := ops.filter (fun x => !f.graph.hasResults x) ++ [close]
      parent := yes } := by
  obtain ⟨reg, hRegion, hListed⟩ := h.intact'.home hNow
  rcases h.covers_cases hCovers with hThere | ⟨rfl, hMem⟩
  · obtain ⟨reg', hOld⟩ := h.region_of_covers hThere
    cases (h.behind.edited.region hOld).symm.trans hRegion
    obtain ⟨old, hBlock, _⟩ := h.intact.listed hOld hListed
    obtain ⟨ops', hNow'⟩ := h.behind.edited.lists hBlock
    cases hNow.symm.trans hNow'
    exact .inl ⟨old, hBlock, rfl, hThere⟩
  · refine .inr ⟨rfl, ?_⟩
    simp only [mem_cons, not_mem_nil, or_false] at hMem
    rcases hMem with hYes | hNo
    · rw [hYes] at hRegion
      cases hRegion.symm.trans h.behind.yesRegion
      cases mem_singleton.mp hListed
      exact Except.ok.inj (hNow.symm.trans h.behind.branchBlock)
    · rw [hNo] at hRegion
      cases hRegion.symm.trans h.behind.noRegion
      cases hListed

------
-- Shapes
------

theorem not_terminator_of_mem (hMem : x ∈ ops)
    (hOp : g'.op x = .ok o) : o.kind.isTerminator = false := by
  obtain ⟨o', hOp'⟩ := h.intact.op_of_reached (h.reached_moved hMem)
  cases hOp.symm.trans (h.behind.moved hMem hOp')
  have hLast := h.shaped.last (h.source.covers h.reached)
    h.source.block (h.front.subset hMem) hOp'
  exact hLast

theorem successors_of_mem (hMem : x ∈ ops) (hOp : g'.op x = .ok o) : o.successors = [] := by
  obtain ⟨o', hOp'⟩ := h.intact.op_of_reached (h.reached_moved hMem)
  cases hOp.symm.trans (h.behind.moved hMem hOp')
  have hPlain := h.plain hMem hOp'
  exact hPlain

theorem kind_of_covers (hCovers : f.graph.Covers f.body parent r) :
    parent.mapM g'.kind = parent.mapM f.graph.kind := by
  cases hCovers with
  | top => rfl
  | inner _ hOp _ => rw [mapM_some, mapM_some, h.behind.edited.kind hOp]

theorem kindProblems_guard : Validation.kindProblems { f with graph := g' } guard = .ok [] := by
  unfold Validation.kindProblems
  dsimp only
  rw [h.behind.guardOp, ok_bind]
  dsimp only
  unfold Validation.conditionalProblems
  dsimp only
  rw [h.fits, h.behind.yesRegion, h.behind.noRegion]
  simp [bind, Except.bind, pure, Except.pure, Validation.problemIf, Validation.problemUnless]

theorem kindProblems_close : Validation.kindProblems { f with graph := g' } close = .ok [] := by
  unfold Validation.kindProblems
  dsimp only
  rw [h.behind.closeOp]
  rfl

theorem endProblems_branch :
    Validation.endProblems g' (some (.conditional set)) branch
      (ops.filter (fun x => !f.graph.hasResults x) ++ [close]) = .ok [] := by
  unfold Validation.endProblems Graph.kind
  rw [List.getLast?_concat, mapM_some, h.behind.closeOp]
  rfl

/- The function keeps its shape. -/
theorem shaped' : Function.Shaped { f with graph := g' } where
  root := by
    obtain ⟨reg, hRegion, hParent⟩ := h.shaped.root
    exact ⟨reg, h.behind.edited.region hRegion, hParent⟩
  last {parent c now x o} hCovers hNow hMem hOp := by
    rcases h.block_cases hCovers hNow with ⟨old, hOld, hSame, hThere⟩ | ⟨rfl, rfl⟩
    · obtain ⟨now', hNow', _, _, hFront⟩ := h.block hOld
      cases hNow.symm.trans hNow'
      rcases hFront x hMem with hIn | ⟨_, hIn | rfl⟩
      · obtain ⟨o', hOp', _⟩ := h.intact.placed hOld (mem_of_mem_dropLast hIn)
        obtain ⟨q, hMoved⟩ := h.behind.edited.moves hOp'
        cases hOp.symm.trans hMoved
        have hLast := h.shaped.last hThere hOld hIn hOp'
        exact hLast
      · exact h.not_terminator_of_mem hIn hOp
      · cases hOp.symm.trans h.behind.guardOp
        rfl
    · rw [dropLast_concat] at hMem
      exact h.not_terminator_of_mem (mem_of_mem_filter hMem) hOp
  stays {parent c s now x o} hCovers hNow hMem hOp hLeads := by
    rcases h.block_cases hCovers hNow with ⟨old, hOld, hSame, hThere⟩ | ⟨rfl, rfl⟩
    · rw [hSame] at hNow ⊢
      rcases h.mem_block hOld hNow hMem with hIn | ⟨_, hIn | rfl⟩
      · obtain ⟨o', hOp', _⟩ := h.intact.placed hOld hIn
        obtain ⟨q, hMoved⟩ := h.behind.edited.moves hOp'
        cases hOp.symm.trans hMoved
        obtain ⟨next, hNext, hParent⟩ := h.shaped.stays hThere hOld hIn hOp' hLeads
        obtain ⟨ops', hNext'⟩ := h.behind.edited.lists hNext
        exact ⟨_, hNext', hParent⟩
      · rw [h.successors_of_mem hIn hOp] at hLeads
        cases hLeads
      · cases hOp.symm.trans h.behind.guardOp
        cases hLeads
    · rcases mem_append.mp hMem with hMem | hMem
      · rw [h.successors_of_mem (mem_of_mem_filter hMem) hOp] at hLeads
        cases hLeads
      · rw [mem_singleton.mp hMem] at hOp
        cases hOp.symm.trans h.behind.closeOp
        cases hLeads
  ends {parent c now} hCovers hNow := by
    rcases h.block_cases hCovers hNow with ⟨old, hOld, hSame, hThere⟩ | ⟨rfl, rfl⟩
    · obtain ⟨kind, hKind, hEnds⟩ := h.shaped.ends hThere hOld
      obtain ⟨now', hNow', hLast, _, _⟩ := h.block hOld
      cases hNow.symm.trans hNow'
      exact ⟨kind, (h.kind_of_covers hThere).trans hKind,
        (h.behind.edited.endProblems h.intact hOld hLast).trans hEnds⟩
    · have hSame : c = branch := by
        obtain ⟨reg, hRegion, hListed⟩ := h.intact'.home hNow
        cases hRegion.symm.trans h.behind.yesRegion
        exact mem_singleton.mp hListed
      refine ⟨some (.conditional set), ?_, hSame ▸ h.endProblems_branch⟩
      unfold Graph.kind
      rw [mapM_some, h.behind.guardOp]
      rfl
  kinds {x} hReached := by
    rcases h.reached_cases hReached with hThere | rfl | rfl
    · obtain ⟨o, hOp⟩ := h.intact.op_of_reached hThere
      rw [h.behind.edited.kindProblems h.intact hOp]
      exact h.shaped.kinds hThere
    · exact h.kindProblems_guard
    · exact h.kindProblems_close

end Lowers

end Perfection

end AffineIR
