import AffineIR.Proofs.Nest.Paths

/-
  What stands behind a guard, and stays there.

  A nest that has a program still has one after statements were
  moved behind a guard.  No operation gets to bind a value that
  it did not bind before, and what is in the body of the
  innermost loop stays where it is.  So a statement behind a
  guard is there at the end of the rewriting, too.

  Main declarations:
    * `Perfection.Guarded`, `Perfection.Carried.guarded`
-/

namespace AffineIR

open List

variable {c : BlockId} {guard inner root x y : OpId} {p : Prog} {old : Block} {g g' : Graph}
  {vars : List ValueId}

namespace Graph

variable {b : BlockId} {blk : Block} {moved : List OpId} {blocks : List BlockId}

/- The body of a loop is part of this loop only. -/
theorem LoopBody.eq_of_owner (hBody : g.LoopBody x b blk) (hOwner : g.Owner b y) : y = x := by
  obtain ⟨blk', reg', hBlock, hRegion, hParent⟩ := hOwner
  obtain ⟨reg, hRegion', _, hParent'⟩ := hBody.region
  cases hBlock.symm.trans hBody.block
  cases hRegion.symm.trans hRegion'
  cases hParent.symm.trans hParent'
  rfl

/- What has no results now had none before. -/
theorem Edited.quiet (hEdited : g.Edited g' moved blocks)
    (hQuiet : g'.hasResults x = false) : g.hasResults x = false := by
  cases hResults : g.hasResults x with
  | false => rfl
  | true =>
    obtain ⟨o, hOp, _⟩ := (Option.any_eq_true ..).mp hResults
    rwa [hEdited.hasResults (Arena.get_eq_ok_iff.mpr hOp), hResults] at hQuiet

end Graph

namespace Perfection

------
-- Programs after a move
------

variable {body : RegionId} {outer passage : OpId} {b home : BlockId} {blk blk' : Block}
  {ops : List OpId} {set : Affine.IntegerSet} {close : OpId} {branch : BlockId} {yes no : RegionId}
  {before after : List OpId} {v : ValueId}

namespace Lowered

variable
  (h : Lowered g g' body outer passage inner b home blk blk' ops set vars guard close branch yes no
    before after)

include h

theorem within_outer (hMem : x ∈ ops) : g.Within outer x :=
  (h.source.holder (h.mem_source hMem)).within

/- What is inside a moved operation is neither of the two loops. -/
theorem not_owner (hMem : x ∈ ops) (hInside : g.Inside x y)
    (hListed : c ∈ [home, b]) : ¬g.Owner c y := by
  intro hOwner
  have hReached := hInside.reached (h.reached_moved hMem)
  simp only [mem_cons, not_mem_nil, or_false] at hListed
  rcases hListed with rfl | rfl
  · have hInner := h.target.eq_of_owner hOwner
    subst hInner
    have hSame := h.intact.eq_of_inside h.linked hReached hInside h.below
      (h.intact.sits_of_mem h.source.block (h.mem_source hMem))
      (h.intact.sits_of_mem h.source.block h.between)
    exact h.stays (hSame ▸ hMem)
  · have hOuter := h.source.eq_of_owner hOwner
    exact h.intact.ne_of_within h.linked hReached ((h.within_outer hMem).trans hInside) hOuter.symm

/- A moved operation keeps its program. -/
theorem unfolds_moved {o : Operation} (hMem : x ∈ ops) (hUnfolds : g.Unfolds b [x] p)
    (hOp' : g'.op x = .ok o) (hParent : o.parent = some c) : g'.Unfolds c [x] p := by
  have hReached := h.reached_moved hMem
  have hInside {y : OpId} (hIn : y ∈ p.ids) : g.Inside x y := by
    obtain ⟨x', hSelf, hInside⟩ := hUnfolds.inside_of_mem_ids hIn
    rwa [mem_singleton.mp hSelf] at hInside
  obtain ⟨old, hOp⟩ := h.intact.op_of_reached hReached
  obtain ⟨q, hMoved⟩ := h.behind.edited.moves hOp
  cases hOp'.symm.trans hMoved
  cases hParent
  obtain ⟨n, hRow⟩ := h.intact.row h.linked hReached
  refine hUnfolds.move hOp hMoved ?_ ?_ (hUnfolds.nodup_ids h.intact.tidy hRow)
  · exact h.behind.edited.sameInside fun d hListed => h.not_owner hMem .self hListed
  · intro y hIn hOther
    have hThere := (hInside hIn).reached hReached
    obtain ⟨oy, hOpy⟩ := h.intact.op_of_reached hThere
    refine h.behind.edited.sameAt hOpy ?_ fun d hListed => h.not_owner hMem (hInside hIn) hListed
    intro hAlso
    exact hOther (h.intact.eq_of_inside h.linked hThere .self (hInside hIn)
      (h.intact.sits_of_mem h.source.block (h.mem_source hAlso))
      (h.intact.sits_of_mem h.source.block (h.mem_source hMem)))

section Programs

variable (hClosed : g.Closed blk.ops) (hMoved : ∀ x ∈ ops, ∃ p, g.Unfolds b [x] p)
  (hIntact' : g'.Intact)

include hClosed

/- No terminator is moved. -/
theorem not_terminator (hMem : x ∈ ops) : ∃ o, g'.op x = .ok o ∧ o.kind.isTerminator = false := by
  obtain ⟨xs, y, o, hOps, _, _, hOthers⟩ := hClosed
  have hIn := h.front.subset hMem
  rw [hOps, dropLast_concat] at hIn
  obtain ⟨ox, hOp, hPlain⟩ := hOthers x hIn
  exact ⟨_, h.behind.moved hMem hOp, hPlain⟩

/- Blocks stay closed. -/
theorem closed' {now : List OpId} (hBlock : g.block c = .ok old)
    (hNow : g'.block c = .ok { old with ops := now })
    (hOld : g.Closed old.ops) : g'.Closed now := by
  obtain ⟨xs, y, o, hOps, hOp, hYield, hOthers⟩ := hOld
  obtain ⟨now', hNow', hLast, _, hFront⟩ := h.block hBlock
  cases hNow.symm.trans hNow'
  rw [hOps, List.getLast?_concat] at hLast
  rw [hOps, dropLast_concat] at hFront
  obtain ⟨q, hOp'⟩ := h.behind.edited.moves hOp
  refine ⟨now.dropLast, y, _, (dropLast_append_getLast? y hLast).symm, hOp', hYield, ?_⟩
  intro x hMem
  rcases hFront x hMem with hIn | ⟨_, hIn | rfl⟩
  · obtain ⟨ox, hOpx, hPlain⟩ := hOthers x hIn
    obtain ⟨q', hOpx'⟩ := h.behind.edited.moves hOpx
    exact ⟨_, hOpx', hPlain⟩
  · exact h.not_terminator hClosed hIn
  · exact ⟨_, h.behind.guardOp, rfl⟩

include hMoved

/- The guard has a program. -/
theorem unfolds_guard : ∃ p, g'.Unfolds home [guard] p := by
  have hEach : ∀ x ∈ ops.filter (fun x => !g.hasResults x) ++ [close],
      ∃ p, g'.Unfolds branch [x] p := by
    intro x hMem
    rcases mem_append.mp hMem with hMem | hMem
    · obtain ⟨hIn, hResults⟩ := mem_filter.mp hMem
      obtain ⟨o, hOp⟩ := h.intact.op_of_reached (h.reached_moved hIn)
      obtain ⟨p, hUnfolds⟩ := hMoved x hIn
      rw [Graph.hasResults_of_op hOp, Bool.not_not] at hResults
      exact ⟨p, h.unfolds_moved hIn hUnfolds (h.behind.moved hIn hOp) (by simp [hResults])⟩
    · rw [mem_singleton.mp hMem]
      exact ⟨_, .act h.behind.closeOp rfl rfl .nil⟩
  obtain ⟨p, hYes⟩ := Function.unfolds_of_each hEach
  have hArm (taken : Bool) : ∃ ys q,
      g'.Branch guard (if taken then yes else no) branch ys ∧ g'.Unfolds branch ys q := by
    cases taken with
    | true =>
      refine ⟨_, p, .block ⟨h.behind.yesRegion, h.behind.branchBlock, rfl⟩ ?_, hYes⟩
      refine ⟨_, close, _, rfl, h.behind.closeOp, rfl, ?_⟩
      exact fun x hMem => h.not_terminator hClosed (mem_of_mem_filter hMem)
    | false => exact ⟨_, _, .empty h.behind.noRegion, .nil⟩
  choose ys arm hBranch hInner using hArm
  exact ⟨_, .cond h.behind.guardOp rfl rfl rfl hBranch hInner .nil⟩

include hIntact'

/- A block has a program if what stayed in it has one. -/
theorem unfolds_block (hBlock : g.block c = .ok old)
    (hStayed : ∀ x ∈ old.ops, x ∉ ops → ∃ p, g'.Unfolds c [x] p) :
    ∃ now p, g'.block c = .ok { old with ops := now } ∧
      (g.Closed old.ops → g'.Closed now) ∧ g'.Unfolds c now p := by
  obtain ⟨now, hNow, _⟩ := h.block hBlock
  have hEach : ∀ x ∈ now, ∃ p, g'.Unfolds c [x] p := by
    intro x hMem
    by_cases hIn : x ∈ ops
    · obtain ⟨o, hOp, hParent⟩ := hIntact'.placed hNow hMem
      obtain ⟨p, hUnfolds⟩ := hMoved x hIn
      exact ⟨p, h.unfolds_moved hIn hUnfolds hOp hParent⟩
    · rcases h.mem_block hBlock hNow hMem with hOld | ⟨rfl, hNew | rfl⟩
      · exact hStayed x hOld hIn
      · exact absurd hNew hIn
      · exact h.unfolds_guard hClosed hMoved
  obtain ⟨p, hUnfolds⟩ := Function.unfolds_of_each hEach
  exact ⟨now, p, hNow, h.closed' hClosed hBlock hNow, hUnfolds⟩

/- What had a program and was not moved has one. -/
theorem unfolds_stayed {xs : List OpId} (hUnfolds : g.Unfolds c xs p) (hMem : x ∈ xs)
    (hStays : x ∉ ops) : ∃ p', g'.Unfolds c [x] p' := by
  have hHolds {x : OpId} {r : RegionId} {d : BlockId} {old : Block}
      {now : List OpId} (hHolds : g.Holds x r d old)
      (hNow : g'.block d = .ok { old with ops := now }) : g'.Holds x r d { old with ops := now } :=
    ⟨h.behind.edited.region hHolds.region, hNow, hHolds.parent⟩
  have hArm {x : OpId} {r : RegionId} {d : BlockId} {ys : List OpId} (hBranch : g.Branch x r d ys)
      (hStayed : ∀ y ∈ ys, y ∉ ops → ∃ p, g'.Unfolds d [y] p) :
      ∃ ys q, g'.Branch x r d ys ∧ g'.Unfolds d ys q := by
    cases hBranch with
    | empty hRegion => exact ⟨_, _, .empty (h.behind.edited.region hRegion), .nil⟩
    | block hHeld hEnd =>
      rcases h.unfolds_block hClosed hMoved hIntact' hHeld.block hStayed with
        ⟨now, q, hNow, hEnd', hInner⟩
      exact ⟨_, q, .block (hHolds hHeld hNow) (hEnd' hEnd), hInner⟩
  induction hUnfolds generalizing x with
  | nil => cases hMem
  | act hOp hParent hKind _ ih =>
    rcases mem_cons.mp hMem with rfl | hMem
    · exact ⟨_, .act (h.behind.edited.op hOp hStays) hParent hKind .nil⟩
    · exact ih hMem hStays
  | loop hOp hParent hKind hRegions hHeld hArgs hEnd hBody _ ihBody ih =>
    rcases mem_cons.mp hMem with rfl | hMem
    · rcases h.unfolds_block hClosed hMoved hIntact' hHeld.block
        (fun y => ihBody) with ⟨now, q, hNow, hEnd', hBody'⟩
      exact ⟨_, .loop (h.behind.edited.op hOp hStays) hParent hKind hRegions
        (hHolds hHeld hNow) hArgs (hEnd' hEnd) hBody' .nil⟩
    · exact ih hMem hStays
  | @cond _ y _ _ _ r d _ _ _ hOp hParent hKind hRegions hBranch _ _ ihInner ih =>
    rcases mem_cons.mp hMem with rfl | hMem
    · have hArm (taken : Bool) : ∃ ys q,
          g'.Branch x (r taken) (d taken) ys ∧ g'.Unfolds (d taken) ys q :=
        hArm (hBranch taken) fun _ => ihInner taken
      choose ys arm hBranch' hInner using hArm
      exact ⟨_, .cond (h.behind.edited.op hOp hStays) hParent hKind hRegions hBranch' hInner .nil⟩
    · exact ih hMem hStays

end Programs

/- What binds a value now did so before. -/
theorem owns_old (hAround : g.Inside root outer) (hInside : g'.Inside root x)
    (hOwns : Function.Owns g' x v) : g.Inside root x ∧ Function.Owns g x v := by
  obtain ⟨o', hOp', hBinds⟩ := hOwns
  rcases h.inside_cases hAround hInside with hThere | rfl | rfl
  · have hReached := h.intact.reached_of_inside h.linked h.reached hAround
    obtain ⟨o, hOp⟩ := h.intact.op_of_reached (hThere.reached hReached)
    obtain ⟨q, hMoved⟩ := h.behind.edited.moves hOp
    cases hOp'.symm.trans hMoved
    refine ⟨hThere, o, hOp, hBinds.imp_right ?_⟩
    rintro ⟨r, c, now, hMem, hHolds, hArgs⟩
    obtain ⟨reg, hRegion, _⟩ := h.intact.held hOp hMem
    cases (h.behind.edited.region hRegion).symm.trans hHolds.region
    obtain ⟨old, hBlock, hParent⟩ := h.intact.listed hRegion (mem_singleton_self c)
    obtain ⟨ops', hNow⟩ := h.behind.edited.lists hBlock
    cases hNow.symm.trans hHolds.block
    exact ⟨r, c, old, hMem, ⟨hRegion, hBlock, hParent⟩, hArgs⟩
  · cases hOp'.symm.trans h.behind.guardOp
    rcases hBinds with hMem | ⟨r, c, now, hMem, hHolds, hArgs⟩
    · cases hMem
    · simp only [mem_cons, not_mem_nil, or_false] at hMem
      rcases hMem with rfl | rfl
      · cases h.behind.yesRegion.symm.trans hHolds.region
        cases h.behind.branchBlock.symm.trans hHolds.block
        cases hArgs
      · cases h.behind.noRegion.symm.trans hHolds.region
  · cases hOp'.symm.trans h.behind.closeOp
    rcases hBinds with hMem | ⟨_, _, _, hMem, _⟩
    · cases hMem
    · cases hMem

end Lowered

------
-- Carried nests
------

/- What the moves into the body of a loop keep of a nest. -/
structure Carried (g g' : Graph) (root inner : OpId) : Prop where
  edited : ∃ moved blocks, g.Edited g' moved blocks
  unfolds (hUnfolds : ∃ c p, g.Unfolds c [root] p) : ∃ c p, g'.Unfolds c [root] p
  owns {x : OpId} {v : ValueId} (hInside : g'.Inside root x) (hOwns : Function.Owns g' x v) :
    g.Inside root x ∧ Function.Owns g x v
  holder {z x : OpId} (hInside : g.Inside inner z) (hHolder : g.Holder z x) : g'.Holder z x
  op {x : OpId} {o : Operation}
    (hWithin : g.Within inner x) (hOp : g.op x = .ok o) : g'.op x = .ok o

namespace Carried

variable {g'' : Graph} {z : OpId}

theorem refl (g : Graph) (root inner : OpId) : Carried g g root inner where
  edited := ⟨[], [], .refl g⟩
  unfolds := id
  owns hInside hOwns := ⟨hInside, hOwns⟩
  holder _ hHolder := hHolder
  op _ hOp := hOp

theorem inside (hCarried : Carried g g' root inner) (hFirst : g.Inside inner z)
    (hInside : g.Inside z x) : g'.Inside z x := by
  induction hInside with
  | self => exact .self
  | child hOuter hHolder ih => exact .child ih (hCarried.holder (hFirst.trans hOuter) hHolder)

theorem within (hCarried : Carried g g' root inner)
    (hWithin : g.Within inner x) : g'.Within inner x := by
  obtain ⟨w, hHolder, hInside⟩ := hWithin
  exact ⟨w, hCarried.holder .self hHolder, hCarried.inside (.child .self hHolder) hInside⟩

theorem trans (hFirst : Carried g g' root inner)
    (hSecond : Carried g' g'' root inner) : Carried g g'' root inner where
  edited := by
    obtain ⟨_, _, hEdited⟩ := hFirst.edited
    obtain ⟨_, _, hEdited'⟩ := hSecond.edited
    exact ⟨_, _, hEdited.trans hEdited'⟩
  unfolds hUnfolds := hSecond.unfolds (hFirst.unfolds hUnfolds)
  owns hInside hOwns := by
    obtain ⟨hInside', hOwns'⟩ := hSecond.owns hInside hOwns
    exact hFirst.owns hInside' hOwns'
  holder hInside hHolder :=
    hSecond.holder (hFirst.inside .self hInside) (hFirst.holder hInside hHolder)
  op hWithin hOp := hSecond.op (hFirst.within hWithin) (hFirst.op hWithin hOp)

end Carried

/- A statement behind a guard in the body of a loop. -/
structure Caged (g : Graph) (inner guard : OpId) (set : Affine.IntegerSet) (vars : List ValueId)
    (x : OpId) : Prop where
  holder : g.Holder inner guard
  guards : ∃ o yes no, g.op guard = .ok o ∧ o.kind = .conditional set ∧
    o.operands = vars ∧ o.regions = [yes, no] ∧ g.region no = .ok { parent := some guard }
  holds : g.Holder guard x

theorem Carried.caged {set : Affine.IntegerSet} (hCarried : Carried g g' root inner)
    (hCaged : Caged g inner guard set vars x) : Caged g' inner guard set vars x where
  holder := hCarried.holder .self hCaged.holder
  guards := by
    obtain ⟨o, yes, no, hOp, hKind, hOperands, hRegions, hElse⟩ := hCaged.guards
    obtain ⟨_, _, hEdited⟩ := hCarried.edited
    exact ⟨o, yes, no, hCarried.op hCaged.holder.within hOp, hKind, hOperands,
      hRegions, hEdited.region hElse⟩
  holds := hCarried.holder (.child .self hCaged.holder) hCaged.holds

/- The statements of a level stand behind guards for its points. -/
structure Guarded (g : Graph) (inner : OpId) (level : NestLevel) (vars : List ValueId) : Prop where
  counts : List.Forall₂ (fun l v => g.inductionVar l = .ok v) level.inner vars
  front {x : OpId} (hMem : x ∈ level.front) (hQuiet : g.hasResults x = false) :
    ∃ guard, Caged g inner guard (firstGuard level.first) vars x
  back {x : OpId} (hMem : x ∈ level.back) (hQuiet : g.hasResults x = false) :
    ∃ guard, Caged g inner guard (lastGuard level.last) vars x

theorem Carried.guarded {level : NestLevel} (hCarried : Carried g g' root inner)
    (hGuarded : Guarded g inner level vars) : Guarded g' inner level vars := by
  obtain ⟨_, _, hEdited⟩ := hCarried.edited
  refine ⟨hGuarded.counts.imp fun _ _ => hEdited.inductionVar, ?_, ?_⟩
  · intro x hMem hQuiet
    obtain ⟨guard, hCaged⟩ := hGuarded.front hMem (hEdited.quiet hQuiet)
    exact ⟨guard, hCarried.caged hCaged⟩
  · intro x hMem hQuiet
    obtain ⟨guard, hCaged⟩ := hGuarded.back hMem (hEdited.quiet hQuiet)
    exact ⟨guard, hCarried.caged hCaged⟩

namespace Lowered

variable
  (h : Lowered g g' body outer passage inner b home blk blk' ops set vars guard close branch yes no
    before after)

include h

theorem carried (hAround : g.Inside root outer)
    (hOuter : ∀ {c p}, g.Unfolds c [root] p → ∃ c p, g.Unfolds c [outer] p)
    (hIntact' : g'.Intact) : Carried g g' root inner where
  edited := ⟨_, _, h.behind.edited⟩
  unfolds := by
    rintro ⟨c, p, hUnfolds⟩
    obtain ⟨_, _, hSource⟩ := hOuter hUnfolds
    obtain ⟨hClosed, q, hBody⟩ := h.source.unfolds hSource
    have hMoved : ∀ x ∈ ops, ∃ p, g.Unfolds b [x] p :=
      fun x hMem => hBody.single (h.mem_source hMem)
    refine ⟨c, h.unfolds_stayed hClosed hMoved hIntact' hUnfolds (mem_singleton_self root) ?_⟩
    intro hMem
    exact h.intact.ne_of_within h.linked h.reached
      ((h.source.holder (h.mem_source hMem)).within.trans hAround) rfl
  owns := h.owns_old hAround
  holder hInside hHolder := h.holder_of_stays hHolder
      (h.stays_of_inside (h.below.trans (.child hInside hHolder)))
  op hWithin hOp := h.behind.edited.op hOp (h.stays_of_inside (h.below.trans hWithin.inside))

theorem caged (hMem : x ∈ ops)
    (hQuiet : g'.hasResults x = false) : Caged g' inner guard set vars x where
  holder := h.holder_guard
  guards := ⟨_, yes, no, h.behind.guardOp, rfl, rfl, rfl, h.behind.noRegion⟩
  holds := by
    obtain ⟨o, hOp⟩ := h.intact.op_of_reached (h.reached_moved hMem)
    rw [h.behind.edited.hasResults hOp] at hQuiet
    exact h.holder_branch hMem hQuiet

end Lowered

end Perfection

end AffineIR
