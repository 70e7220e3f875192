import AffineIR.Proofs.Nest.Emptying

/-
  What the bounds of the loops of a nest depend on.

  The loops of a nest that gets a plan are a chain.  A value
  that one of them uses is bound outside the nest, or it is the
  variable of a loop further out: results of statements between
  the loops are not for the loops.  So a run of the nest keeps
  what its loops depend on.

  Main result: `Perfection.Planned.free`
-/

namespace AffineIR

open List

namespace Graph

variable {g : Graph} {body : RegionId} {root x y z : OpId}

/- Whatever is around something inside an operation at the top is in it, too. -/
theorem Intact.inside_top (hIntact : g.Intact) (hTop : g.parentOp? root = .ok none)
    (hRoot : g.Inside root x) (hAround : g.Inside z x) : g.Inside root z := by
  induction hRoot with
  | self =>
    cases hAround with
    | self => exact .self
    | child _ hHolder => cases hTop.symm.trans (hIntact.parentOp?_of_holder hHolder)
  | child hOuter hHolder ih =>
    cases hAround with
    | self => exact .child hOuter hHolder
    | child hInside hHolder' =>
      cases (hIntact.parentOp?_of_holder hHolder).symm.trans (hIntact.parentOp?_of_holder hHolder')
      exact ih hInside

end Graph

namespace Perfection

section Ladders

variable {g : Graph} {body : RegionId} {passage root z : OpId} {loops : List OpId}
  {rungs : List Rung} {level : NestLevel} {levels : List NestLevel}

/- Each loop of a ladder is held by the next one. -/
theorem Ladder.isChain (hLadder : Ladder g passage rungs) :
    (passage :: rungs.map Rung.outer).reverse.IsChain g.Holder := by
  rw [isChain_reverse]
  induction hLadder with
  | top => exact isChain_singleton _
  | rung hStands _ ih => exact isChain_cons_cons.mpr ⟨hStands.holder, ih⟩

/- What is around the foot of a ladder stands on it, or is the top. -/
theorem Ladder.around (hLadder : Ladder g passage rungs) (hIntact : g.Intact)
    (hBody : g.Linked body none) (hReached : g.Reached body passage)
    (hTop : (passage :: rungs.map Rung.outer).getLast? = some root) (hRoot : g.Inside root z)
    (hInside : g.Inside z passage) : z = root ∨ ∃ r ∈ rungs, r.Stands g z := by
  induction hLadder with
  | top =>
    cases hTop
    exact .inl (hIntact.inside_antisymm hBody hReached hInside hRoot)
  | rung hStands _ ih =>
    cases hInside with
    | self => exact .inr ⟨_, mem_cons_self, hStands⟩
    | child hOuter hHolder =>
      cases (hIntact.parentOp?_of_holder hHolder).symm.trans
        (hIntact.parentOp?_of_holder hStands.holder)
      rw [map_cons, List.getLast?_cons_cons] at hTop
      have hAbove := hIntact.reached_of_inside hBody hReached (.child .self hHolder)
      rcases ih hAbove hTop hOuter with hSame | ⟨r, hMem, hThere⟩
      · exact .inl hSame
      · exact .inr ⟨r, mem_cons_of_mem _ hMem, hThere⟩

/- The rung that a level is for, with the loops between it and the body. -/
theorem Scheduled.exists_of_mem (hScheduled : Scheduled loops rungs levels)
    (hMem : level ∈ levels) :
    ∃ below r above, rungs = below ++ r :: above ∧
      Fits (loops ++ below.map Rung.outer) r level := by
  induction hScheduled with
  | done => cases hMem
  | @skip loops r _ _ _ _ ih =>
    obtain ⟨below, r', above, rfl, hFits⟩ := ih hMem
    refine ⟨r :: below, r', above, rfl, ?_⟩
    rwa [map_cons, append_cons]
  | @level loops r _ _ _ hFits _ ih =>
    rcases mem_cons.mp hMem with rfl | hMem
    · refine ⟨[], r, _, rfl, ?_⟩
      rwa [map_nil, append_nil]
    · obtain ⟨below, r', above, rfl, hFits'⟩ := ih hMem
      refine ⟨r :: below, r', above, rfl, ?_⟩
      rwa [map_cons, append_cons]

end Ladders

------
-- Planned nests
------

/- A nest of a valid function with a plan for it. -/
structure Planned (f : Function) (root inner : OpId) (rungs : List Rung)
    (levels : List NestLevel) : Prop where
  emptying : Emptying f.graph f.body root inner inner [] rungs
  scheduled : Scheduled [inner] rungs levels
  checked : checkResults f.graph f.name levels = .ok ()
  shaped : f.Shaped
  sighted : f.Sighted

/- The loops of a nest, outermost first. -/
def chainDown (inner : OpId) (rungs : List Rung) : List OpId :=
  (inner :: rungs.map Rung.outer).reverse

theorem planned_of_plan {f : Function} {root : OpId} {c : BlockId} {levels : List NestLevel}
    (hCoherent : f.graph.Coherent) (hValid : f.problems = .ok [])
    (hLists : f.graph.Lists f.body c root) (hLoop : f.graph.isLoop root = true)
    (hPlan : plan f.graph f.name root = .ok levels) :
    ∃ inner rungs, Planned f root inner rungs levels := by
  rcases (Function.problems_eq_nil_iff (Graph.intact_of_coherent hCoherent)).mp
    hValid with ⟨hShaped, hSighted⟩
  rcases cases_of_plan hCoherent hShaped hLists hLoop hPlan with
    ⟨inner, rungs, hEmptying, hScheduled, hChecked⟩
  exact ⟨inner, rungs, hEmptying, hScheduled, hChecked, hShaped, hSighted⟩

namespace Planned

variable {f : Function} {root inner l x : OpId} {rungs : List Rung} {levels : List NestLevel}
  {o : Operation} {v : ValueId}

section

variable (h : Planned f root inner rungs levels)

include h

theorem intact : f.graph.Intact := h.emptying.intact

theorem linked : f.graph.Linked f.body none :=
  h.emptying.linked

theorem top : f.graph.parentOp? root = .ok none := by
  obtain ⟨c, hLists⟩ := h.emptying.listed
  exact h.linked.parentOp? hLists

theorem isChain  :
    (chainDown inner rungs).IsChain f.graph.Holder :=
  h.emptying.ladder.isChain

theorem loop_of_mem
    (hMem : l ∈ chainDown inner rungs) : f.graph.Inside root l ∧ f.graph.isLoop l = true := by
  refine h.emptying.loops.mp ?_
  rcases mem_cons.mp (mem_reverse.mp hMem) with rfl | hMem
  · exact .inl (mem_singleton_self _)
  · exact .inr hMem

theorem reached_of_mem (hMem : l ∈ chainDown inner rungs) : f.graph.Reached f.body l :=
  (h.loop_of_mem hMem).1.reached h.emptying.reached

end

theorem inner_mem : inner ∈ chainDown inner rungs := mem_reverse.mpr mem_cons_self

section

variable (h : Planned f root inner rungs levels)

include h

/- The innermost loop is inside the others. -/
theorem inside_inner (hMem : l ∈ chainDown inner rungs) : f.graph.Inside l inner := by
  rcases mem_cons.mp (mem_reverse.mp hMem) with rfl | hMem
  · exact .self
  · obtain ⟨r, hRung, rfl⟩ := mem_map.mp hMem
    exact (h.emptying.ladder.within hRung).inside

/- What is around a loop of the chain stands on the ladder, or is the top. -/
theorem around {z : OpId} (hMem : l ∈ chainDown inner rungs)
    (hAround : f.graph.Inside z l) : z = root ∨ ∃ r ∈ rungs, r.Stands f.graph z :=
  h.emptying.ladder.around h.intact h.linked (h.reached_of_mem inner_mem) h.emptying.top
    (h.intact.inside_top h.top (h.loop_of_mem hMem).1 hAround) (hAround.trans (h.inside_inner hMem))

/- Loops do not use the results of the statements between them. -/
theorem unused {r : Rung} {s : OpId} (hLoop : l ∈ chainDown inner rungs)
    (hOp : f.graph.op l = .ok o) (hRung : r ∈ rungs) (hSunk : s ∈ r.ops)
    (hResult : f.graph.IsResult v s) : v ∉ o.operands := by
  intro hMem
  have hListed := h.scheduled.mem_iff.mpr ⟨r, hRung, hSunk⟩
  cases levels with
  | nil => cases hListed
  | cons level levels =>
    rcases used_of_checkResults h.shaped h.intact h.checked
      h.scheduled.inner_head hListed hResult (h.reached_of_mem hLoop) hOp hMem
      with hWithin | ⟨t, hListed', hInside⟩
    · exact h.intact.ne_of_within h.linked (h.reached_of_mem inner_mem)
        (hWithin.trans (h.inside_inner hLoop)) rfl
    · obtain ⟨r', hRung', hSunk'⟩ := h.scheduled.mem_iff.mp hListed'
      exact h.emptying.ladder.not_inside h.intact h.linked
        (h.reached_of_mem inner_mem) .self hRung' hSunk' (hInside.trans (h.inside_inner hLoop))

/- Loops do not use results that arise in the nest. -/
theorem not_isResult (hLoop : l ∈ chainDown inner rungs) (hOp : f.graph.op l = .ok o)
    (hMem : v ∈ o.operands) (hInside : f.graph.Inside root x) : ¬f.graph.IsResult v x := by
  intro hResult
  have hReached := hInside.reached h.emptying.reached
  obtain ⟨z, hAround, hProvides⟩ := h.sighted (h.reached_of_mem hLoop) hOp hMem
  have hPlace := h.around hLoop hAround
  cases hProvides with
  | argument hArgument => exact hResult.not_isArgument hArgument
  | result hResult' hLeading =>
    cases hResult.unique hResult'
    obtain ⟨b, c, _, blk, hSits, hThere, hOther, hBlock, hOrder⟩ := hLeading.places h.intact
    rcases hPlace with rfl | ⟨r, hRung, b', blk', last, hBody, hOps⟩
    · -- an operation of the nest in the region of the top is the top
      exact hOther (h.intact.eq_of_inside h.linked hReached .self hInside hSits hThere)
    · rcases hThere.unique (h.intact.sits_of_mem hBody.block (by simp [hOps])) with ⟨rfl, _⟩
      rcases hOrder with ⟨rfl, hOrder⟩ | ⟨_, hAbove⟩
      · have hNodup := h.intact.nodup_ops hBlock
        cases hBlock.symm.trans hBody.block
        rw [hOps, append_cons] at hNodup hOrder
        have hBefore := mem_of_order hNodup hOrder (by simp)
        refine h.unused hLoop hOp hRung ?_ hResult hMem
        exact mem_append_left _ (by simpa [hOther] using hBefore)
      · exact (hBody.eq_of_above h.intact hAbove).2 rfl

/- Arguments of blocks in the nest that a loop uses are of loops around it. -/
theorem within_of_isArgument {p : Operation} {r : RegionId} {c : BlockId} {blk : Block}
    (hLoop : l ∈ chainDown inner rungs) (hOp : f.graph.op l = .ok o) (hMem : v ∈ o.operands)
    (hOuter : f.graph.op x = .ok p) (hRegion : r ∈ p.regions) (hHolds : f.graph.Holds x r c blk)
    (hArgument : f.graph.IsArgument v c) : f.graph.Within x l ∧ ∃ r ∈ rungs, r.outer = x := by
  obtain ⟨z, hAround, hProvides⟩ := h.sighted (h.reached_of_mem hLoop) hOp hMem
  cases hProvides with
  | result hResult => exact absurd hArgument hResult.not_isArgument
  | argument hArgument' hBlock hIn hOrder =>
    cases hArgument.unique hArgument'
    rcases hOrder with rfl | hAbove
    · cases hBlock.symm.trans hHolds.block
      have hHolder := hHolds.holder hOuter hRegion hIn
      refine ⟨⟨z, hHolder, hAround⟩, ?_⟩
      rcases h.around hLoop hAround with rfl | ⟨r', hRung, hStands⟩
      · cases h.top.symm.trans (h.intact.parentOp?_of_holder hHolder)
      · cases (h.intact.parentOp?_of_holder hHolder).symm.trans
          (h.intact.parentOp?_of_holder hStands.holder)
        exact ⟨r', hRung, rfl⟩
    · -- the block is alone in its region
      obtain ⟨hApart, _, _, _, hFirst, hSecond, hSame, _, _⟩ := Graph.above_iff.mp hAbove
      cases hFirst.symm.trans hHolds.block
      obtain ⟨reg, hReg, hListed⟩ := h.intact.home hSecond
      rw [hSame, hHolds.parent] at hReg
      cases hReg.symm.trans hHolds.region
      exact absurd (mem_singleton.mp hListed).symm hApart

/-
  What a loop uses and something in the nest binds is the
  variable of a loop around it.
-/
theorem bounds (hLoop : l ∈ chainDown inner rungs) (hOp : f.graph.op l = .ok o)
    (hMem : v ∈ o.operands) (hInside : f.graph.Inside root x) (hOwns : Function.Owns f.graph x v) :
    f.graph.Within x l ∧ x ∈ chainDown inner rungs ∧ f.graph.inductionVar x = .ok v := by
  rcases h.intact.cases_of_owns hOwns with
    hResult | ⟨p, r, c, blk, hOuter, hRegion, hHolds, hArgs, hArgument⟩
  · exact absurd hResult (h.not_isResult hLoop hOp hMem hInside)
  · rcases h.within_of_isArgument hLoop hOp hMem hOuter hRegion hHolds hArgument
      with ⟨hWithin, r', hRung, rfl⟩
    refine ⟨hWithin, mem_reverse.mpr (mem_cons_of_mem _ (mem_map_of_mem hRung)), ?_⟩
    obtain ⟨_, _, blk', _, hBody, _⟩ := h.emptying.ladder.stands hRung
    obtain ⟨p', hOuter', _, hRegions⟩ := hBody.op
    cases hOuter.symm.trans hOuter'
    have hOnly : r = blk'.parent := by simpa [hRegions] using hRegion
    rw [← hOnly] at hRegions
    exact hHolds.inductionVar hOuter hRegions hArgs

/- A run of the nest keeps what the loops on a way depend on. -/
theorem free {g' : Graph} {c : BlockId} {p : Prog} {w : List Prog.Mark} {loops : List OpId}
    (hCarried : Carried f.graph g' root inner) (hUnfolds : g'.Unfolds c [root] p)
    (hFollows : g'.Follows w loops) (hFirst : loops <+: chainDown inner rungs)
    (hAsks : Prog.Asks w v) : ¬p.Binds v := by
  intro hBinds
  obtain ⟨_, _, hEdited⟩ := hCarried.edited
  obtain ⟨before, l, after, a, rfl, hAct, hMem, hNone⟩ := hFollows.exists_of_asks hAsks
  obtain ⟨rest, hChain⟩ := hFirst
  rw [append_assoc, cons_append] at hChain
  have hLoop : l ∈ chainDown inner rungs := by simp [← hChain]
  -- the loop uses the value before the rewriting, too
  obtain ⟨o, hOp⟩ := h.intact.op_of_reached (h.reached_of_mem hLoop)
  obtain ⟨q, hOp'⟩ := hEdited.moves hOp
  cases hAct.symm.trans (Graph.act?_of_op hOp')
  obtain ⟨x, hIn, hOwns⟩ := hUnfolds.owner_of_binds hBinds
  obtain ⟨_, hSelf, hInside⟩ := hUnfolds.inside_of_mem_ids hIn
  rw [mem_singleton.mp hSelf] at hInside
  obtain ⟨hInside', hOwns'⟩ := hCarried.owns hInside hOwns
  obtain ⟨hWithin, hListed, hVar⟩ := h.bounds hLoop hOp hMem hInside' hOwns'
  -- what is around the loop comes before it
  rw [← hChain] at hListed
  rcases mem_append.mp hListed with hBefore | hAfter
  · exact hNone x hBefore (hEdited.inductionVar hVar)
  · have hHolders := h.isChain
    rw [← hChain] at hHolders
    have hBelow := Graph.inside_of_holders (isChain_append.mp hHolders).2.1 hAfter
    exact h.intact.ne_of_within h.linked (hInside'.reached h.emptying.reached)
      (hWithin.trans hBelow) rfl

end

end Planned

end Perfection

end AffineIR
