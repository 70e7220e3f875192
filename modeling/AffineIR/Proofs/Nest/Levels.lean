import AffineIR.Proofs.Nest.Ladders

/-
  Sinking the levels of a nest.

  Sinking a level moves its statements behind guards, those in
  front to the start of the innermost body and those behind to
  its end.  A ladder is sunk level by level.  Every level leaves
  a function with the shape and the sight it had before.

  Main result: `Perfection.run_sinkLevels`
-/

namespace AffineIR

open Answer List

variable {g g' : Graph} {anchor end' guard inner outer passage start x y : OpId}
  {set : Affine.IntegerSet} {u : Unit} {blk blk' : Block}
  {after before loops ops sunk tops : List OpId} {vars : List ValueId} {first last lasts : List Int}
  {b branch home : BlockId} {level : NestLevel}

namespace Edit

theorem coherent_moveBefore (hRun : (moveBefore x y).run g = .ok (u, g'))
    (hCoherent : g.Coherent) : g'.Coherent := by
  obtain ⟨_, _, hDetach, hInsert⟩ := run_bind_eq_ok.mp hRun
  exact coherent_insertBefore hInsert (coherent_detach hDetach hCoherent)

end Edit

theorem Build.coherent_conditional {c : NewConditional}
    (hRun : (conditional (.before anchor) set vars false).run g = .ok (c, g'))
    (hCoherent : g.Coherent) : g'.Coherent := by
  obtain ⟨guard, g₁, hGuard, hRun⟩ := run_bind_eq_ok.mp hRun
  obtain ⟨branch, g₂, hYes, hRun⟩ := run_bind_eq_ok.mp hRun
  obtain ⟨no, g₃, hNo, hRun⟩ := run_bind_eq_ok.mp hRun
  obtain ⟨-, rfl⟩ := run_pure_eq_ok.mp hRun
  -- the conditional itself
  obtain ⟨_, g₄, hCreate, hGuard⟩ := run_bind_eq_ok.mp hGuard
  obtain ⟨_, g₅, hInsert, hGuard⟩ := run_bind_eq_ok.mp hGuard
  obtain ⟨-, rfl⟩ := run_pure_eq_ok.mp hGuard
  have hFirst := Edit.coherent_insertBefore hInsert (Edit.coherent_createOp hCreate hCoherent)
  -- the region with its block and yield
  obtain ⟨_, g₆, hRegion, hYes⟩ := run_bind_eq_ok.mp hYes
  obtain ⟨_, g₇, hBlock, hYes⟩ := run_bind_eq_ok.mp hYes
  obtain ⟨_, g₈, hYield, hYes⟩ := run_bind_eq_ok.mp hYes
  obtain ⟨_, g₉, hAppend, hYes⟩ := run_bind_eq_ok.mp hYes
  obtain ⟨-, rfl⟩ := run_pure_eq_ok.mp hYes
  have hSecond := Edit.coherent_append hAppend (Edit.coherent_createOp hYield
    (Edit.coherent_createBlock hBlock (Edit.coherent_createRegion hRegion hFirst)))
  exact Edit.coherent_createRegion hNo hSecond

namespace Perfection

theorem coherent_sink (hRun : (sink ops guard branch).run g = .ok (u, g'))
    (hCoherent : g.Coherent) : g'.Coherent := by
  obtain ⟨last, -, hRun⟩ := Edit.run_ask_bind.mp hRun
  refine Answer.forM_keeps ?_ hRun hCoherent
  intro x g₁ g₂ u _ hMove hHere
  obtain ⟨o, -, hMove⟩ := Edit.run_ask_bind.mp hMove
  split at hMove
  · exact Edit.coherent_moveBefore hMove hHere
  · exact Edit.coherent_moveBefore hMove hHere

theorem numInputs_pointSet {exprs : List Affine.Expr} {n : Nat} (hLength : exprs.length = n)
    (hFew : n < 2 ^ 32) : (pointSet exprs).numInputs = .ok n := by
  unfold pointSet Affine.IntegerSet.numInputs Affine.inputCount Word.count
  rw [hLength]
  exact if_pos hFew

/- Guards have as many inputs as there are values. -/
theorem numInputs_firstGuard
    (hFew : first.length < 2 ^ 32) : (firstGuard first).numInputs = .ok first.length :=
  numInputs_pointSet (by simp) hFew

theorem numInputs_lastGuard
    (hFew : last.length < 2 ^ 32) : (lastGuard last).numInputs = .ok last.length :=
  numInputs_pointSet (by simp) hFew

------
-- Halves of a level
------

theorem getLast?_of_yieldOf (hYield : g.yieldOf b = .ok x)
    (hBlock : g.block b = .ok blk) : blk.ops.getLast? = some x := by
  obtain ⟨blk', hBlock', hYield⟩ := bind_eq_ok.mp hYield
  cases hBlock.symm.trans hBlock'
  split at hYield
  next => cases hYield
  next last hLast =>
    obtain ⟨kind, _, hYield⟩ := bind_eq_ok.mp hYield
    split at hYield
    · cases hYield
      exact hLast
    · cases hYield

theorem run_mapM_ask
    {α β : Type} {question : α → Graph → Except Fault β} {xs : List α} {ys : List β}
    (hRun : (xs.mapM fun x => Edit.ask (question x)).run g = .ok (ys, g')) :
    g' = g ∧ List.Forall₂ (fun x y => question x g = .ok y) xs ys := by
  induction xs generalizing ys with
  | nil =>
    obtain ⟨rfl, rfl⟩ := run_pure_eq_ok.mp hRun
    exact ⟨rfl, .nil⟩
  | cons x xs ih =>
    rw [mapM_cons] at hRun
    obtain ⟨y, hHead, hRun⟩ := Edit.run_ask_bind.mp hRun
    obtain ⟨ys', g₂, hRest, hRun⟩ := run_bind_eq_ok.mp hRun
    obtain ⟨rfl, rfl⟩ := run_pure_eq_ok.mp hRun
    obtain ⟨rfl, hAll⟩ := ih hRest
    exact ⟨rfl, .cons hHead hAll⟩

/- What is on the right of a relation of lists is related to something. -/
theorem exists_of_forall₂ {α β : Type} {R : α → β → Prop} {xs : List α} {ys : List β} {y : β}
    (hAll : List.Forall₂ R xs ys) (hMem : y ∈ ys) : ∃ x ∈ xs, R x y := by
  induction hAll with
  | nil => cases hMem
  | @cons x z xs ys hHead _ ih =>
    rcases mem_cons.mp hMem with rfl | hMem
    · exact ⟨x, mem_cons_self, hHead⟩
    · obtain ⟨x', hIn, hRel⟩ := ih hMem
      exact ⟨x', mem_cons_of_mem _ hIn, hRel⟩

/- Put operations behind a new guard in front of another operation. -/
def sinkBehind (anchor : OpId) (set : Affine.IntegerSet) (vars : List ValueId)
    (ops : List OpId) : Edit Unit := do
  let guard ← Build.conditional (.before anchor) set vars false
  sink ops guard.op guard.thenBlock

/-
  Sinking a level puts its front at the start of the innermost
  body, and then its back at the end.
-/
theorem cases_of_sinkLevel (hRun : (sinkLevel inner level).run g = .ok (u, g')) :
    ∃ home vars g₁, g.bodyBlock inner = .ok home ∧
      List.Forall₂ (fun l v => g.inductionVar l = .ok v) level.inner vars ∧
      (level.front = [] ∧ g₁ = g ∨ level.front ≠ [] ∧
        ∃ blk start rest, g.block home = .ok blk ∧ blk.ops = start :: rest ∧
          (sinkBehind start (firstGuard level.first) vars level.front).run g = .ok ((), g₁)) ∧
      (level.back = [] ∧ g' = g₁ ∨ level.back ≠ [] ∧
        ∃ blk last, g₁.block home = .ok blk ∧ blk.ops.getLast? = some last ∧
          (sinkBehind last (lastGuard level.last) vars level.back).run g₁ = .ok ((), g')) := by
  unfold sinkLevel at hRun
  obtain ⟨home, hBody, hRest⟩ := Edit.run_ask_bind.mp hRun
  obtain ⟨vars, _, hAsk, hSteps⟩ := run_bind_eq_ok.mp hRest
  obtain ⟨rfl, hVars⟩ := run_mapM_ask hAsk
  have hBack {g₁ : Graph} (hRun : (if (!level.back.isEmpty) = true then do
          let last ← Edit.ask (·.yieldOf home)
          sinkBehind last (lastGuard level.last) vars level.back
        else pure ()).run g₁ = .ok (u, g')) :
      level.back = [] ∧ g' = g₁ ∨ level.back ≠ [] ∧
        ∃ blk last, g₁.block home = .ok blk ∧ blk.ops.getLast? = some last ∧
          (sinkBehind last (lastGuard level.last) vars level.back).run g₁ = .ok ((), g') := by
    split at hRun
    next hSome =>
      rw [Bool.not_eq_true', isEmpty_eq_false_iff] at hSome
      obtain ⟨last, hYield, hRun⟩ := Edit.run_ask_bind.mp hRun
      obtain ⟨blk, hBlock, _⟩ := bind_eq_ok.mp hYield
      exact .inr ⟨hSome, blk, last, hBlock, getLast?_of_yieldOf hYield hBlock, hRun⟩
    next hNone =>
      rw [Bool.not_eq_true', Bool.not_eq_false, List.isEmpty_iff] at hNone
      exact .inl ⟨hNone, (run_pure_eq_ok.mp hRun).2.symm⟩
  dsimp only at hSteps
  split at hSteps
  next hSome =>
    rw [Bool.not_eq_true', isEmpty_eq_false_iff] at hSome
    obtain ⟨start, hStart, hRest⟩ := Edit.run_ask_bind.mp hSteps
    obtain ⟨blk, hBlock, hStart⟩ := bind_eq_ok.mp hStart
    have hFirst := entryAt_eq_ok.mp hStart
    rw [← List.head?_eq_getElem?, List.head?_eq_some_iff] at hFirst
    obtain ⟨rest, hSplit⟩ := hFirst
    obtain ⟨guard, g₂, hGuard, hRest⟩ := run_bind_eq_ok.mp hRest
    obtain ⟨_, g₁, hSink, hRest⟩ := run_bind_eq_ok.mp hRest
    exact ⟨home, vars, g₁, hBody, hVars, .inr ⟨hSome, blk, start, rest, hBlock, hSplit,
        run_bind_eq_ok.mpr ⟨guard, g₂, hGuard, hSink⟩⟩, hBack hRest⟩
  next hNone =>
    rw [Bool.not_eq_true', Bool.not_eq_false, List.isEmpty_iff] at hNone
    exact ⟨home, vars, _, hBody, hVars, .inl ⟨hNone, rfl⟩, hBack hSteps⟩

/- What the body of the loop of a rung lists. -/
theorem Rung.Stands.parts {r : Rung} (hStands : r.Stands g passage) (hIntact : g.Intact) :
    ∃ b blk last, g.LoopBody r.outer b blk ∧ blk.ops = r.front ++ passage :: (r.back ++ [last]) ∧
      blk.ops.dropLast = r.front ++ passage :: r.back ∧ passage ∉ r.ops ∧
      blk.ops.filter (· ∉ r.front) = passage :: (r.back ++ [last]) ∧
      blk.ops.filter (· ∉ r.back) = r.front ++ [passage, last] := by
  obtain ⟨b, blk, last, hSource, hOps⟩ := hStands
  have hNodup := hIntact.nodup_ops hSource.block
  rw [hOps] at hNodup
  refine ⟨b, blk, last, hSource, hOps, ?_, ?_, ?_, ?_⟩
  · rw [hOps, ← cons_append, ← append_assoc, dropLast_concat]
  · rw [nodup_middle, nodup_cons, ← append_assoc] at hNodup
    exact fun hMem => hNodup.1 (mem_append_left _ hMem)
  · have hParts : ([] ++ (r.front ++ passage :: (r.back ++ [last]))).Nodup := hNodup
    rw [hOps]
    exact filter_not_mem_middle hParts
  · rw [append_cons] at hNodup
    rw [hOps, append_cons, filter_not_mem_middle hNodup, append_assoc]
    rfl

/- Statements of a loop are moved behind a guard further inside. -/
theorem exists_lowered {body : RegionId} (hCoherent : g.Coherent)
    (h : Descent g body outer passage inner b home blk blk' ops)
    (hSplit : blk'.ops = before ++ anchor :: after)
    (hRun : (sinkBehind anchor set vars ops).run g = .ok (u, g')) :
    ∃ guard close branch yes no,
      Lowered g g' body outer passage inner b home blk blk' ops set vars guard
        close branch yes no before (anchor :: after) ∧ g'.Coherent := by
  have hCoherent' : g'.Coherent := by
    obtain ⟨c, g₁, hGuard, hSink⟩ := run_bind_eq_ok.mp hRun
    exact coherent_sink hSink (Build.coherent_conditional hGuard hCoherent)
  have hHolder := h.source.holder h.between
  have hApart : home ≠ b := by
    rintro rfl
    exact h.intact.ne_of_within h.linked (h.below.reached (.child h.reached hHolder))
      (hHolder.within.trans h.below) (h.source.unique h.target)
  have hNodup := h.intact.nodup_ops h.target.block
  rw [hSplit, nodup_middle, nodup_cons] at hNodup
  have hStands : Edit.Stands g anchor home blk' before after :=
    ⟨h.intact.placed h.target.block (by simp [hSplit]), h.target.block, hSplit,
      fun hMem => hNodup.1 (mem_append_left _ hMem)⟩
  have hBefore : ∀ x ∈ before, ∃ o, g.op x = .ok o := by
    intro x hMem
    have hIn : x ∈ blk'.ops := hSplit ▸ mem_append_left _ hMem
    obtain ⟨o, hOp, _⟩ := h.intact.placed h.target.block hIn
    exact ⟨o, hOp⟩
  have hSub := h.front.trans (dropLast_sublist blk.ops)
  have hOps : ∀ x ∈ ops, ∃ o, g.op x = .ok o ∧ o.parent = some b :=
    fun x hMem => h.intact.placed h.source.block (hSub.subset hMem)
  rcases run_sinkBehind hStands hBefore hOps
    (hSub.nodup (h.intact.nodup_ops h.source.block)) hApart h.source.block hRun with
    ⟨guard, close, branch, yes, no, hBehind, hLanded⟩
  exact ⟨guard, close, branch, yes, no,
    ⟨h, hBehind, hSplit, cons_ne_nil _ _, hLanded⟩, hCoherent'⟩

namespace Underway

variable {f : Function} {r : Rung} {rest : List Rung}

theorem descent (h : Underway f sunk tops loops inner passage (r :: rest))
    (hSource : f.graph.LoopBody r.outer b blk) (hTarget : f.graph.LoopBody inner home blk')
    (hFront : ops.Sublist blk.ops.dropLast) (hBetween : passage ∈ blk.ops)
    (hStays : passage ∉ ops) : Descent f.graph f.body r.outer passage inner b home blk blk' ops :=
  ⟨h.intact, h.linked, hSource, hTarget, h.reached_rung mem_cons_self, hBetween, h.below, hStays,
    hFront⟩

/- Statements of a rung are moved behind a guard. -/
theorem lowers (h : Underway f sunk tops loops inner passage (r :: rest))
    (hDescent : Descent f.graph f.body r.outer passage inner b home blk blk' ops)
    (hSplit : blk'.ops = before ++ anchor :: after) (hFits : set.numInputs = .ok vars.length)
    (hRun : (sinkBehind anchor set vars ops).run f.graph = .ok (u, g')) :
    ∃ guard close branch yes no,
      Lowers f g' r.outer passage inner b home blk blk' ops set vars guard close
        branch yes no before (anchor :: after) ∧ g'.Coherent := by
  rcases exists_lowered h.coherent hDescent hSplit hRun with
    ⟨guard, close, branch, yes, no, hLowered, hCoherent⟩
  refine ⟨guard, close, branch, yes, no,
    ⟨hLowered, fun {x o} hMem hOp => ?_, hFits, Graph.intact_of_coherent hCoherent, h.shaped⟩,
    hCoherent⟩
  obtain ⟨p, hOuter, hLoop, _⟩ := hDescent.source.op
  have hIn := hDescent.front.subset hMem
  exact h.plain.straight hDescent.reached hOuter hLoop (hLowered.source.holder
    (mem_of_mem_dropLast hIn)) hOp
    (h.shaped.last (hDescent.source.covers hDescent.reached) hDescent.source.block hIn hOp)

end Underway

/- The front of a rung has been sunk, the back has not. -/
structure Midway (f : Function) (sunk tops loops : List OpId) (inner passage : OpId) (r : Rung)
    (rest : List Rung) (front : List OpId) (home : BlockId) (vars : List ValueId) : Prop where
  underway : Underway f sunk tops loops inner passage (r :: rest)
  empty : r.front = []
  sighted : f.SightedBut (Pending f.graph front r.back)
  counts : Counts f.graph inner vars
  body : f.graph.bodyBlock inner = .ok home
  sunk {a : OpId} (hMem : a ∈ front) : a ∈ sunk
  landed {a : OpId} {blk : Block} (hMem : a ∈ front) (hResults : f.graph.hasResults a = true)
    (hBlock : f.graph.block home = .ok blk) : a ∈ blk.ops.dropLast

/- The operations of the innermost body. -/
theorem Underway.target {f : Function} {rungs : List Rung}
    (h : Underway f sunk tops loops inner passage rungs) (hInner : inner ∈ loops)
    (hBody : f.graph.bodyBlock inner = .ok home) : ∃ blk, f.graph.LoopBody inner home blk := by
  obtain ⟨_, _, o, hOp, hLoop⟩ := h.around hInner
  obtain ⟨c, blk, hLoopBody⟩ := h.shaped.loopBody h.intact h.reached hOp hLoop
  cases hBody.symm.trans hLoopBody.bodyBlock
  exact ⟨blk, hLoopBody⟩

section Halves

variable {f : Function} {front : List OpId} {r : Rung} {rest : List Rung}

theorem midway_of_empty (hUnder : Underway f sunk tops loops inner passage (r :: rest))
    (hSighted : f.Sighted) (hCounts : Counts f.graph inner vars)
    (hBody : f.graph.bodyBlock inner = .ok home) (hNone : r.front = []) :
    Midway f sunk tops loops inner passage r rest [] home vars where
  underway := hUnder
  empty := hNone
  sighted _ _ _ hReached hOp hMem := .inl (hSighted hReached hOp hMem)
  counts := hCounts
  body := hBody
  sunk hMem := absurd hMem not_mem_nil
  landed hMem := absurd hMem not_mem_nil

/- The statements in front of the loop are sunk. -/
theorem run_sinkFront (hUnder : Underway f sunk tops loops inner passage (r :: rest))
    (hSighted : f.Sighted) (hCounts : Counts f.graph inner vars)
    (hTarget : f.graph.LoopBody inner home blk') (hSplit : blk'.ops = start :: after)
    (hLength : first.length = vars.length) (hFew : first.length < 2 ^ 32)
    (hRun : (sinkBehind start (firstGuard first) vars r.front).run f.graph = .ok (u, g')) :
    Midway { f with graph := g' } sunk tops loops inner passage
      { r with front := [] } rest r.front home vars := by
  rcases hUnder.ladder.first.parts hUnder.intact with
    ⟨b, blk, last, hSource, hOps, hDrop, hBeside, hLeft, _⟩
  have hDescent : Descent f.graph f.body r.outer passage inner b home blk blk' r.front := by
    refine hUnder.descent hSource hTarget ?_ (by simp [hOps]) ?_
    · rw [hDrop]
      exact sublist_append_left _ _
    · exact fun hMem => hBeside (mem_append_left _ hMem)
  have hFits : (firstGuard first).numInputs = .ok vars.length := hLength ▸ numInputs_firstGuard hFew
  have hWhole : blk'.ops = [] ++ start :: after := hSplit
  rcases hUnder.lowers hDescent hWhole hFits hRun with
    ⟨guard, close, branch, yes, no, hLowers, hCoherent⟩
  rw [← hSplit] at hLowers
  exact {
    underway := by
      refine hLowers.underway' hUnder hCoherent rfl ⟨b, _, last, hLowers.source', hLeft⟩ ?_
      intro s
      simp [Rung.ops]
    empty := rfl
    sighted := hLowers.sightedBut_front hUnder hOps hCounts hSighted
    counts := hLowers.counts' hCounts
    body := hLowers.behind.edited.bodyBlock hTarget.bodyBlock
    sunk := fun hMem => hUnder.listed mem_cons_self (mem_append_left _ hMem)
    landed := by
      intro a now hMem hResults hBlock
      cases hBlock.symm.trans hLowers.landed
      obtain ⟨o, hOp⟩ := hUnder.intact.op_of_reached (hLowers.reached_moved hMem)
      rw [hLowers.behind.edited.hasResults hOp] at hResults
      have hIn : a ∈ r.front.filter f.graph.hasResults := mem_filter.mpr ⟨hMem, hResults⟩
      rw [nil_append, dropLast_append_of_ne_nil (cons_ne_nil _ _)]
      exact mem_append_left _ hIn }

/- The statements behind the loop are sunk. -/
theorem run_sinkBack (hMid : Midway f sunk tops loops inner passage r rest front home vars)
    (hTarget : f.graph.LoopBody inner home blk') (hEnd : blk'.ops.getLast? = some end')
    (hLength : lasts.length = vars.length) (hFew : lasts.length < 2 ^ 32)
    (hRun : (sinkBehind end' (lastGuard lasts) vars r.back).run f.graph = .ok (u, g')) :
    Underway { f with graph := g' } sunk tops loops inner passage ({ r with back := [] } :: rest) ∧
      Function.Sighted { f with graph := g' } := by
  have hUnder := hMid.underway
  have hSplit : blk'.ops = blk'.ops.dropLast ++ [end'] :=
    (dropLast_append_getLast? end' hEnd).symm
  rcases hUnder.ladder.first.parts hUnder.intact with
    ⟨b, blk, last, hSource, hOps, hDrop, hBeside, _, hLeft⟩
  rw [hMid.empty, nil_append] at hOps hDrop
  have hDescent : Descent f.graph f.body r.outer passage inner b home blk blk' r.back := by
    refine hUnder.descent hSource hTarget ?_ (by simp [hOps]) ?_
    · rw [hDrop]
      exact sublist_cons_self _ _
    · exact fun hMem => hBeside (mem_append_right _ hMem)
  have hFits : (lastGuard lasts).numInputs = .ok vars.length := hLength ▸ numInputs_lastGuard hFew
  rcases hUnder.lowers hDescent hSplit hFits hRun with
    ⟨guard, close, branch, yes, no, hLowers, hCoherent⟩
  constructor
  · refine hLowers.underway' hUnder hCoherent rfl ⟨b, _, last, hLowers.source', hLeft⟩ ?_
    intro s
    simp [Rung.ops, hMid.empty]
  · refine hLowers.sighted_back hUnder hOps hMid.empty ?_ ?_ hMid.counts hMid.sighted
    · intro a hMem hResults
      exact hMid.landed hMem hResults hTarget.block
    · intro a hMem
      exact hUnder.reached_sunk (hMid.sunk hMem)

/- Nothing is out of sight if there is nothing behind the loop. -/
theorem Midway.sighted_of_empty
    (hMid : Midway f sunk tops loops inner passage r rest front home vars)
    (hNone : r.back = []) : f.Sighted := by
  intro x o v hReached hOp hMem
  rcases hMid.sighted hReached hOp hMem with hSees | ⟨_, z, hBack, _⟩
  · exact hSees
  · rw [hNone] at hBack
    cases hBack

end Halves

/- A level tells what is to be sunk from a rung. -/
structure Fits (loops : List OpId) (r : Rung) (level : NestLevel) : Prop where
  front : level.front = r.front
  back : level.back = r.back
  inner : level.inner = loops
  first (hFront : r.front ≠ []) : level.first.length = loops.length
  last (hBack : r.back ≠ []) : level.last.length = loops.length

/- Levels for the rungs of a ladder from which something is to be sunk. -/
inductive Scheduled : List OpId → List Rung → List NestLevel → Prop
  | done {loops : List OpId} : Scheduled loops [] []
  | skip {loops : List OpId} {r : Rung} {rest : List Rung}
      {levels : List NestLevel} (hNone : r.ops = [])
      (hRest : Scheduled (loops ++ [r.outer]) rest levels) : Scheduled loops (r :: rest) levels
  | level {loops : List OpId} {r : Rung} {rest : List Rung}
      {level : NestLevel} {levels : List NestLevel} (hFits : Fits loops r level)
      (hRest : Scheduled (loops ++ [r.outer]) rest levels) :
      Scheduled loops (r :: rest) (level :: levels)

section Levels

variable {f : Function} {r : Rung} {rungs rest : List Rung}

/- The variables of the loops around the innermost body. -/
theorem Underway.counts (hUnder : Underway f sunk tops loops inner passage rungs)
    (hVars : ∀ v ∈ vars, ∃ l ∈ loops, f.graph.inductionVar l = .ok v) :
    Counts f.graph inner vars := by
  intro v hMem
  obtain ⟨l, hLoop, hVar⟩ := hVars v hMem
  obtain ⟨_, hInner, o, hOp, hKind⟩ := hUnder.around hLoop
  have hReached := hUnder.intact.reached_of_inside hUnder.linked hUnder.reached hInner
  obtain ⟨c, blk, hBody⟩ := hUnder.shaped.loopBody hUnder.intact hReached hOp hKind
  refine ⟨l, c, blk, hBody, hInner, ?_⟩
  obtain ⟨val, hValue, hDefiner⟩ := hUnder.intact.argument hBody.block (hBody.head_args hVar)
  exact ⟨val, 0, hValue, hDefiner⟩

/- Sinking a level empties its rung. -/
theorem run_sinkLevel (hUnder : Underway f sunk tops loops inner passage (r :: rest))
    (hSighted : f.Sighted) (hInner : inner ∈ loops) (hFits : Fits loops r level)
    (hRun : (sinkLevel inner level).run f.graph = .ok (u, g')) :
    Underway { f with graph := g' } sunk tops loops inner passage (⟨r.outer, [], []⟩ :: rest) ∧
      Function.Sighted { f with graph := g' } := by
  obtain ⟨home, vars, g₁, hBody, hVars, hFront, hBack⟩ := cases_of_sinkLevel hRun
  rw [hFits.inner] at hVars
  have hLength := hVars.length_eq.symm
  have hCounts := hUnder.counts fun _ => exists_of_forall₂ hVars
  have hFew := hUnder.length_lt
  rw [← hLength] at hFew
  have hMid : ∃ front, Midway { f with graph := g₁ } sunk tops loops inner passage
      { r with front := [] } rest front home vars := by
    rcases hFront with ⟨hNone, rfl⟩ | ⟨hSome, blk, start, after, hBlock, hSplit, hSink⟩
    · obtain ⟨outer, front, back⟩ := r
      cases hFits.front.symm.trans hNone
      exact ⟨[], midway_of_empty hUnder hSighted hCounts hBody rfl⟩
    · rw [hFits.front] at hSome hSink
      obtain ⟨_, hTarget⟩ := hUnder.target hInner hBody
      cases hBlock.symm.trans hTarget.block
      have hFirst : level.first.length = vars.length := by rw [hFits.first hSome, hLength]
      exact ⟨_, run_sinkFront hUnder hSighted hCounts hTarget hSplit hFirst (hFirst ▸ hFew) hSink⟩
  obtain ⟨front, hMid⟩ := hMid
  rcases hBack with ⟨hNone, rfl⟩ | ⟨hSome, blk, last, hBlock, hEnd, hSink⟩
  · obtain ⟨outer, front, back⟩ := r
    cases hFits.back.symm.trans hNone
    exact ⟨hMid.underway, hMid.sighted_of_empty rfl⟩
  · rw [hFits.back] at hSome hSink
    obtain ⟨_, hTarget⟩ := hMid.underway.target hInner hMid.body
    cases hBlock.symm.trans hTarget.block
    have hLast : level.last.length = vars.length := by rw [hFits.last hSome, hLength]
    exact run_sinkBack hMid hTarget hEnd hLast (hLast ▸ hFew) hSink

/- Sinking all levels of a ladder keeps what is known of the function. -/
theorem run_sinkLevels {levels : List NestLevel} (hScheduled : Scheduled loops rungs levels)
    (hUnder : Underway f sunk tops loops inner passage rungs) (hSighted : f.Sighted)
    (hInner : inner ∈ loops) (hRun : (levels.forM (sinkLevel inner)).run f.graph = .ok (u, g')) :
    ∃ loops' passage', Underway { f with graph := g' } sunk tops loops' inner passage' [] ∧
        Function.Sighted { f with graph := g' } := by
  induction hScheduled generalizing f passage with
  | done =>
    obtain ⟨-, rfl⟩ := run_pure_eq_ok.mp hRun
    exact ⟨_, _, hUnder, hSighted⟩
  | skip hNone _ ih => exact ih (hUnder.climb hNone) hSighted (mem_append_left _ hInner) hRun
  | level hFits _ ih =>
    obtain ⟨_, g₁, hFirst, hRun⟩ := run_bind_eq_ok.mp hRun
    obtain ⟨hUnder', hSighted'⟩ := run_sinkLevel hUnder hSighted hInner hFits hFirst
    have hRest := ih (hUnder'.climb rfl) hSighted' (mem_append_left _ hInner) hRun
    exact hRest

end Levels

end Perfection

end AffineIR
