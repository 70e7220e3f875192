import AffineIR.Proofs.Nest.Cages

/-
  Emptying the loops of a nest.

  Sinking a level leaves the loop inside and the terminator in
  the body of a loop.  The loops that have been emptied are a
  chain, and the ladder of the others gets shorter level by
  level, until the chain is the whole nest.  All of this stays
  within the nest.

  Main result: `Perfection.emptying_of_plan`
-/

namespace AffineIR

open List

variable {anchor close guard l last passage root x y : OpId} {branch c : BlockId} {g : Graph}
  {after back before front : List OpId} {f : Function} {function : String} {levels : List NestLevel}

------
-- Loops
------

namespace Graph

/- The body of a loop ends with a terminator. -/
def Ends (g : Graph) (x : OpId) : Prop :=
  ∃ b blk last o, g.LoopBody x b blk ∧ blk.ops.getLast? = some last ∧
    g.op last = .ok o ∧ o.kind.isTerminator = true

variable {g' : Graph} {body : RegionId}

theorem KeepsNest.ends (hKeeps : g.KeepsNest g' x) (hEnds : g.Ends x) : g'.Ends x := by
  obtain ⟨b, blk, last, o, hBody, hLast, hOp, hEnd⟩ := hEnds
  have hInside : g.Inside x last := .child .self (hBody.holder (mem_of_getLast? hLast))
  exact ⟨b, blk, last, o, (hKeeps .self).loopBody hBody, hLast, (hKeeps hInside).op.trans hOp, hEnd⟩

/- A confined rewrite keeps the loops of the nest, and makes no others. -/
theorem Confined.loop_iff (hConfined : g.Confined g' body root) :
    g'.Inside root x ∧ g'.isLoop x = true ↔ g.Inside root x ∧ g.isLoop x = true := by
  have hSame {o : Operation} (hOp : g.op x = .ok o) :
      (g'.Inside root x ↔ g.Inside root x) ∧ g'.isLoop x = g.isLoop x := by
    obtain ⟨q, hOp'⟩ := hConfined.moves hOp
    exact ⟨hConfined.inside hOp, by rw [isLoop_of_op hOp, isLoop_of_op hOp']⟩
  constructor
  · rintro ⟨hInside, hLoop⟩
    obtain ⟨o', hOp', hKind⟩ := isLoop_iff.mp hLoop
    obtain ⟨o, hOp⟩ := hConfined.loop hInside hOp' hKind
    exact ⟨(hSame hOp).1.mp hInside, (hSame hOp).2 ▸ hLoop⟩
  · rintro ⟨hInside, hLoop⟩
    obtain ⟨o, hOp, _⟩ := isLoop_iff.mp hLoop
    exact ⟨(hSame hOp).1.mpr hInside, (hSame hOp).2 ▸ hLoop⟩

end Graph

namespace Perfection

/- Without statements the loop of a rung is emptied. -/
theorem Rung.Stands.encloses {r : Rung} (hStands : r.Stands g passage) (hEnds : g.Ends r.outer)
    (hNone : r.ops = []) : g.Encloses r.outer passage := by
  obtain ⟨b, blk, last, hBody, hOps⟩ := hStands
  obtain ⟨b', blk', last', o, hBody', hLast, hOp, hEnd⟩ := hEnds
  cases hBody.bodyBlock.symm.trans hBody'.bodyBlock
  cases hBody.block.symm.trans hBody'.block
  obtain ⟨hFront, hBack⟩ := append_eq_nil_iff.mp hNone
  rw [hFront, hBack, nil_append, nil_append] at hOps
  rw [hOps] at hLast
  cases hLast
  exact ⟨b, blk, last, o, hBody, hOps, hOp, hEnd⟩

/- The loop at the foot of a ladder has a program if the one at its top has. -/
theorem Ladder.unfolds {rungs : List Rung} {p : Prog} (hLadder : Ladder g passage rungs)
    (hTop : (passage :: rungs.map Rung.outer).getLast? = some root)
    (hUnfolds : g.Unfolds c [root] p) : ∃ c p, g.Unfolds c [passage] p := by
  induction hLadder with
  | top =>
    cases hTop
    exact ⟨c, p, hUnfolds⟩
  | rung hStands _ ih =>
    rw [map_cons, List.getLast?_cons_cons] at hTop
    obtain ⟨_, _, hOuter⟩ := ih hTop
    obtain ⟨b, blk, last, hBody, hOps⟩ := hStands
    obtain ⟨_, q, hInner⟩ := hBody.unfolds hOuter
    exact ⟨b, hInner.single (by simp [hOps])⟩

variable {g' : Graph} {body : RegionId} {outer inner : OpId} {b home : BlockId} {blk blk' : Block}
  {loops ops rest : List OpId} {set : Affine.IntegerSet} {vars : List ValueId} {yes no : RegionId}
  {r : Rung} {rungs : List Rung}

namespace Lowered

variable
  (h : Lowered g g' body outer passage inner b home blk blk' ops set vars guard close branch yes no
    before after)

include h

/- Terminators stay at the ends of bodies. -/
theorem ends' (hEnds : g.Ends x) : g'.Ends x := by
  obtain ⟨c, old, last, o, hBody, hLast, hOp, hEnd⟩ := hEnds
  obtain ⟨now, hNow, hSame, _⟩ := h.block hBody.block
  obtain ⟨q, hOp'⟩ := h.behind.edited.moves hOp
  exact ⟨c, _, last, _, h.loopBody' hBody hNow, hSame.trans hLast, hOp', hEnd⟩

theorem encloses' (hEncloses : g.Encloses x y) (hOuter : x ≠ outer)
    (hInner : x ≠ inner) : g'.Encloses x y := by
  obtain ⟨c, old, last, o, hBody, hOps, hOp, hEnd⟩ := hEncloses
  obtain ⟨q, hOp'⟩ := h.behind.edited.moves hOp
  exact ⟨c, old, last, _, h.loopBody_other hBody hOuter hInner, hOps, hOp', hEnd⟩

end Lowered

------
-- Emptied loops
------

/-
  A nest at the top whose loops from a passage down to the
  innermost one have been emptied, with the ladder of the others.
-/
structure Emptying (g : Graph) (body : RegionId) (root inner passage : OpId) (rest : List OpId)
    (rungs : List Rung) : Prop where
  coherent : g.Coherent
  linked : g.Linked body none
  listed : ∃ c, g.Lists body c root
  chain : (passage :: rest).IsChain g.Encloses
  last : (passage :: rest).getLast? = some inner
  bodies {l : OpId} (hMem : l ∈ passage :: rest) : ∃ b blk, g.LoopBody l b blk
  ladder : Ladder g passage rungs
  ends {r : Rung} (hMem : r ∈ rungs) : g.Ends r.outer
  top : (passage :: rungs.map Rung.outer).getLast? = some root
  loops {x : OpId} : x ∈ passage :: rest ∨ x ∈ rungs.map Rung.outer ↔
    g.Inside root x ∧ g.isLoop x = true

namespace Emptying

section

variable (h : Emptying g body root inner passage rest rungs)

include h

theorem intact : g.Intact :=
  Graph.intact_of_coherent h.coherent

theorem reached : g.Reached body root := by
  obtain ⟨c, hLists⟩ := h.listed
  exact .top hLists

theorem inside_rung (hMem : r ∈ rungs) : g.Inside root r.outer :=
  (h.loops.mp (.inr (mem_map_of_mem hMem))).1

theorem inside_chain (hMem : l ∈ passage :: rest) : g.Inside root l :=
  (h.loops.mp (.inl hMem)).1

theorem inner_mem : inner ∈ passage :: rest :=
  mem_of_getLast? h.last

/- The innermost loop is inside each loop of the chain. -/
theorem below (hMem : l ∈ passage :: rest) : g.Inside l inner := by
  obtain ⟨before, after, hSplit⟩ := append_of_mem hMem
  have hChain := h.chain
  have hLast := h.last
  rw [hSplit] at hChain hLast
  rw [List.getLast?_append_of_ne_nil _ (cons_ne_nil _ _)] at hLast
  exact Graph.inside_of_isChain (isChain_append.mp hChain).2.1 (mem_of_getLast? hLast)

end

/- A nest with no ladder left is perfect. -/
theorem perfect (h : Emptying g body root inner passage rest []) : g.Perfect root := by
  have hTop : passage = root := by simpa using h.top
  subst hTop
  refine ⟨rest, h.chain, ?_⟩
  intro x
  rw [← h.loops]
  simp

/- Once nothing is left of a rung, its loop belongs to the chain. -/
theorem climb (h : Emptying g body root inner passage rest (r :: rungs)) (hNone : r.ops = []) :
    Emptying g body root inner r.outer (passage :: rest) rungs where
  coherent := h.coherent
  linked := h.linked
  listed := h.listed
  chain := isChain_cons_cons.mpr ⟨h.ladder.first.encloses (h.ends mem_cons_self) hNone, h.chain⟩
  last := by
    rw [List.getLast?_cons_cons]
    exact h.last
  bodies hMem := by
    rcases mem_cons.mp hMem with rfl | hMem
    · obtain ⟨b, blk, _, hBody, _⟩ := h.ladder.first
      exact ⟨b, blk, hBody⟩
    · exact h.bodies hMem
  ladder := h.ladder.rest
  ends hMem := h.ends (mem_cons_of_mem _ hMem)
  top := by
    have hTop := h.top
    rwa [map_cons, List.getLast?_cons_cons] at hTop
  loops := by
    intro x
    rw [← h.loops]
    simp only [map_cons, mem_cons]
    tauto

/- A nest that is kept is emptied as far as before. -/
theorem transfer (h : Emptying g body root inner passage rest rungs) (hCoherent' : g'.Coherent)
    (hTop : g.KeepsRegion g' body) (hKeeps : g.KeepsNest g' root) :
    Emptying g' body root inner passage rest rungs where
  coherent := hCoherent'
  linked := hTop.linked (Graph.intact_of_coherent hCoherent') h.linked
  listed := by
    obtain ⟨c, hLists⟩ := h.listed
    exact ⟨c, hTop.lists hLists⟩
  chain := hKeeps.isChain (fun l hMem => h.inside_chain hMem) h.chain
  last := h.last
  bodies hMem := by
    obtain ⟨b, blk, hBody⟩ := h.bodies hMem
    exact ⟨b, blk, (hKeeps (h.inside_chain hMem)).loopBody hBody⟩
  ladder := by
    refine h.ladder.transfer ?_
    rintro r hMem z ⟨b, blk, last, hBody, hOps⟩
    exact ⟨b, blk, last, (hKeeps (h.inside_rung hMem)).loopBody hBody, hOps⟩
  ends hMem := (hKeeps.of_inside (h.inside_rung hMem)).ends (h.ends hMem)
  top := h.top
  loops := by
    intro x
    rw [h.loops, hKeeps.inside_iff]
    refine and_congr_right ?_
    intro hInside
    rw [(hKeeps hInside).isLoop]

theorem ne_chain (h : Emptying g body root inner passage rest rungs) (hMem : r ∈ rungs)
    (hLoop : l ∈ passage :: rest) : r.outer ≠ l :=
  h.intact.ne_of_within h.linked ((h.inside_chain hLoop).reached h.reached)
    ((h.ladder.within hMem).trans (Graph.inside_of_isChain h.chain hLoop))

/- Moving statements of a rung keeps the chain and the rest of the ladder. -/
theorem lowered (h : Emptying g body root inner passage rest (r :: rungs))
    (hLowered : Lowered g g' body r.outer passage inner b home blk blk' ops set
      vars guard close branch yes no before after)
    (hCoherent' : g'.Coherent)
    (hConfined : g.Confined g' body root)
    (hLeft : blk.ops.filter (· ∉ ops) = front ++ passage :: (back ++ [last])) :
    Emptying g' body root inner passage rest (⟨r.outer, front, back⟩ :: rungs) where
  coherent := hCoherent'
  linked := hConfined.top.linked (Graph.intact_of_coherent hCoherent') h.linked
  listed := by
    obtain ⟨c, hLists⟩ := h.listed
    exact ⟨c, hConfined.top.lists hLists⟩
  chain := by
    refine h.chain.imp_of_mem_imp ?_
    intro l next hMem hNext hEncloses
    refine hLowered.encloses' hEncloses (h.ne_chain mem_cons_self hMem).symm ?_
    exact h.intact.ne_of_within h.linked ((h.inside_chain h.inner_mem).reached h.reached)
      (hEncloses.holder.within.trans (h.below hNext))
  last := h.last
  bodies hMem := by
    obtain ⟨c, old, hBody⟩ := h.bodies hMem
    obtain ⟨now, hBody'⟩ := hConfined.body hBody
    exact ⟨c, _, hBody'⟩
  ladder := by
    refine .rung ⟨b, _, last, hLowered.source', hLeft⟩ (hLowered.ladder' h.ladder.rest ?_)
    intro r' hMem
    refine ⟨?_, h.ne_chain (mem_cons_of_mem _ hMem) h.inner_mem⟩
    exact h.intact.ne_of_within h.linked ((h.inside_rung mem_cons_self).reached h.reached)
      (h.ladder.rest.within hMem)
  ends hMem := by
    refine hLowered.ends' ?_
    rcases mem_cons.mp hMem with rfl | hMem
    · change g.Ends r.outer
      exact h.ends mem_cons_self
    · exact h.ends (mem_cons_of_mem _ hMem)
  top := h.top
  loops := by
    intro x
    rw [hConfined.loop_iff]
    exact h.loops

/- Statements of a rung are put behind a guard in the innermost body. -/
theorem sinkBehind {u : Unit} (h : Emptying g body root inner passage rest (r :: rungs))
    (hSource : g.LoopBody r.outer b blk) (hTarget : g.LoopBody inner home blk')
    (hBetween : passage ∈ blk.ops) (hStays : passage ∉ ops) (hFront : ops.Sublist blk.ops.dropLast)
    (hLeft : blk.ops.filter (· ∉ ops) = front ++ passage :: (back ++ [last]))
    (hSplit : blk'.ops = before ++ anchor :: after) (hVars : ∀ v ∈ vars, g.Varies root v)
    (hRun : (sinkBehind anchor set vars ops).run g = .ok (u, g')) :
    g.Confined g' body root ∧ Carried g g' root inner ∧
      Emptying g' body root inner passage rest (⟨r.outer, front, back⟩ :: rungs) ∧
      ∃ guard, ∀ x ∈ ops, g'.hasResults x = false → Caged g' inner guard set vars x := by
  have hAround := h.inside_rung mem_cons_self
  rcases exists_lowered h.coherent ⟨h.intact, h.linked, hSource, hTarget,
      hAround.reached h.reached, hBetween, h.below mem_cons_self, hStays, hFront⟩ hSplit hRun
    with ⟨guard, close, branch, yes, no, hLowered, hCoherent'⟩
  have hSpared : ∀ v, v ∉ vars → g'.value v = g.value v :=
    fun v hOther => spares_sinkBehind hOther anchor set ops hRun
  have hIntact' := Graph.intact_of_coherent hCoherent'
  have hConfined := hLowered.confined hAround hSpared hVars hIntact'
  refine ⟨hConfined, hLowered.carried hAround ?_ hIntact',
    h.lowered hLowered hCoherent' hConfined hLeft, guard, fun x => hLowered.caged⟩
  intro c p hUnfolds
  have hTop := h.top
  rw [map_cons, List.getLast?_cons_cons] at hTop
  exact h.ladder.rest.unfolds hTop hUnfolds

/- The variables of loops of the chain. -/
theorem varies {v : ValueId} (h : Emptying g body root inner passage rest rungs)
    (hLoop : l ∈ passage :: rest) (hVar : g.inductionVar l = .ok v) : g.Varies root v := by
  obtain ⟨c, old, hBody⟩ := h.bodies hLoop
  exact ⟨l, c, old, hBody, h.inside_chain hLoop, mem_of_getElem? (hBody.head_args hVar)⟩

theorem target (h : Emptying g body root inner passage rest rungs)
    (hBody : g.bodyBlock inner = .ok home)
    (hBlock : g.block home = .ok blk) : g.LoopBody inner home blk := by
  obtain ⟨c, old, hLoop⟩ := h.bodies h.inner_mem
  cases hBody.symm.trans hLoop.bodyBlock
  cases hBlock.symm.trans hLoop.block
  exact hLoop

end Emptying

section Levels

variable {u : Unit} {level : NestLevel}

/- Sinking a level empties its rung and puts its statements behind guards. -/
theorem emptying_of_sinkLevel (h : Emptying g body root inner passage rest (r :: rungs))
    (hLoops : loops ⊆ passage :: rest) (hFits : Fits loops r level)
    (hRun : (sinkLevel inner level).run g = .ok (u, g')) :
    g.Confined g' body root ∧ Carried g g' root inner ∧
      Emptying g' body root inner passage rest (⟨r.outer, [], []⟩ :: rungs) ∧
      ∃ vars, Guarded g' inner level vars := by
  obtain ⟨home, vars, g₁, hBody, hVars, hFront, hBack⟩ := cases_of_sinkLevel hRun
  have hVaries : ∀ v ∈ vars, g.Varies root v := by
    intro v hMem
    obtain ⟨l, hLoop, hVar⟩ := exists_of_forall₂ hVars hMem
    rw [hFits.inner] at hLoop
    exact h.varies (hLoops hLoop) hVar
  have hFirst : g.Confined g₁ body root ∧ Carried g g₁ root inner ∧ g₁.bodyBlock inner = .ok home ∧
      Emptying g₁ body root inner passage rest (⟨r.outer, [], r.back⟩ :: rungs) ∧
      ∀ x ∈ level.front, g₁.hasResults x = false →
        ∃ guard, Caged g₁ inner guard (firstGuard level.first) vars x := by
    rcases hFront with ⟨hNone, rfl⟩ | ⟨_, blk', start, after, hBlock, hSplit, hSink⟩
    · obtain ⟨outer, front, back⟩ := r
      cases hFits.front.symm.trans hNone
      refine ⟨.refl _ _ _, .refl _ _ _, hBody, h, ?_⟩
      rw [hNone]
      exact nofun
    · rw [hFits.front] at hSink ⊢
      rcases h.ladder.first.parts h.intact with
        ⟨b, blk, last, hSource, hOps, hDrop, hBeside, hLeft, _⟩
      have hTarget := h.target hBody hBlock
      have hWhole : blk'.ops = [] ++ start :: after := hSplit
      have hRest : blk.ops.filter (· ∉ r.front) = [] ++ passage :: (r.back ++ [last]) := hLeft
      have hSub : r.front.Sublist blk.ops.dropLast := by
        rw [hDrop]
        exact sublist_append_left _ _
      rcases h.sinkBehind hSource hTarget (by simp [hOps])
        (fun hMem => hBeside (mem_append_left _ hMem)) hSub hRest hWhole
        hVaries hSink with ⟨hConfined, hCarried, hEmptying, guard, hCaged⟩
      obtain ⟨now, hTarget'⟩ := hConfined.body hTarget
      exact ⟨hConfined, hCarried, hTarget'.bodyBlock, hEmptying,
        fun x hMem hQuiet => ⟨guard, hCaged x hMem hQuiet⟩⟩
  obtain ⟨hConfined, hCarried, hBody', h', hCaged⟩ := hFirst
  have hCounts {g' : Graph} (hCarried : Carried g g' root inner) :
      List.Forall₂ (fun l v => g'.inductionVar l = .ok v) level.inner vars := by
    obtain ⟨_, _, hEdited⟩ := hCarried.edited
    exact hVars.imp fun _ _ => hEdited.inductionVar
  rcases hBack with ⟨hNone, rfl⟩ | ⟨_, blk', end', hBlock, hEnd, hSink⟩
  · rw [hFits.back.symm.trans hNone] at h'
    refine ⟨hConfined, hCarried, h', vars, hCounts hCarried, hCaged _, ?_⟩
    rw [hNone]
    exact nofun
  · rw [hFits.back] at hSink
    rcases h'.ladder.first.parts h'.intact with
      ⟨b, blk, last, hSource, hOps, hDrop, hBeside, _, hLeft⟩
    have hSplit : blk'.ops = blk'.ops.dropLast ++ [end'] :=
      (dropLast_append_getLast? end' hEnd).symm
    have hSub : r.back.Sublist blk.ops.dropLast := by
      rw [hDrop]
      exact sublist_cons_self _ _
    have hRest : blk.ops.filter (· ∉ r.back) = [] ++ passage :: ([] ++ [last]) := hLeft
    rcases h'.sinkBehind hSource (h'.target hBody' hBlock) (by simp [hOps])
      hBeside hSub hRest hSplit (fun v hMem => hConfined.varies (hVaries v hMem)) hSink with
      ⟨hConfined', hCarried', h'', guard, hCaged'⟩
    have hBoth := hCarried.trans hCarried'
    refine ⟨hConfined.trans hConfined', hBoth, h'', vars, hCounts hBoth, ?_, ?_⟩
    · intro x hMem hQuiet
      obtain ⟨_, _, hEdited⟩ := hCarried'.edited
      obtain ⟨guard', hThere⟩ := hCaged x hMem (hEdited.quiet hQuiet)
      exact ⟨guard', hCarried'.caged hThere⟩
    · intro x hMem hQuiet
      rw [hFits.back] at hMem
      exact ⟨guard, hCaged' x hMem hQuiet⟩

/- Sinking all levels empties all loops around the innermost one. -/
theorem emptied_of_sinkLevels (hScheduled : Scheduled loops rungs levels)
    (h : Emptying g body root inner passage rest rungs) (hLoops : loops ⊆ passage :: rest)
    (hRun : (levels.forM (sinkLevel inner)).run g = .ok (u, g')) :
    ∃ top rest', top :: rest' = (rungs.map Rung.outer).reverse ++ passage :: rest ∧
      g.Confined g' body root ∧ Carried g g' root inner ∧ Emptying g' body root inner top rest' [] ∧
      ∀ level ∈ levels, ∃ vars, Guarded g' inner level vars := by
  have hMore {loops rest : List OpId} {passage outer : OpId} (hLoops : loops ⊆ passage :: rest) :
      loops ++ [outer] ⊆ outer :: passage :: rest := append_subset.mpr
      ⟨fun _ hMem => mem_cons_of_mem _ (hLoops hMem), by simp⟩
  have hTurn {r : Rung} {rungs : List Rung} {chain : List OpId} :
      (rungs.map Rung.outer).reverse ++ r.outer :: chain =
        ((r :: rungs).map Rung.outer).reverse ++ chain := by
    simp
  induction hScheduled generalizing g passage rest with
  | done =>
    obtain ⟨-, rfl⟩ := Answer.run_pure_eq_ok.mp hRun
    exact ⟨passage, rest, rfl, .refl _ _ _, .refl _ _ _, h, nofun⟩
  | skip hNone _ ih =>
    rw [← hTurn]
    exact ih (h.climb hNone) (hMore hLoops) hRun
  | level hFits _ ih =>
    obtain ⟨_, g₁, hFirst, hRun⟩ := Answer.run_bind_eq_ok.mp hRun
    rcases emptying_of_sinkLevel h hLoops hFits hFirst with
      ⟨hConfined, hCarried, h', vars, hGuarded⟩
    rcases ih (h'.climb rfl) (hMore hLoops) hRun with
      ⟨top, rest', hChain, hConfined', hCarried', hEmptied, hOthers⟩
    rw [← hTurn]
    exact ⟨top, rest', hChain, hConfined.trans hConfined',
      hCarried.trans hCarried', hEmptied, forall_mem_cons.mpr
        ⟨⟨vars, hCarried'.guarded hGuarded⟩, hOthers⟩⟩

theorem emptied_of_carryOut (hScheduled : Scheduled [inner] rungs levels)
    (h : Emptying g body root inner inner [] rungs) (hRun : (carryOut levels).run g = .ok (u, g')) :
    ∃ top rest, top :: rest = (inner :: rungs.map Rung.outer).reverse ∧
      g.Confined g' body root ∧ Carried g g' root inner ∧ Emptying g' body root inner top rest [] ∧
      ∀ level ∈ levels, ∃ vars, Guarded g' inner level vars := by
  rw [reverse_cons]
  refine emptied_of_sinkLevels (u := u) hScheduled h (List.Subset.refl _) ?_
  cases levels with
  | nil => exact hRun
  | cons level levels =>
    obtain ⟨_, hInner, hRun⟩ := Edit.run_ask_bind.mp hRun
    cases hInner.symm.trans hScheduled.inner_head
    exact hRun

/- Carrying out a plan makes a nest perfect. -/
theorem perfect_of_carryOut (hScheduled : Scheduled [inner] rungs levels)
    (h : Emptying g body root inner inner [] rungs) (hRun : (carryOut levels).run g = .ok (u, g')) :
    g'.Coherent ∧ g.Confined g' body root ∧ g'.Perfect root := by
  obtain ⟨top, rest, _, hConfined, _, hEmptied, _⟩ := emptied_of_carryOut hScheduled h hRun
  exact ⟨hEmptied.coherent, hConfined, hEmptied.perfect⟩

end Levels

/-
  In a nest that gets a plan only the innermost loop is emptied
  yet, and the results of its statements have been checked.
-/
theorem cases_of_plan (hCoherent : f.graph.Coherent) (hShaped : f.Shaped)
    (hLists : f.graph.Lists f.body c root) (hLoop : f.graph.isLoop root = true)
    (hPlan : plan f.graph function root = .ok levels) :
    ∃ inner rungs, Emptying f.graph f.body root inner inner [] rungs ∧
      Scheduled [inner] rungs levels ∧ checkResults f.graph function levels = .ok () := by
  have hIntact := Graph.intact_of_coherent hCoherent
  have hLinked := hShaped.linked_body hIntact
  obtain ⟨ops, chain, hWalk, hChain, hFound⟩ := ladder_of_plan hShaped hIntact (.top hLists) hPlan
  have hAll : chain = ops.filter f.graph.isLoop := by simpa using eq_filter_of_chainOf hChain
  have hLast : chain.getLast? = some root := by
    obtain ⟨front, rfl, _⟩ := Graph.walkFrom_post hWalk
    rw [hAll, filter_append, filter_cons_of_pos hLoop, filter_nil,
      List.getLast?_concat]
  rcases hFound with ⟨rfl, _⟩ |
    ⟨inner, rungs, o, rfl, hReached, hOp, hInner, hLadder, hScheduled, hCheck⟩
  · cases hLast
  obtain ⟨b, blk, hBody⟩ := hShaped.loopBody hIntact hReached hOp hInner
  refine ⟨inner, rungs, ?_, hScheduled, hCheck⟩
  exact {
    coherent := hCoherent
    linked := hLinked
    listed := ⟨c, hLists⟩
    chain := isChain_singleton inner
    last := rfl
    bodies := by
      intro l hMem
      rw [mem_singleton.mp hMem]
      exact ⟨b, blk, hBody⟩
    ladder := hLadder
    ends := by
      intro r hMem
      obtain ⟨_, b, blk, _, hBody, _⟩ := hLadder.stands hMem
      have hThere := hIntact.reached_of_inside hLinked hReached (hLadder.within hMem).inside
      obtain ⟨init, last, o, hOps, hOp, hYield⟩ := hBody.yield hShaped hThere
      refine ⟨b, blk, last, o, hBody, ?_, hOp, ?_⟩
      · rw [hOps, List.getLast?_concat]
      · rw [hYield]
        rfl
    top := hLast
    loops := by
      intro x
      rw [mem_singleton, ← mem_cons, hAll, mem_filter,
        Graph.mem_walkFrom_iff hWalk] }

theorem emptying_of_plan (hCoherent : f.graph.Coherent) (hShaped : f.Shaped)
    (hLists : f.graph.Lists f.body c root) (hLoop : f.graph.isLoop root = true)
    (hPlan : plan f.graph function root = .ok levels) :
    ∃ inner rungs, Emptying f.graph f.body root inner inner [] rungs ∧
      Scheduled [inner] rungs levels := by
  rcases cases_of_plan hCoherent hShaped hLists hLoop hPlan with
    ⟨inner, rungs, hEmptying, hScheduled, _⟩
  exact ⟨inner, rungs, hEmptying, hScheduled⟩

end Perfection

end AffineIR
