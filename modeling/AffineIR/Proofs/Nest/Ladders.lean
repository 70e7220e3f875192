import AffineIR.Proofs.Nest.Visibility

/-
  Ladders of loops, each directly in the next.

  The statements of the loops are moved into the body of the
  innermost one, loop by loop, first those in front of the loop
  inside and then those behind it.  What is moved is only used
  by what is in the innermost body or moves, too.  Each move
  keeps this and the shape of the function.  After the front of
  a loop has moved its results are out of sight for the back;
  after the back has moved every value is in sight again.

  Main result: `Perfection.Lowers.sighted_back`
-/

namespace AffineIR

open List

variable {g g' : Graph} {l passage s x y z : OpId} {o : Operation} {v : ValueId}

------
-- Ladders of loops
------

namespace Perfection

/- A loop, with the statements before and after the loop in its body. -/
structure Rung where
  outer : OpId
  front : List OpId
  back : List OpId

namespace Rung

def ops (r : Rung) : List OpId := r.front ++ r.back

/- The body of the loop is as a rung says. -/
def Stands (g : Graph) (passage : OpId) (r : Rung) : Prop :=
  ∃ b blk last, g.LoopBody r.outer b blk ∧ blk.ops = r.front ++ passage :: (r.back ++ [last])

theorem Stands.holder {r : Rung} (hStands : r.Stands g passage) : g.Holder r.outer passage := by
  obtain ⟨b, blk, last, hBody, hOps⟩ := hStands
  exact hBody.holder (by simp [hOps])

end Rung

/- Loops around a loop, each directly in the next. -/
inductive Ladder (g : Graph) : OpId → List Rung → Prop
  | top {passage : OpId} : Ladder g passage []
  | rung {passage : OpId} {r : Rung} {rest : List Rung}
      (hStands : r.Stands g passage) (hRest : Ladder g r.outer rest) : Ladder g passage (r :: rest)

theorem Ladder.first {r : Rung} {rest : List Rung}
    (hLadder : Ladder g passage (r :: rest)) : r.Stands g passage := by
  cases hLadder with
  | rung hStands _ => exact hStands

theorem Ladder.rest {r : Rung} {rest : List Rung}
    (hLadder : Ladder g passage (r :: rest)) : Ladder g r.outer rest := by
  cases hLadder with
  | rung _ hRest => exact hRest

theorem Ladder.stands {rungs : List Rung} {r : Rung} (hLadder : Ladder g passage rungs)
    (hMem : r ∈ rungs) : ∃ z, r.Stands g z := by
  induction hLadder with
  | top => cases hMem
  | rung hStands _ ih =>
    rcases mem_cons.mp hMem with rfl | hMem
    · exact ⟨_, hStands⟩
    · exact ih hMem

theorem Ladder.within {rungs : List Rung} {r : Rung} (hLadder : Ladder g passage rungs)
    (hMem : r ∈ rungs) : g.Within r.outer passage := by
  induction hLadder with
  | top => cases hMem
  | rung hStands _ ih =>
    rcases mem_cons.mp hMem with rfl | hMem
    · exact hStands.holder.within
    · exact (ih hMem).trans (.child .self hStands.holder)

/- A ladder stands wherever each of its rungs does. -/
theorem Ladder.transfer {rungs : List Rung} (hLadder : Ladder g passage rungs)
    (hEach : ∀ r ∈ rungs, ∀ z, r.Stands g z → r.Stands g' z) : Ladder g' passage rungs := by
  induction hLadder with
  | top => exact .top
  | rung hStands _ ih =>
    obtain ⟨hFirst, hRest⟩ := forall_mem_cons.mp hEach
    exact .rung (hFirst _ hStands) (ih hRest)

/- The statements of a ladder are beside the loops in it. -/
theorem Ladder.not_inside {body : RegionId} {rungs : List Rung} {r : Rung}
    (hLadder : Ladder g passage rungs) (hIntact : g.Intact) (hBody : g.Linked body none)
    (hReached : g.Reached body x) (hPassage : g.Inside passage x) (hMem : r ∈ rungs)
    (hSunk : s ∈ r.ops) : ¬g.Inside s x := by
  induction hLadder with
  | top => cases hMem
  | @rung passage r' rest hStands hRest ih =>
    rcases mem_cons.mp hMem with rfl | hMem
    · intro hInside
      obtain ⟨b, blk, last, hLoop, hOps⟩ := hStands
      have hIn : s ∈ blk.ops := by
        rw [hOps]
        rcases mem_append.mp hSunk with hFront | hBack
        · simp [hFront]
        · simp [hBack]
      have hSame : s = passage := hIntact.eq_of_inside hBody hReached hInside
        hPassage (hIntact.sits_of_mem hLoop.block hIn)
        (hIntact.sits_of_mem hLoop.block (by simp [hOps]))
      have hNodup := hIntact.nodup_ops hLoop.block
      rw [hOps, nodup_middle, nodup_cons] at hNodup
      refine hNodup.1 (hSame ▸ ?_)
      rcases mem_append.mp hSunk with hFront | hBack
      · simp [hFront]
      · simp [hBack]
    · exact ih ((Graph.Inside.child .self hStands.holder).trans hPassage) hMem

end Perfection

------
-- Functions under way
------

/-
  Loops have no results, and only terminators in their bodies
  lead to other blocks.
-/
structure Function.Plain (f : Function) : Prop where
  quiet {x : OpId} {o : Operation} (hReached : f.graph.Reached f.body x)
    (hOp : f.graph.op x = .ok o) (hLoop : o.kind.isLoop = true) :
    o.results = []
  straight {z x : OpId} {p o : Operation}
    (hReached : f.graph.Reached f.body z) (hOuter : f.graph.op z = .ok p)
    (hLoop : p.kind.isLoop = true) (hHolder : f.graph.Holder z x)
    (hOp : f.graph.op x = .ok o) (hInner : o.kind.isTerminator = false) :
    o.successors = []

/- The loops of a function can be counted with a word. -/
def Function.Countable (f : Function) : Prop :=
  ∃ loops : List OpId, loops.length < 2 ^ 32 ∧ ∀ {x o},
    f.graph.Reached f.body x → f.graph.op x = .ok o → o.kind.isLoop = true → x ∈ loops

/- Operands are seen where they are used, with exceptions. -/
def Function.SightedBut (f : Function) (except : ValueId → OpId → Prop) : Prop :=
  ∀ ⦃x o v⦄, f.graph.Reached f.body x → f.graph.op x = .ok o →
    v ∈ o.operands → f.graph.Sees v x ∨ except v x

namespace Perfection

/- A function in which a ladder is still to be sunk into a loop. -/
structure Underway (f : Function) (sunk tops loops : List OpId) (inner passage : OpId)
    (rungs : List Rung) : Prop where
  coherent : f.graph.Coherent
  shaped : f.Shaped
  plain : f.Plain
  countable : f.Countable
  reached : f.graph.Reached f.body inner
  /- Operations that are looked for later on. -/
  kept {x : OpId} (hMem : x ∈ tops) : f.graph.Reached f.body x
  below : f.graph.Inside passage inner
  /- The loops that are already between the ladder and the body. -/
  around {l : OpId} (hMem : l ∈ loops) :
    f.graph.Inside passage l ∧ f.graph.Inside l inner ∧
      ∃ o, f.graph.op l = .ok o ∧ o.kind.isLoop = true
  nodup : loops.Nodup
  passes : passage ∈ loops
  ladder : Ladder f.graph passage rungs
  listed {r : Rung} {s : OpId} (hMem : r ∈ rungs) (hSunk : s ∈ r.ops) : s ∈ sunk
  located {s : OpId} (hSunk : s ∈ sunk) : f.graph.Within inner s ∨ ∃ r ∈ rungs, s ∈ r.ops
  used {s x : OpId} {o : Operation} {v : ValueId}
    (hSunk : s ∈ sunk) (hResult : f.graph.IsResult v s)
    (hReached : f.graph.Reached f.body x) (hOp : f.graph.op x = .ok o) (hMem : v ∈ o.operands) :
    f.graph.Within inner x ∨ ∃ t ∈ sunk, f.graph.Inside t x

namespace Underway

variable {f : Function} {sunk tops loops : List OpId} {inner : OpId} {r : Rung}
  {rungs rest : List Rung}

section

variable (h : Underway f sunk tops loops inner passage rungs)

include h

theorem intact : f.graph.Intact :=
  Graph.intact_of_coherent h.coherent

theorem linked : f.graph.Linked f.body none :=
  h.shaped.linked_body h.intact

theorem reached_passage  :
    f.graph.Reached f.body passage := h.intact.reached_of_inside h.linked h.reached h.below

theorem reached_rung (hMem : r ∈ rungs) : f.graph.Reached f.body r.outer :=
  h.intact.reached_of_inside h.linked h.reached_passage (h.ladder.within hMem).inside

theorem ne_inner (hMem : r ∈ rungs) : r.outer ≠ inner :=
  h.intact.ne_of_within h.linked h.reached ((h.ladder.within hMem).trans h.below)

theorem ne_loop (hMem : r ∈ rungs) (hLoop : l ∈ loops) : r.outer ≠ l := by
  obtain ⟨hPassage, hInner, _⟩ := h.around hLoop
  exact h.intact.ne_of_within h.linked (h.intact.reached_of_inside h.linked h.reached hInner)
    ((h.ladder.within hMem).trans hPassage)

/- There are not more loops than can be counted. -/
theorem length_lt : loops.length < 2 ^ 32 := by
  obtain ⟨all, hFew, hAll⟩ := h.countable
  have hSubset : loops ⊆ all := by
    intro l hMem
    obtain ⟨_, hInner, o, hOp, hLoop⟩ := h.around hMem
    exact hAll (h.intact.reached_of_inside h.linked h.reached hInner) hOp hLoop
  exact (h.nodup.subperm hSubset).length_le.trans_lt hFew

/- The loop that is passed has no results. -/
theorem not_isResult (v : ValueId) : ¬f.graph.IsResult v passage := by
  intro hResult
  obtain ⟨_, _, o, hOp, hLoop⟩ := h.around h.passes
  have hMem := h.intact.mem_results hOp hResult
  rw [h.plain.quiet h.reached_passage hOp hLoop] at hMem
  cases hMem

theorem reached_sunk (hSunk : s ∈ sunk) : f.graph.Reached f.body s := by
  rcases h.located hSunk with hWithin | ⟨r, hMem, hIn⟩
  · exact hWithin.inside.reached h.reached
  · obtain ⟨z, b, blk, last, hBody, hOps⟩ := h.ladder.stands hMem
    refine .child (h.reached_rung hMem) (hBody.holder ?_)
    rw [hOps]
    rcases mem_append.mp hIn with hFront | hBack
    · simp [hFront]
    · simp [hBack]

end

/- Once nothing is left of a rung, the next one is reached. -/
theorem climb (h : Underway f sunk tops loops inner passage (r :: rest)) (hNone : r.ops = []) :
    Underway f sunk tops (loops ++ [r.outer]) inner r.outer rest where
  coherent := h.coherent
  shaped := h.shaped
  plain := h.plain
  countable := h.countable
  reached := h.reached
  kept := h.kept
  below := (h.ladder.within mem_cons_self).inside.trans h.below
  around {l} hMem := by
    have hWithin := h.ladder.within mem_cons_self
    rcases mem_append.mp hMem with hMem | hMem
    · obtain ⟨hPassage, hInner, hLoop⟩ := h.around hMem
      exact ⟨hWithin.inside.trans hPassage, hInner, hLoop⟩
    · obtain ⟨_, _, _, _, hBody, _⟩ := h.ladder.stands mem_cons_self
      obtain ⟨o, hOp, hLoop, _⟩ := hBody.op
      rw [mem_singleton.mp hMem]
      exact ⟨.self, hWithin.inside.trans h.below, o, hOp, hLoop⟩
  nodup := by
    refine h.nodup.append (nodup_singleton _) ?_
    rw [disjoint_singleton]
    intro hMem
    exact h.ne_loop mem_cons_self hMem rfl
  passes := mem_append_right _ (mem_singleton_self _)
  ladder := h.ladder.rest
  listed hMem hSunk := h.listed (mem_cons_of_mem _ hMem) hSunk
  located hSunk := by
    rcases h.located hSunk with hWithin | ⟨r', hMem, hIn⟩
    · exact .inl hWithin
    · rcases mem_cons.mp hMem with rfl | hMem
      · rw [hNone] at hIn
        cases hIn
      · exact .inr ⟨r', hMem, hIn⟩
  used := h.used

/- In the loop of a rung, results of the rung are used further inside. -/
theorem used_inside (h : Underway f sunk tops loops inner passage (r :: rest)) (hMem : s ∈ r.ops)
    (hResult : f.graph.IsResult v s) (hReached : f.graph.Reached f.body x)
    (hOp : f.graph.op x = .ok o) (hOperand : v ∈ o.operands) (hOuter : f.graph.Inside r.outer x) :
    f.graph.Within inner x ∨ ∃ t ∈ r.ops, f.graph.Inside t x := by
  rcases h.used (h.listed mem_cons_self hMem) hResult hReached hOp
    hOperand with hWithin | ⟨t, hSunk, hInside⟩
  · exact .inl hWithin
  rcases h.located hSunk with hWithin | ⟨r', hMem', hIn⟩
  · exact .inl (hWithin.trans hInside)
  rcases mem_cons.mp hMem' with rfl | hMem'
  · exact .inr ⟨t, hIn, hInside⟩
  · cases h.ladder with
    | rung _ hRest =>
      exact absurd hInside (hRest.not_inside h.intact h.linked hReached hOuter hMem' hIn)

end Underway

end Perfection

------
-- Moves
------

theorem filter_not_mem_middle {α : Type} [DecidableEq α] {xs ys zs : List α}
    (hNodup : (xs ++ (ys ++ zs)).Nodup) : (xs ++ (ys ++ zs)).filter (· ∉ ys) = xs ++ zs := by
  rw [nodup_append, nodup_append] at hNodup
  have hFirst : xs.filter (· ∉ ys) = xs := by
    refine filter_eq_self.mpr ?_
    intro x hMem
    simpa using fun hIn => hNodup.2.2 x hMem x (mem_append_left _ hIn) rfl
  have hLast : zs.filter (· ∉ ys) = zs := by
    refine filter_eq_self.mpr ?_
    intro z hMem
    simpa using fun hIn => hNodup.2.1.2.2 z hIn z hMem rfl
  have hMiddle : ys.filter (· ∉ ys) = [] := by
    rw [filter_eq_nil_iff]
    simp
  rw [filter_append, filter_append, hFirst, hMiddle, hLast, nil_append]

/- What comes before an element of the first part is there, too. -/
theorem mem_of_order {α : Type} {xs ys : List α} {s t : α} (hNodup : (xs ++ ys).Nodup)
    (hOrder : [s, t].Sublist (xs ++ ys)) (hMem : t ∈ xs) : s ∈ xs := by
  obtain ⟨l₁, l₂, hSplit, hFirst, hSecond⟩ := sublist_append_iff.mp hOrder
  cases l₁ with
  | nil =>
    rw [nil_append] at hSplit
    subst hSplit
    have hThere : t ∈ ys := hSecond.subset (by simp)
    exact absurd rfl ((nodup_append.mp hNodup).2.2 t hMem t hThere)
  | cons x l₁ =>
    rw [cons_append, List.cons.injEq] at hSplit
    rw [hSplit.1]
    exact hFirst.subset mem_cons_self

theorem Graph.LoopBody.unique {b : BlockId} {blk blk' : Block} (hFirst : g.LoopBody x b blk)
    (hSecond : g.LoopBody y b blk') : x = y := by
  cases hFirst.block.symm.trans hSecond.block
  obtain ⟨reg, hRegion, _, hParent⟩ := hFirst.region
  obtain ⟨reg', hRegion', _, hParent'⟩ := hSecond.region
  cases hRegion.symm.trans hRegion'
  exact Option.some.inj (hParent.symm.trans hParent')

namespace Perfection

variable {f : Function} {body : RegionId} {outer inner : OpId} {b home : BlockId} {blk blk' : Block}
  {ops sunk tops loops : List OpId} {set : Affine.IntegerSet} {vars : List ValueId}
  {guard close : OpId} {branch : BlockId} {yes no : RegionId} {before after : List OpId} {r : Rung}
  {rest : List Rung}

namespace Lowered

variable
  (h : Lowered g g' body outer passage inner b home blk blk' ops set vars guard close branch yes no
    before after)

include h

/- The bodies of other loops stay as they are. -/
theorem loopBody_other {c : BlockId} {old : Block} (hBody : g.LoopBody x c old) (hOuter : x ≠ outer)
    (hInner : x ≠ inner) : g'.LoopBody x c old := by
  refine h.loopBody' hBody (h.behind.edited.block hBody.block ?_)
  rw [mem_cons, mem_singleton, not_or]
  constructor
  · rintro rfl
    exact hInner (hBody.unique h.target)
  · rintro rfl
    exact hOuter (hBody.unique h.source)

theorem stands' {r : Rung} (hStands : r.Stands g z) (hOuter : r.outer ≠ outer)
    (hInner : r.outer ≠ inner) : r.Stands g' z := by
  obtain ⟨c, old, last, hBody, hOps⟩ := hStands
  exact ⟨c, old, last, h.loopBody_other hBody hOuter hInner, hOps⟩

theorem ladder' {rungs : List Rung} (hLadder : Ladder g z rungs)
    (hOther : ∀ r ∈ rungs, r.outer ≠ outer ∧ r.outer ≠ inner) : Ladder g' z rungs := by
  refine hLadder.transfer ?_
  intro r hMem z hStands
  exact h.stands' hStands (hOther r hMem).1 (hOther r hMem).2

end Lowered

namespace Lowers

section

variable
  (h : Lowers f g' outer passage inner b home blk blk' ops set vars guard close branch yes no before
    after)

include h

theorem within' (hWithin : f.graph.Within z x) : g'.Within z x := by
  obtain ⟨w, hHolder, hInside⟩ := hWithin
  by_cases hMem : w ∈ ops
  · have hSource := h.source.holder (h.mem_source hMem)
    cases (h.intact.parentOp?_of_holder hHolder).symm.trans (h.intact.parentOp?_of_holder hSource)
    exact ⟨passage, h.holder_of_stays
      (h.source.holder h.between) h.stays,
      h.inside_passage_of_mem hMem hInside⟩
  · exact ⟨w, h.holder_of_stays hHolder hMem, h.inside hInside⟩

theorem within_inner (hMem : x ∈ ops) : g'.Within inner x := by
  obtain ⟨w, _, hInside, hHolder⟩ := h.lands hMem
  exact ⟨w, hHolder, hInside⟩

/- Loops are as they were. -/
theorem loop_cases (hReached : g'.Reached f.body x) (hOp : g'.op x = .ok o)
    (hLoop : o.kind.isLoop = true) :
    f.graph.Reached f.body x ∧
      ∃ old, f.graph.op x = .ok old ∧ ∃ q, o = { old with parent := q } := by
  rcases h.reached_cases hReached with hThere | rfl | rfl
  · obtain ⟨old, hOld⟩ := h.intact.op_of_reached hThere
    obtain ⟨q, hOp'⟩ := h.behind.edited.moves hOld
    cases hOp.symm.trans hOp'
    exact ⟨hThere, old, hOld, q, rfl⟩
  · cases hOp.symm.trans h.behind.guardOp
    cases hLoop
  · cases hOp.symm.trans h.behind.closeOp
    cases hLoop

theorem plain' (hPlain : f.Plain) : Function.Plain { f with graph := g' } where
  quiet hReached hOp hLoop := by
    obtain ⟨hThere, old, hOld, q, rfl⟩ := h.loop_cases hReached hOp hLoop
    have hNone := hPlain.quiet hThere hOld hLoop
    exact hNone
  straight {z x p o} hReached hOuter hLoop hHolder hOp hInner := by
    obtain ⟨hThere, old, hOld, q, rfl⟩ := h.loop_cases hReached hOuter hLoop
    obtain ⟨p', r, c, hOuter', hHeld, hLists⟩ := hHolder
    cases hOuter.symm.trans hOuter'
    obtain ⟨reg, hRegion, _⟩ := h.intact.held hOld hHeld
    rcases h.lists_old hRegion hLists with hSame | hMoved | rfl
    · obtain ⟨blk₁, hBlock, hIn⟩ := hSame.block
      obtain ⟨o', hOp', _⟩ := h.intact.placed hBlock hIn
      obtain ⟨q', hMoved⟩ := h.behind.edited.moves hOp'
      cases hOp.symm.trans hMoved
      have hNone := hPlain.straight hThere hOld hLoop ⟨old, r, c, hOld, hHeld, hSame⟩ hOp' hInner
      exact hNone
    · exact h.successors_of_mem hMoved hOp
    · cases hOp.symm.trans h.behind.guardOp
      rfl

theorem countable' (hCountable : f.Countable) : Function.Countable { f with graph := g' } := by
  obtain ⟨loops, hFew, hAll⟩ := hCountable
  refine ⟨loops, hFew, ?_⟩
  intro x o hReached hOp hLoop
  obtain ⟨hThere, old, hOld, q, rfl⟩ := h.loop_cases hReached hOp hLoop
  have hListed := hAll hThere hOld hLoop
  exact hListed

end

section

variable
  (h : Lowers f g' r.outer passage inner b home blk blk' ops set vars guard close branch yes no
    before after) (hUnder : Underway f sunk tops loops inner passage (r :: rest))

include h hUnder

/- A ladder stays one while the statements of a rung are moved. -/
theorem underway' {r' : Rung} (hCoherent : g'.Coherent) (hOuter : r'.outer = r.outer)
    (hStands : r'.Stands g' passage) (hSplit : ∀ s, s ∈ r.ops ↔ s ∈ ops ∨ s ∈ r'.ops) :
    Underway { f with graph := g' } sunk tops loops inner passage (r' :: rest) where
  coherent := hCoherent
  shaped := h.shaped'
  plain := h.plain' hUnder.plain
  countable := h.countable' hUnder.countable
  reached := h.reached' hUnder.reached
  kept hMem := h.reached' (hUnder.kept hMem)
  below := h.inside hUnder.below
  around hMem := by
    obtain ⟨hPassage, hInner, o, hOp, hLoop⟩ := hUnder.around hMem
    obtain ⟨q, hOp'⟩ := h.behind.edited.moves hOp
    exact ⟨h.inside hPassage, h.inside hInner, _, hOp', hLoop⟩
  nodup := hUnder.nodup
  passes := hUnder.passes
  ladder := by
    cases hUnder.ladder with
    | rung hOld hRest =>
      refine .rung hStands (hOuter ▸ h.ladder' hRest ?_)
      intro q hMem
      refine ⟨?_, hUnder.ne_inner (mem_cons_of_mem _ hMem)⟩
      exact hUnder.intact.ne_of_within hUnder.linked
        (hUnder.reached_rung mem_cons_self) (hRest.within hMem)
  listed hMem hSunk := by
    rcases mem_cons.mp hMem with rfl | hMem
    · exact hUnder.listed mem_cons_self ((hSplit _).mpr (.inr hSunk))
    · exact hUnder.listed (mem_cons_of_mem _ hMem) hSunk
  located hSunk := by
    rcases hUnder.located hSunk with hWithin | ⟨q, hMem, hIn⟩
    · exact .inl (h.within' hWithin)
    rcases mem_cons.mp hMem with rfl | hMem
    · rcases (hSplit _).mp hIn with hMoved | hLeft
      · exact .inl (h.within_inner hMoved)
      · exact .inr ⟨r', mem_cons_self, hLeft⟩
    · exact .inr ⟨q, mem_cons_of_mem _ hMem, hIn⟩
  used {s x o v} hSunk hResult hReached hOp hMem := by
    rcases h.reached_cases hReached with hThere | rfl | rfl
    · obtain ⟨old, hOld⟩ := h.intact.op_of_reached hThere
      obtain ⟨q, hMoved⟩ := h.behind.edited.moves hOld
      cases hOp.symm.trans hMoved
      obtain ⟨_, hLive⟩ := h.intact.op_of_reached (hUnder.reached_sunk hSunk)
      have hBefore := h.behind.edited.isResult_of_op h.intact h.intact' hLive hResult
      have hUse := hUnder.used hSunk hBefore hThere hOld hMem
      rcases hUse with hWithin | ⟨t, hIn, hInside⟩
      · exact .inl (h.within' hWithin)
      · exact .inr ⟨t, hIn, h.inside hInside⟩
    · exact .inl h.holder_guard.within
    · cases hOp.symm.trans h.behind.closeOp
      cases hMem

end

end Lowers

------
-- Sight
------

/-
  Results of the statements in front of a loop are used by those
  behind it.
-/
def Pending (g : Graph) (front back : List OpId) (v : ValueId) (x : OpId) : Prop :=
  (∃ a ∈ front, g.IsResult v a) ∧ ∃ z ∈ back, g.Inside z x

/- Values are variables of loops around another one. -/
def Counts (g : Graph) (inner : OpId) (vars : List ValueId) : Prop :=
  ∀ v ∈ vars, ∃ l c blk, g.LoopBody l c blk ∧ g.Inside l inner ∧ g.IsArgument v c

namespace Lowers

section Guards

variable
  (h : Lowers f g' outer passage inner b home blk blk' ops set vars guard close branch yes no before
    after)

include h

theorem counts' {vars' : List ValueId}
    (hCounts : Counts f.graph inner vars') : Counts g' inner vars' := by
  intro v hMem
  obtain ⟨l, c, old, hBody, hInside, hArgument⟩ := hCounts v hMem
  obtain ⟨now, hNow, _⟩ := h.block hBody.block
  exact ⟨l, c, _, h.loopBody' hBody hNow, h.inside hInside,
    h.behind.edited.isArgument h.intact h.intact' hArgument⟩

/- The guard sees the variables of the loops around it. -/
theorem sees_guard (hCounts : Counts f.graph inner vars) (hMem : v ∈ vars) : g'.Sees v guard := by
  obtain ⟨l, c, now, hBody, hInside, hArgument⟩ := h.counts' hCounts v hMem
  obtain ⟨w, hHolder, hThere⟩ := hInside.within_of_holder h.holder_guard
  exact ⟨w, hThere, .argument hArgument hBody.block (hBody.mem_of_holder hHolder) (.inl rfl)⟩

/- Operands are in sight if those of the old operations are. -/
theorem sightedBut' {except : ValueId → OpId → Prop} (hCounts : Counts f.graph inner vars)
    (hOld : ∀ {x o v}, f.graph.Reached f.body x → f.graph.op x = .ok
    o → v ∈ o.operands → g'.Sees v x ∨ except v x) : Function.SightedBut { f with graph := g' }
    except := by
  intro x o v hReached hOp hMem
  rcases h.reached_cases hReached with hThere | rfl | rfl
  · obtain ⟨old, hOp'⟩ := h.intact.op_of_reached hThere
    obtain ⟨q, hMoved⟩ := h.behind.edited.moves hOp'
    cases hOp.symm.trans hMoved
    have hSees := hOld hThere hOp' hMem
    exact hSees
  · cases hOp.symm.trans h.behind.guardOp
    exact .inl (h.sees_guard hCounts hMem)
  · cases hOp.symm.trans h.behind.closeOp
    cases hMem

end Guards

section Halves

variable {last : OpId} {front : List OpId}

/-
  After the statements in front of a loop have moved, all but
  their results are in sight.
-/
theorem sightedBut_front
    (h : Lowers f g' r.outer passage inner b home blk blk' r.front set vars
      guard close branch yes no [] blk'.ops)
    (hUnder : Underway f sunk tops loops inner passage (r :: rest))
    (hOps : blk.ops = r.front ++ passage :: (r.back ++ [last]))
    (hCounts : Counts f.graph inner vars)
    (hSighted : f.Sighted) :
    Function.SightedBut { f with graph := g' } (Pending g' r.front r.back) := by
  refine h.sightedBut' hCounts ?_
  intro x o v hReached hOp hMem
  by_cases hPending : Pending f.graph r.front r.back v x
  · obtain ⟨⟨a, hFront, hResult⟩, z, hBack, hInside⟩ := hPending
    exact .inr ⟨⟨a, hFront, h.behind.edited.isResult h.intact h.intact' hResult⟩,
      z, hBack, h.inside hInside⟩
  refine .inl (h.sees hUnder.not_isResult ?_ ?_ hReached (hSighted hReached hOp hMem))
  · intro a z hOrder hFront
    have hNodup := h.intact.nodup_ops h.source.block
    rw [hOps] at hOrder hNodup
    exact .inl (mem_of_order hNodup hOrder hFront)
  · intro hOuter a hFront hResult
    rcases hUnder.used_inside (mem_append_left _ hFront) hResult hReached hOp
      hMem hOuter with ⟨w, hHolder, hInside⟩ | ⟨t, hIn, hInside⟩
    · exact .inr (.inl ⟨w, h.target.mem_of_holder hHolder, hInside⟩)
    rcases mem_append.mp hIn with hIn | hIn
    · exact .inl ⟨t, hIn, hInside⟩
    · exact absurd ⟨⟨a, hFront, hResult⟩, t, hIn, hInside⟩ hPending

/- After the statements behind the loop have moved, too, all is in sight. -/
theorem sighted_back
    (h : Lowers f g' r.outer passage inner b home blk blk' r.back set vars
      guard close branch yes no before after)
    (hUnder : Underway f sunk tops loops inner passage (r :: rest))
    (hOps : blk.ops = passage :: (r.back ++ [last]))
    (hNone : r.front = [])
    (hFront : ∀ a ∈ front, f.graph.hasResults a = true → a ∈ before)
    (hLive : ∀ a ∈ front, f.graph.Reached f.body a)
    (hCounts : Counts f.graph inner vars)
    (hSighted : f.SightedBut (Pending f.graph front r.back)) :
    Function.Sighted { f with graph := g' } := by
  have hNodup := h.intact.nodup_ops h.source.block
  rw [hOps] at hNodup
  have hAll : Function.SightedBut { f with graph := g' } fun _ _ => False := by
    refine h.sightedBut' hCounts ?_
    intro x o v hReached hOp hMem
    refine .inl ?_
    rcases hSighted hReached hOp hMem with hSees | ⟨⟨a, hIn, hResult⟩, z, hBack, hInside⟩
    · refine h.sees hUnder.not_isResult ?_ ?_ hReached hSees
      · intro a z hOrder hBack
        rw [hOps] at hOrder
        have hIn := mem_of_order (hNodup : ((passage :: r.back) ++ [last]).Nodup)
          hOrder (mem_cons_of_mem _ hBack)
        exact (mem_cons.mp hIn).symm
      · intro hOuter a hBack hResult
        rcases hUnder.used_inside (mem_append_right _ hBack) hResult hReached
          hOp hMem hOuter with hWithin | ⟨t, hIn, hInside⟩
        · refine .inr (.inr ⟨hUnder.below.trans hWithin.inside, ?_⟩)
          rw [hOps]
          intro hOrder
          have hIn := mem_of_order (hNodup : ([passage] ++ (r.back ++ [last])).Nodup) hOrder
            (mem_singleton_self passage)
          exact h.stays (mem_singleton.mp hIn ▸ hBack)
        · unfold Rung.ops at hIn
          rw [hNone, nil_append] at hIn
          exact .inl ⟨t, hIn, hInside⟩
    · -- the result comes before what has just moved
      obtain ⟨w, hLanded, hThere, _⟩ := h.lands hBack
      have hHere := hFront a hIn (h.hasResults_of_isResult (hLive a hIn) hResult)
      refine ⟨w, hThere.trans (h.inside hInside), .result
        (h.behind.edited.isResult h.intact h.intact' hResult) (.earlier h.landed ?_)⟩
      rw [append_cons (r.back.filter f.graph.hasResults)]
      have hBoth := (singleton_sublist.mpr hHere).append
        (singleton_sublist.mpr (mem_append_left after hLanded))
      exact hBoth
  intro x o v hReached hOp hMem
  rcases hAll hReached hOp hMem with hSees | hFalse
  · exact hSees
  · exact hFalse.elim

end Halves

end Lowers

end Perfection

end AffineIR
