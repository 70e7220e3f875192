import AffineIR.Proofs.Graph.Sight

/-
  The order of dominance between operations.

  An operation governs another one if the latter, or something
  around it, is the operation or stands behind it in its region.
  On the operations of a body this is an order, in which those
  that govern one operation govern each other in one direction:
  of two operations around it the outer one is around whatever
  stands in the region of the inner one.

  Main result: `Graph.Intact.answers_dominates`
-/

namespace AffineIR

namespace Graph

variable {g : Graph} {a b c x y z : OpId} {p q s : BlockId} {body r : RegionId}

namespace Intact

variable (hIntact : g.Intact)

include hIntact

/- A question about blocks of one region is about strict dominance. -/
theorem above_iff_strictlyAbove {blk blk' : Block} (hBlock : g.block p = .ok blk)
    (hBlock' : g.block q = .ok blk')
    (hSame : blk'.parent = blk.parent) : g.Above p q ↔ g.StrictlyAbove blk.parent p q := by
  refine ⟨fun hAbove => hAbove.strictlyAbove hBlock, fun hStrict => ?_⟩
  obtain ⟨t, hTree⟩ := hIntact.exists_tree hBlock
  refine above_iff.mpr ⟨?_, blk, blk', t, hBlock, hBlock', hSame, hTree,
    (properlyDominates_iff_strictlyAbove hTree).mpr hStrict⟩
  rintro rfl
  obtain ⟨_, _, i, j, _, hFirst, hSecond, hNe, _⟩ := hStrict
  exact hNe (Option.some.inj (hFirst.symm.trans hSecond))

theorem above_trans (hFirst : g.Above p q) (hSecond : g.Above q s) : g.Above p s := by
  obtain ⟨_, blk, blk', _, hBlock, hBlock', hSame, _⟩ := above_iff.mp hFirst
  obtain ⟨_, _, blk₂, _, hHere, hBlock₂, hSame', _⟩ := above_iff.mp hSecond
  cases hBlock'.symm.trans hHere
  have hStrict := hSecond.strictlyAbove hBlock'
  rw [hSame] at hSame' hStrict
  exact (hIntact.above_iff_strictlyAbove hBlock hBlock₂ hSame').mpr
    ((hFirst.strictlyAbove hBlock).trans hStrict)

theorem above_comparable (hFirst : g.Above p s)
    (hSecond : g.Above q s) : p = q ∨ g.Above p q ∨ g.Above q p := by
  obtain ⟨_, blk, blk₂, _, hBlock, hBlock₂, hSame, _⟩ := above_iff.mp hFirst
  obtain ⟨_, blk', _, _, hBlock', hThere, hSame', _⟩ := above_iff.mp hSecond
  cases hBlock₂.symm.trans hThere
  have hParent : blk'.parent = blk.parent := hSame'.symm.trans hSame
  have hStrict := hSecond.strictlyAbove hBlock'
  rw [hParent] at hStrict
  rw [hIntact.above_iff_strictlyAbove hBlock hBlock' hParent,
    hIntact.above_iff_strictlyAbove hBlock' hBlock hParent.symm, hParent]
  exact (hFirst.strictlyAbove hBlock).comparable hStrict

end Intact

------
-- Operations of a region
------

theorem pair_sublist_trans {α : Type} [DecidableEq α] {xs : List α} {u v w : α} (hNodup : xs.Nodup)
    (hFirst : [u, v].Sublist xs) (hSecond : [v, w].Sublist xs) : [u, w].Sublist xs := by
  obtain ⟨i, j, hI, hJ, hLess⟩ := pair_sublist_iff.mp hFirst
  obtain ⟨j', k, hJ', hK, hLess'⟩ := pair_sublist_iff.mp hSecond
  cases (idxOf_of_getElem? hNodup hJ).symm.trans (idxOf_of_getElem? hNodup hJ')
  exact pair_sublist_iff.mpr ⟨i, k, hI, hK, hLess.trans hLess'⟩

theorem pair_sublist_total {α : Type} {xs : List α} {u v : α} (hFirst : u ∈ xs)
    (hSecond : v ∈ xs) : u = v ∨ [u, v].Sublist xs ∨ [v, u].Sublist xs := by
  obtain ⟨i, hI⟩ := List.getElem?_of_mem hFirst
  obtain ⟨k, hK⟩ := List.getElem?_of_mem hSecond
  rw [pair_sublist_iff, pair_sublist_iff]
  rcases Nat.lt_trichotomy i k with hLess | rfl | hLess
  · exact .inr (.inl ⟨i, k, hI, hK, hLess⟩)
  · exact .inl (Option.some.inj (hI.symm.trans hK))
  · exact .inr (.inr ⟨k, i, hK, hI, hLess⟩)

theorem Leading.trans (hFirst : g.Leading a b) (hSecond : g.Leading b c)
    (hIntact : g.Intact) : g.Leading a c := by
  obtain ⟨p, q, _, blk, hSits, hThere, _, hBlock, hOrder⟩ := hFirst.places hIntact
  obtain ⟨q', s, _, blk', hHere, hFar, _, hBlock', hOrder'⟩ := hSecond.places hIntact
  obtain ⟨rfl, rfl⟩ := hThere.unique hHere
  rw [hIntact.leading_iff hSits hFar hBlock]
  rcases hOrder with ⟨rfl, hOrder⟩ | ⟨hApart, hAbove⟩
  · cases hBlock.symm.trans hBlock'
    refine hOrder'.imp_left fun hHere => ⟨hHere.1, ?_⟩
    exact pair_sublist_trans (hIntact.nodup_ops hBlock) hOrder hHere.2
  · rcases hOrder' with ⟨rfl, _⟩ | ⟨_, hAbove'⟩
    · exact .inr ⟨hApart, hAbove⟩
    · have hFar := hIntact.above_trans hAbove hAbove'
      exact .inr ⟨(above_iff.mp hFar).1, hFar⟩

/- What stands before an operation in its region stands in a row. -/
theorem Leading.comparable (hFirst : g.Leading a c) (hSecond : g.Leading b c)
    (hIntact : g.Intact) : a = b ∨ g.Leading a b ∨ g.Leading b a := by
  obtain ⟨p, s, _, blk, hSits, hThere, _, hBlock, hOrder⟩ := hFirst.places hIntact
  obtain ⟨q, s', _, blk', hSits', hThere', _, hBlock', hOrder'⟩ := hSecond.places hIntact
  obtain ⟨rfl, rfl⟩ := hThere.unique hThere'
  rw [hIntact.leading_iff hSits hSits' hBlock, hIntact.leading_iff hSits' hSits hBlock']
  by_cases hHere : p = q
  · subst hHere
    obtain ⟨_, hBlock₁, _, hMem⟩ := hSits.block
    obtain ⟨_, hBlock₂, _, hMem'⟩ := hSits'.block
    cases hBlock.symm.trans hBlock'
    cases hBlock.symm.trans hBlock₁
    cases hBlock.symm.trans hBlock₂
    simpa using pair_sublist_total hMem hMem'
  have hRow : g.Above p q ∨ g.Above q p := by
    rcases hOrder with ⟨rfl, _⟩ | ⟨_, hAbove⟩
    · exact .inr (hOrder'.resolve_left fun hSame => hHere hSame.1.symm).2
    · rcases hOrder' with ⟨rfl, _⟩ | ⟨_, hAbove'⟩
      · exact .inl hAbove
      · exact (hIntact.above_comparable hAbove hAbove').resolve_left hHere
  exact .inr (hRow.imp (fun hAbove => .inr ⟨hHere, hAbove⟩)
    fun hAbove => .inr ⟨Ne.symm hHere, hAbove⟩)

/- An operation is another one of its region or stands before it. -/
def Heads (g : Graph) (a z : OpId) : Prop := a = z ∨ g.Leading a z

theorem Heads.trans (hFirst : g.Heads a b) (hSecond : g.Heads b c)
    (hIntact : g.Intact) : g.Heads a c := by
  rcases hFirst with rfl | hFirst
  · exact hSecond
  · rcases hSecond with rfl | hSecond
    · exact .inr hFirst
    · exact .inr (hFirst.trans hSecond hIntact)

theorem Heads.comparable (hFirst : g.Heads a c) (hSecond : g.Heads b c)
    (hIntact : g.Intact) : g.Heads a b ∨ g.Heads b a := by
  rcases hFirst with rfl | hFirst
  · exact .inr hSecond
  · rcases hSecond with rfl | hSecond
    · exact .inl (.inr hFirst)
    · rcases hFirst.comparable hSecond hIntact with hSame | hRow
      · exact .inl (.inl hSame)
      · exact hRow.imp .inr .inr

------
-- Operations at all depths
------

/- An operation covers another one or something around it. -/
def Governs (g : Graph) (a y : OpId) : Prop := ∃ z, g.Inside z y ∧ g.Heads a z

theorem Heads.governs (hHeads : g.Heads a y) : g.Governs a y := ⟨y, .self, hHeads⟩

namespace Intact

variable (hIntact : g.Intact)

include hIntact

/- What is around an operation is around all of its region. -/
theorem within_of_sits (hWithin : g.Within z x) (hSits : g.Sits x p r)
    (hSits' : g.Sits y q r) : g.Within z y := by
  have hHolder {w : OpId} (hHolder : g.Holder w x) : g.Holder w y := by
    apply hIntact.holder_of_parentOp?
    rw [← hIntact.parentOp?_of_holder hHolder]
    unfold parentOp?
    rw [hSits.parentRegion, hSits'.parentRegion]
  obtain ⟨w, hAround, hInside⟩ := hWithin
  cases hInside with
  | self => exact (hHolder hAround).within
  | child hOuter hInner => exact ⟨w, hAround, .child hOuter (hHolder hInner)⟩

theorem within_iff_of_heads (hHeads : g.Heads a y) : g.Within z a ↔ g.Within z y := by
  rcases hHeads with rfl | hLeading
  · rfl
  · obtain ⟨_, _, _, _, hSits, hSits', _⟩ := hLeading.places hIntact
    exact ⟨fun hWithin => hIntact.within_of_sits hWithin hSits hSits',
      fun hWithin => hIntact.within_of_sits hWithin hSits' hSits⟩

/- Of two operations around one, one is around the other. -/
theorem inside_comparable (hFirst : g.Inside x z)
    (hSecond : g.Inside y z) : g.Inside x y ∨ g.Inside y x := by
  induction hFirst with
  | self => exact .inr hSecond
  | child hOuter hHolder ih =>
    cases hSecond with
    | self => exact .inl (.child hOuter hHolder)
    | child hOuter' hHolder' =>
      cases (hIntact.parentOp?_of_holder hHolder).symm.trans (hIntact.parentOp?_of_holder hHolder')
      exact ih hOuter'

theorem governs_trans (hFirst : g.Governs a b) (hSecond : g.Governs b c) : g.Governs a c := by
  obtain ⟨z, hInside, hHeads⟩ := hFirst
  obtain ⟨w, hInside', hHeads'⟩ := hSecond
  rcases hInside.eq_or_within with rfl | hWithin
  · exact ⟨w, hInside', hHeads.trans hHeads' hIntact⟩
  · have hAround := (hIntact.within_iff_of_heads hHeads').mp hWithin
    exact ⟨z, (hAround.trans hInside').inside, hHeads⟩

theorem governs_comparable (hFirst : g.Governs a c)
    (hSecond : g.Governs b c) : g.Governs a b ∨ g.Governs b a := by
  obtain ⟨z, hInside, hHeads⟩ := hFirst
  obtain ⟨w, hInside', hHeads'⟩ := hSecond
  -- The outer one is around what stands in the region of the inner one.
  have hAround {a b z w : OpId} (hNested : g.Within z w) (hHeads : g.Heads a z)
      (hHeads' : g.Heads b w) : g.Governs a b :=
    ⟨z, ((hIntact.within_iff_of_heads hHeads').mpr hNested).inside, hHeads⟩
  rcases hIntact.inside_comparable hInside hInside' with hNested | hNested
  · rcases hNested.eq_or_within with rfl | hWithin
    · exact (hHeads.comparable hHeads' hIntact).imp Heads.governs Heads.governs
    · exact .inl (hAround hWithin hHeads hHeads')
  · rcases hNested.eq_or_within with rfl | hWithin
    · exact (hHeads.comparable hHeads' hIntact).imp Heads.governs Heads.governs
    · exact .inr (hAround hWithin hHeads' hHeads)

variable (hBody : g.Linked body none)

include hBody

/- Nothing covers what is around it. -/
theorem not_heads_of_within (hReached : g.Reached body a)
    (hWithin : g.Within z a) : ¬g.Heads a z := by
  intro hHeads
  have hSelf := (hIntact.within_iff_of_heads hHeads).mp hWithin
  exact hIntact.ne_of_within hBody
    (hIntact.reached_of_inside hBody hReached hWithin.inside) hSelf rfl

theorem governs_antisymm (hReached : g.Reached body a) (hReached' : g.Reached body b)
    (hFirst : g.Governs a b) (hSecond : g.Governs b a) : a = b := by
  obtain ⟨z, hInside, hHeads⟩ := hFirst
  obtain ⟨w, hInside', hHeads'⟩ := hSecond
  rcases hInside.eq_or_within with rfl | hWithin
  · rcases hInside'.eq_or_within with rfl | hWithin'
    · rcases hHeads with hSame | hLeading
      · exact hSame
      · rcases hHeads' with hSame | hLeading'
        · exact hSame.symm
        · obtain ⟨_, _, _, _, _, _, hNe, _⟩ := (hLeading.trans hLeading' hIntact).places hIntact
          exact absurd rfl hNe
    · exact absurd hHeads' (hIntact.not_heads_of_within hBody hReached'
        ((hIntact.within_iff_of_heads hHeads).mp hWithin'))
  · have hAround := (hIntact.within_iff_of_heads hHeads').mp hWithin
    exact absurd hHeads (hIntact.not_heads_of_within hBody hReached (hAround.trans hInside'))

/- What stands in a region with an operation of a body is in the body. -/
theorem reached_of_sits (hReached : g.Reached body x) (hSits : g.Sits x p r)
    (hSits' : g.Sits y q r) : g.Reached body y := by
  rcases hReached.place hBody (fun z _ => hIntact.linkedIn z) with
    ⟨_, _, _, hHere, _, ⟨rfl, _⟩ | ⟨z, _, hOuter, hHolder⟩⟩
  · obtain ⟨_, rfl⟩ := hSits.unique hHere
    exact .top hSits'.lists
  · obtain ⟨w, hHolder', hInside⟩ := hIntact.within_of_sits hHolder.within hSits hSits'
    exact hInside.reached (.child hOuter hHolder')

theorem reached_of_governs (hReached : g.Reached body y)
    (hGoverns : g.Governs a y) : g.Reached body a := by
  obtain ⟨z, hInside, hHeads⟩ := hGoverns
  have hAround := hIntact.reached_of_inside hBody hReached hInside
  rcases hHeads with rfl | hLeading
  · exact hAround
  · obtain ⟨_, _, _, _, hSits, hSits', _⟩ := hLeading.places hIntact
    exact hIntact.reached_of_sits hBody hAround hSits' hSits

/- What is found to dominate an operation governs it. -/
theorem governs_of_run {cache cache' : DominanceCache} (hReached : g.Reached body y)
    (hCurrent : cache.Current g)
    (hRun : (g.properlyDominates a y).run cache = .ok (true, cache')) : a ≠ y ∧ g.Governs a y := by
  obtain ⟨_, _, hSits⟩ := hIntact.sits_of_properlyDominatesOr hRun
  rcases hIntact.answers_properlyDominatesOr hBody true hSits hReached with
    ⟨answer, hAnswers, hMeans⟩
  obtain ⟨hOther, z, hInside, hOrder⟩ := hMeans.mp (hAnswers.unique hCurrent hRun).1
  exact ⟨hOther, z, hInside, hOrder.imp_left And.right⟩

/- What the dominance of two operations of a body says. -/
theorem answers_properlyDominates (hReached : g.Reached body a) (hReached' : g.Reached body b) :
    ∃ answer, (g.properlyDominates a b).Answers g answer ∧
      (answer = true ↔ a ≠ b ∧ g.Governs a b) := by
  obtain ⟨p, r, _, hSits, _⟩ := hReached.place hBody (fun z _ => hIntact.linkedIn z)
  rcases hIntact.answers_properlyDominatesOr hBody true hSits hReached' with
    ⟨answer, hAnswers, hMeans⟩
  refine ⟨answer, hAnswers, hMeans.trans ?_⟩
  simp [Governs, Heads]

theorem answers_dominates (hReached : g.Reached body a) (hReached' : g.Reached body b) :
    ∃ answer, (g.dominates a b).Answers g answer ∧ (answer = true ↔ g.Governs a b) := by
  unfold dominates
  split
  next hSame =>
    exact ⟨true, (DominanceQuery.Steady.pure true).answers rfl,
      fun _ => Heads.governs (.inl hSame), fun _ => rfl⟩
  next hOther =>
    rcases hIntact.answers_properlyDominates hBody hReached hReached' with
      ⟨answer, hAnswers, hMeans⟩
    exact ⟨answer, hAnswers, hMeans.trans (and_iff_right hOther)⟩

end Intact

end Graph

end AffineIR
