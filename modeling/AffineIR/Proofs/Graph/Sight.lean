import AffineIR.Proofs.Flow.Regions
import AffineIR.Proofs.Graph.Histories
import AffineIR.Proofs.Graph.Lineages

/-
  Where values are seen.

  In an intact graph every operation of a body leads up through
  operations that are all different, so questions about what is
  around it are answered by what is inside what.  A value is
  seen by an operation if it is provided to it, or to one around
  it: by an operation before it in its block, by the block, or
  from a block that dominates the block.  This is what the
  dominance of values asks for.

  Main result: `Graph.Intact.valueDominates_iff`
-/

namespace AffineIR

open Answer List

variable {blk blk' : Block}

namespace Graph

variable {g : Graph} {x y z a : OpId} {b c : BlockId} {body r r' : RegionId} {v : ValueId}
  {val : Value} {k : Nat} {ls : List OpId}

------
-- Places
------

theorem Sits.unique (hFirst : g.Sits x b r) (hSecond : g.Sits x c r') : b = c ∧ r = r' := by
  obtain ⟨o, hOp, hParent⟩ := hFirst.op
  obtain ⟨o', hOp', hParent'⟩ := hSecond.op
  cases hOp.symm.trans hOp'
  cases hParent.symm.trans hParent'
  obtain ⟨blk, hBlock, hHome, _⟩ := hFirst.block
  obtain ⟨blk', hBlock', hHome', _⟩ := hSecond.block
  cases hBlock.symm.trans hBlock'
  exact ⟨rfl, hHome.symm.trans hHome'⟩

namespace Intact

section

variable (hIntact : g.Intact)

include hIntact

/- A block is listed by the region that it names. -/
theorem home (hBlock : g.block b = .ok blk) :
    ∃ reg, g.region blk.parent = .ok reg ∧ b ∈ reg.blocks := by
  obtain ⟨reg, hRegion, hOnce⟩ := hIntact.block hBlock
  exact ⟨reg, hRegion, count_pos_iff.mp (by omega)⟩

/- What a block lists sits there. -/
theorem sits_of_mem (hBlock : g.block b = .ok blk)
    (hMem : x ∈ blk.ops) : g.Sits x b blk.parent :=
  ⟨hIntact.placed hBlock hMem, ⟨blk, hBlock, rfl, hMem⟩, hIntact.home hBlock⟩

/- An operation that names a region sits there. -/
theorem exists_sits (hRegion : g.parentRegion x = .ok r) : ∃ b, g.Sits x b r := by
  obtain ⟨b, hParent, hRest⟩ := bind_eq_ok.mp hRegion
  obtain ⟨blk, hBlock, hPure⟩ := bind_eq_ok.mp hRest
  cases hPure
  obtain ⟨o, hOp, hParent⟩ := bind_eq_ok.mp hParent
  split at hParent
  next c hPlace =>
    cases hParent
    obtain ⟨blk', hBlock', hOnce⟩ := ((hIntact.place hOp).mp hPlace).1
    cases hBlock.symm.trans hBlock'
    exact ⟨b, hIntact.sits_of_mem hBlock (count_pos_iff.mp (by omega))⟩
  next => cases hParent

theorem nodup_ops (hBlock : g.block b = .ok blk) : blk.ops.Nodup := by
  refine nodup_iff_count_eq_one.mpr fun x hMem => ?_
  obtain ⟨o, hOp, hPlace⟩ := hIntact.placed hBlock hMem
  obtain ⟨blk', hBlock', hOnce⟩ := ((hIntact.place hOp).mp hPlace).1
  cases hBlock.symm.trans hBlock'
  exact hOnce

/- An operation stands at one place only. -/
theorem place_unique {i j : Nat} (hBlock : g.block b = .ok blk) (hAt : blk.ops[i]? = some x)
    (hBlock' : g.block c = .ok blk') (hAt' : blk'.ops[j]? = some x) : b = c ∧ i = j := by
  have hSits := hIntact.sits_of_mem hBlock (mem_of_getElem? hAt)
  have hSits' := hIntact.sits_of_mem hBlock' (mem_of_getElem? hAt')
  obtain ⟨rfl, _⟩ := hSits.unique hSits'
  cases hBlock.symm.trans hBlock'
  have hNodup := hIntact.nodup_ops hBlock
  exact ⟨rfl, (idxOf_of_getElem? hNodup hAt).symm.trans (idxOf_of_getElem? hNodup hAt')⟩

/- Regions are linked to what they list. -/
theorem linked {reg : Region} (hRegion : g.region r = .ok reg) : g.Linked r reg.parent where
  region := ⟨reg, hRegion, rfl⟩
  block hRegion' hMem := hIntact.listed hRegion' hMem
  op hLists := by
    obtain ⟨blk, hBlock, hIn⟩ := hLists.block
    exact hIntact.placed hBlock hIn

theorem linkedIn (z : OpId) : g.LinkedIn z := by
  intro o r hOp hMem
  obtain ⟨reg, hRegion, hParent⟩ := hIntact.held hOp hMem
  rw [← hParent]
  exact hIntact.linked hRegion

theorem op_of_reached (hReached : g.Reached body x) : ∃ o, g.op x = .ok o := by
  have hListed {r : RegionId} {b : BlockId} (hLists : g.Lists r b x) : ∃ o, g.op x = .ok o := by
    obtain ⟨blk, hBlock, hIn⟩ := hLists.block
    obtain ⟨o, hOp, _⟩ := hIntact.placed hBlock hIn
    exact ⟨o, hOp⟩
  cases hReached with
  | top hLists => exact hListed hLists
  | child _ hHolder =>
    obtain ⟨_, _, _, _, _, hLists⟩ := hHolder
    exact hListed hLists

/- What is said to be around an operation holds it. -/
theorem holder_of_parentOp? (hParent : g.parentOp? x = .ok (some z)) : g.Holder z x := by
  obtain ⟨r, hRegion, hRest⟩ := bind_eq_ok.mp hParent
  obtain ⟨reg, hReg, hHolder⟩ := bind_eq_ok.mp hRest
  obtain ⟨o, hOp, hOnce⟩ := hIntact.region hReg (pure_eq_ok.mp hHolder)
  obtain ⟨b, hSits⟩ := hIntact.exists_sits hRegion
  exact ⟨o, r, b, hOp, count_pos_iff.mp (by omega), hSits.lists⟩

theorem parentOp?_of_holder (hHolder : g.Holder z x) : g.parentOp? x = .ok (some z) :=
  hHolder.parentOp? (hIntact.linkedIn z)

end

end Intact

------
-- Operations around others
------

/- An operation is in a region of another one, at any depth. -/
def Within (g : Graph) (z x : OpId) : Prop := ∃ w, g.Holder z w ∧ g.Inside w x

theorem Holder.within (hHolder : g.Holder z x) : g.Within z x := ⟨x, hHolder, .self⟩

theorem Within.inside (hWithin : g.Within z x) : g.Inside z x := by
  obtain ⟨w, hHolder, hInside⟩ := hWithin
  exact (Graph.Inside.child .self hHolder).trans hInside

theorem Within.trans (hWithin : g.Within z y) (hInside : g.Inside y x) : g.Within z x := by
  obtain ⟨w, hHolder, hThere⟩ := hWithin
  exact ⟨w, hHolder, hThere.trans hInside⟩

theorem Inside.eq_or_within (hInside : g.Inside z x) : z = x ∨ g.Within z x := by
  induction hInside with
  | self => exact .inl rfl
  | child _ hHolder ih =>
    rcases ih with rfl | hWithin
    · exact .inr hHolder.within
    · exact .inr (hWithin.trans (.child .self hHolder))

theorem Inside.within_of_holder (hInside : g.Inside z x)
    (hHolder : g.Holder x y) : g.Within z y := by
  rcases hInside.eq_or_within with rfl | hWithin
  · exact hHolder.within
  · exact hWithin.trans (.child .self hHolder)

namespace Intact

/- The way up leads through what an operation is inside of. -/
theorem mem_rises_iff (hIntact : g.Intact) (hRises : g.Rises x ls) : z ∈ ls ↔ g.Inside z x := by
  constructor
  · intro hMem
    induction hRises with
    | top => exact mem_singleton.mp hMem ▸ .self
    | child hParent _ ih =>
      rcases mem_cons.mp hMem with rfl | hMem
      · exact .self
      · exact .child (ih hMem) (hIntact.holder_of_parentOp? hParent)
  · intro hInside
    induction hInside generalizing ls with
    | self =>
      obtain ⟨outer, rfl⟩ := hRises.head
      exact mem_cons_self
    | child _ hHolder ih =>
      have hParent := hIntact.parentOp?_of_holder hHolder
      cases hRises with
      | top hTop => cases hParent.symm.trans hTop
      | child hAround hOuter =>
        cases hParent.symm.trans hAround
        exact mem_cons_of_mem _ (ih hOuter)

variable (hIntact : g.Intact) (hBody : g.Linked body none)

include hIntact hBody

section

variable (hReached : g.Reached body x)

include hReached

/- The operations of a body lead up to the outside. -/
theorem rises_of_reached : ∃ ls, g.Rises x ls := by
  obtain ⟨ls, hRises, _⟩ := hReached.rises hBody fun z _ => hIntact.linkedIn z
  exact ⟨ls, hRises⟩

/- What is around an operation of a body is in the body, too. -/
theorem reached_of_inside (hInside : g.Inside z x) : g.Reached body z := by
  induction hInside with
  | self => exact hReached
  | child _ hHolder ih =>
    have hParent := hIntact.parentOp?_of_holder hHolder
    cases hReached with
    | top hLists => cases hParent.symm.trans (hBody.parentOp? hLists)
    | child hOuter hHolder' =>
      cases hParent.symm.trans (hIntact.parentOp?_of_holder hHolder')
      exact ih hOuter

theorem isAncestor_iff : g.isAncestor z x = .ok true ↔ g.Inside z x := by
  obtain ⟨ls, hRises⟩ := hIntact.rises_of_reached hBody hReached
  rw [hRises.isAncestor_iff, hIntact.mem_rises_iff hRises]

/- Operations of one region have nothing in common. -/
theorem eq_of_inside {s t : OpId} (hFirst : g.Inside s x) (hSecond : g.Inside t x)
    (hSits : g.Sits s b r) (hSits' : g.Sits t c r) : s = t := by
  obtain ⟨ls, hRises⟩ := hIntact.rises_of_reached hBody hReached
  refine hRises.eq_of_parentOp? ((hIntact.mem_rises_iff hRises).mpr hFirst)
    ((hIntact.mem_rises_iff hRises).mpr hSecond) ?_
  unfold parentOp?
  rw [hSits.parentRegion, hSits'.parentRegion]

/- Nothing is within itself. -/
theorem ne_of_within (hWithin : g.Within z x) : z ≠ x := by
  rintro rfl
  obtain ⟨w, hHolder, hInside⟩ := hWithin
  obtain ⟨ls, hRises⟩ := hIntact.rises_of_reached hBody hReached
  obtain ⟨between, ls', rfl, hHere⟩ := hRises.of_mem ((hIntact.mem_rises_iff hRises).mpr hInside)
  have hAgain := hHere.unique (.child (hIntact.parentOp?_of_holder hHolder) hRises)
  have hLength := congrArg List.length hAgain
  simp at hLength
  omega

theorem inside_antisymm (hFirst : g.Inside z x) (hSecond : g.Inside x z) : z = x := by
  rcases hFirst.eq_or_within with hSame | hWithin
  · exact hSame
  · exact absurd rfl (hIntact.ne_of_within hBody
      (hIntact.reached_of_inside hBody hReached hFirst) (hWithin.trans hSecond))

end

/- The ancestor of an operation in a region is what is around it there. -/
theorem ancestorInRegion (r : RegionId) (hReached : g.Reached body y) :
    ∃ lifted, g.ancestorInRegion? r y = .ok lifted ∧
      ∀ z, lifted = some z ↔ g.Inside z y ∧ ∃ c, g.Sits z c r := by
  obtain ⟨ls, hRises⟩ := hIntact.rises_of_reached hBody hReached
  obtain ⟨lifted, hLifted, hOnly⟩ := hRises.ancestorInRegion
  refine ⟨lifted, hLifted, fun z => ?_⟩
  rw [hOnly z, hIntact.mem_rises_iff hRises]
  exact and_congr_right fun _ => ⟨hIntact.exists_sits, fun ⟨_, hSits⟩ => hSits.parentRegion⟩

end Intact

------
-- Values
------

theorem Intact.mem_results {o : Operation} (hIntact : g.Intact) (hOp : g.op x = .ok o)
    (hResult : g.IsResult v x) : v ∈ o.results := by
  obtain ⟨val, i, hValue, hDefiner⟩ := hResult
  have hPlace := hIntact.definer hValue
  rw [hDefiner] at hPlace
  obtain ⟨o', hOp', hAt⟩ := hPlace
  cases hOp.symm.trans hOp'
  exact mem_of_getElem? hAt

theorem Intact.mem_args (hIntact : g.Intact) (hBlock : g.block b = .ok blk)
    (hArgument : g.IsArgument v b) : v ∈ blk.args := by
  obtain ⟨val, i, hValue, hDefiner⟩ := hArgument
  have hPlace := hIntact.definer hValue
  rw [hDefiner] at hPlace
  obtain ⟨blk', hBlock', hAt⟩ := hPlace
  cases hBlock.symm.trans hBlock'
  exact mem_of_getElem? hAt

/- An operation stands before another one of its region. -/
inductive Leading (g : Graph) (a z : OpId) : Prop
  | earlier {b : BlockId} {blk : Block} (hBlock : g.block b = .ok blk)
      (hOrder : [a, z].Sublist blk.ops)
  | above {b c : BlockId} {blk blk' : Block} (hBlock : g.block b = .ok blk) (hMem : a ∈ blk.ops)
      (hAbove : g.Above b c) (hBlock' : g.block c = .ok blk') (hMem' : z ∈ blk'.ops)

/- A value is defined before an operation in its region. -/
inductive Provides (g : Graph) (v : ValueId) (z : OpId) : Prop
  | result {a : OpId} (hResult : g.IsResult v a) (hLeading : g.Leading a z)
  | argument {b c : BlockId} {blk : Block} (hArgument : g.IsArgument v b)
      (hBlock : g.block c = .ok blk) (hMem : z ∈ blk.ops) (hOrder : c = b ∨ g.Above b c)

/- A value is provided to an operation or to one around it. -/
def Sees (g : Graph) (v : ValueId) (x : OpId) : Prop := ∃ z, g.Inside z x ∧ g.Provides v z

theorem pair_sublist_iff {α : Type} {xs : List α} {s t : α} :
    [s, t].Sublist xs ↔ ∃ i k : Nat, xs[i]? = some s ∧ xs[k]? = some t ∧ i < k := by
  rw [cons_sublist_iff]
  simp only [singleton_sublist]
  constructor
  · rintro ⟨front, back, rfl, hFirst, hSecond⟩
    obtain ⟨i, hAt⟩ := List.getElem?_of_mem hFirst
    obtain ⟨j, hAt'⟩ := List.getElem?_of_mem hSecond
    have hLess := (List.getElem?_eq_some_iff.mp hAt).1
    refine ⟨i, front.length + j, ?_, ?_, by omega⟩
    · rw [List.getElem?_append_left hLess, hAt]
    · rw [List.getElem?_append_right (by omega), Nat.add_sub_cancel_left, hAt']
  · rintro ⟨i, k, hAt, hAt', hLess⟩
    refine ⟨xs.take k, xs.drop k, (take_append_drop k xs).symm, ?_, ?_⟩
    · apply mem_of_getElem? (i := i)
      rw [List.getElem?_take_of_lt hLess, hAt]
    · apply mem_of_getElem? (i := 0)
      rw [List.getElem?_drop, Nat.add_zero, hAt']

------
-- Dominance
------

theorem Sees.value (hSees : g.Sees v y) : ∃ val, g.value v = .ok val := by
  obtain ⟨_, _, ⟨⟨val, _, hValue, _⟩, _⟩ | ⟨⟨val, _, hValue, _⟩, _⟩⟩ := hSees <;>
    exact ⟨val, hValue⟩

theorem sees_iff_of_result (hValue : g.value v = .ok val) (hDefiner : val.definer = .result a k) :
    g.Sees v y ↔ ∃ z, g.Inside z y ∧ g.Leading a z := by
  refine exists_congr fun z => and_congr_right fun _ => ⟨?_, .result ⟨val, k, hValue, hDefiner⟩⟩
  rintro (⟨⟨_, _, hValue', hDefiner'⟩, hLeading⟩ | ⟨⟨_, _, hValue', hDefiner'⟩, _⟩) <;>
    cases hValue.symm.trans hValue' <;> cases hDefiner.symm.trans hDefiner'
  exact hLeading

theorem sees_iff_of_argument (hValue : g.value v = .ok val)
    (hDefiner : val.definer = .argument b k) :
    g.Sees v y ↔
      ∃ z, g.Inside z y ∧ ∃ c blk, g.block c = .ok blk ∧ z ∈ blk.ops ∧ (c = b ∨ g.Above b c) := by
  refine exists_congr fun z => and_congr_right fun _ => ⟨?_, ?_⟩
  · rintro (⟨⟨_, _, hValue', hDefiner'⟩, _⟩ | ⟨⟨_, _, hValue', hDefiner'⟩, hBlock, hMem, hOrder⟩) <;>
      cases hValue.symm.trans hValue' <;> cases hDefiner.symm.trans hDefiner'
    exact ⟨_, _, hBlock, hMem, hOrder⟩
  · rintro ⟨c, blk, hBlock, hMem, hOrder⟩
    exact .argument ⟨val, k, hValue, hDefiner⟩ hBlock hMem hOrder

theorem Leading.places (hLeading : g.Leading a z) (hIntact : g.Intact) :
    ∃ b c r blk, g.Sits a b r ∧ g.Sits z c r ∧ a ≠ z ∧ g.block b = .ok blk ∧
      (b = c ∧ [a, z].Sublist blk.ops ∨ b ≠ c ∧ g.Above b c) := by
  cases hLeading with
  | @earlier b blk hBlock hOrder =>
    have hNodup := hOrder.nodup (hIntact.nodup_ops hBlock)
    exact ⟨b, b, _, blk, hIntact.sits_of_mem hBlock (hOrder.subset (by simp)),
      hIntact.sits_of_mem hBlock (hOrder.subset (by simp)), by simpa using hNodup, hBlock,
      .inl ⟨rfl, hOrder⟩⟩
  | @above b c blk blk' hBlock hMem hAbove hBlock' hMem' =>
    obtain ⟨hOther, _, _, _, hFirst, hSecond, hSame, _⟩ := above_iff.mp hAbove
    cases hBlock.symm.trans hFirst
    cases hBlock'.symm.trans hSecond
    have hSits := hIntact.sits_of_mem hBlock hMem
    have hThere := hIntact.sits_of_mem hBlock' hMem'
    refine ⟨b, c, _, blk, hSits, hSame ▸ hThere, ?_, hBlock, .inr ⟨hOther, hAbove⟩⟩
    rintro rfl
    exact hOther (hSits.unique hThere).1

/- How two operations stand that sit in a region. -/
theorem Intact.leading_iff (hIntact : g.Intact) (hSits : g.Sits a b r) (hThere : g.Sits z c r)
    (hBlock : g.block b = .ok blk) :
    g.Leading a z ↔ b = c ∧ [a, z].Sublist blk.ops ∨ b ≠ c ∧ g.Above b c := by
  constructor
  · intro hLeading
    obtain ⟨_, _, _, _, hSits', hThere', _, hBlock', hOrder⟩ := hLeading.places hIntact
    obtain ⟨rfl, _⟩ := hSits.unique hSits'
    obtain ⟨rfl, _⟩ := hThere.unique hThere'
    cases hBlock.symm.trans hBlock'
    exact hOrder
  · rintro (⟨rfl, hOrder⟩ | ⟨_, hAbove⟩)
    · exact .earlier hBlock hOrder
    · obtain ⟨_, hHere, _, hMem⟩ := hSits.block
      obtain ⟨_, hBlock', _, hMem'⟩ := hThere.block
      exact .above hHere hMem hAbove hBlock' hMem'

/- Within a block the question is about positions. -/
theorem Intact.exists_isBefore (hIntact : g.Intact) (hSits : g.Sits a b r)
    (hThere : g.Sits z b r) :
    ∃ answer, g.isBefore a z = .ok answer ∧ (answer = true ↔ g.Leading a z) := by
  obtain ⟨blk, hBlock, _, _⟩ := hSits.block
  obtain ⟨i, hPosition, hAt⟩ := hSits.position hBlock
  obtain ⟨k, hPosition', hAt'⟩ := hThere.position hBlock
  refine ⟨decide (i < k), ?_, ?_⟩
  · unfold isBefore
    rw [hSits.parentBlock, hThere.parentBlock, hPosition, hPosition']
    simp only [bind, Except.bind, if_true]
    rfl
  rw [decide_eq_true_eq, hIntact.leading_iff hSits hThere hBlock, pair_sublist_iff]
  constructor
  · intro hLess
    exact .inl ⟨rfl, i, k, hAt, hAt', hLess⟩
  · rintro (⟨_, i', k', hHere, hThere, hLess⟩ | ⟨hApart, _⟩)
    · obtain ⟨_, rfl⟩ := hIntact.place_unique hBlock hAt hBlock hHere
      obtain ⟨_, rfl⟩ := hIntact.place_unique hBlock hAt' hBlock hThere
      exact hLess
    · exact absurd rfl hApart

/- The region of a block has a dominator tree. -/
theorem Intact.exists_tree (hIntact : g.Intact)
    (hBlock : g.block b = .ok blk) : ∃ t, RegionTree.ofRegion .forward g blk.parent = .ok t := by
  obtain ⟨reg, hRegion, hMem⟩ := hIntact.home hBlock
  have hSuccs : ∀ c ∈ reg.blocks, ∃ succs, g.blockSuccessors c = .ok succs := by
    intro c hIn
    obtain ⟨blk', hBlock', _⟩ := hIntact.listed hRegion hIn
    unfold blockSuccessors terminator? kind
    rw [hBlock', ok_bind]
    cases hLast : blk'.ops.getLast? with
    | none => exact ⟨_, rfl⟩
    | some last =>
      obtain ⟨o, hOp, _⟩ := hIntact.placed hBlock' (mem_of_getLast? hLast)
      simp only [hOp, ok_bind, pure_bind]
      split
      next hSome =>
        split at hSome
        · cases hSome
          exact ⟨_, by rw [hOp, ok_bind]; rfl⟩
        · cases hSome
      next => exact ⟨_, rfl⟩
  obtain ⟨fg, hFlow⟩ := FlowGraph.exists_ofRegion hRegion hSuccs
  obtain ⟨hBuilt, hInside⟩ := FlowGraph.inside_of_ofRegion hFlow (idxOf?_of_mem hMem)
  obtain ⟨t, hTree, _⟩ := DominatorTree.exists_ofGraph hBuilt hInside
  exact ⟨⟨reg.blocks, t⟩, bind_eq_ok.mpr ⟨_, hFlow, bind_eq_ok.mpr ⟨t, hTree, rfl⟩⟩⟩

/- Across blocks it is about the dominance of blocks. -/
theorem Intact.answers_blocks (hIntact : g.Intact) (hSits : g.Sits a b r) (hThere : g.Sits z c r)
    (hOther : b ≠ c) :
    ∃ answer, (g.blockProperlyDominates b c).runFresh .forward = .ok answer ∧
      (answer = true ↔ g.Leading a z) := by
  obtain ⟨blk, hBlock, hHome, _⟩ := hSits.block
  obtain ⟨blk', hBlock', hHome', _⟩ := hThere.block
  have hSame := hHome'.trans hHome.symm
  obtain ⟨t, hTree⟩ := hIntact.exists_tree hBlock
  refine ⟨_, DominanceQuery.runFresh_blockProperlyDominates hOther hBlock hBlock' hSame hTree, ?_⟩
  rw [hIntact.leading_iff hSits hThere hBlock, above_iff]
  simp [hOther, hBlock, hBlock', hSame, hTree]

/- What is found to dominate an operation is placed. -/
theorem Intact.sits_of_properlyDominatesOr {enclosing : Bool} {c c' : DominanceCache}
    (hIntact : g.Intact) (hRun : (g.properlyDominatesOr enclosing a y).run c = .ok (true, c')) :
    ∃ b r, g.Sits a b r := by
  unfold properlyDominatesOr at hRun
  split at hRun
  next => cases hRun
  next =>
    obtain ⟨r, _, hLift, _⟩ := run_bind_eq_ok.mp hRun
    obtain ⟨b, hSits⟩ := hIntact.exists_sits (run_lift_eq_ok.mp hLift).1
    exact ⟨b, r, hSits⟩

namespace Intact

variable (hIntact : g.Intact) (hBody : g.Linked body none)

include hIntact hBody

/-
  What the dominance of two operations says, whether or not an
  operation counts as dominating what is inside it.
-/
theorem answers_properlyDominatesOr (enclosing : Bool) (hSits : g.Sits a b r)
    (hReached : g.Reached body y) :
    ∃ answer, (g.properlyDominatesOr enclosing a y).Answers g answer ∧
      (answer = true ↔ a ≠ y ∧ ∃ z, g.Inside z y ∧ (enclosing = true ∧ a = z ∨ g.Leading a z)) := by
  suffices hFresh : ∃ answer, (g.properlyDominatesOr enclosing a y).runFresh .forward = .ok answer ∧
      (answer = true ↔ _) by
    obtain ⟨answer, hAsk, hMeans⟩ := hFresh
    exact ⟨answer, (DominanceQuery.Steady.properlyDominatesOr ..).answers hAsk, hMeans⟩
  unfold properlyDominatesOr
  by_cases hSelf : a = y
  · rw [if_pos hSelf]
    exact ⟨false, rfl, nofun, fun hOther => absurd hSelf hOther.1⟩
  rw [if_neg hSelf, DominanceQuery.runFresh_lift_bind hSits.parentRegion]
  obtain ⟨lifted, hLifted, hOnly⟩ := hIntact.ancestorInRegion hBody r hReached
  -- Only what is around the operation in the region is ordered with what is there.
  have hOrdered : (∃ z, g.Inside z y ∧ (enclosing = true ∧ a = z ∨ g.Leading a z)) ↔
      ∃ z, lifted = some z ∧ (enclosing = true ∧ a = z ∨ g.Leading a z) := by
    refine exists_congr fun z => ?_
    rw [hOnly z, and_assoc]
    refine and_congr_right fun _ => ⟨fun hOrder => ⟨?_, hOrder⟩, And.right⟩
    rcases hOrder with ⟨_, rfl⟩ | hLeading
    · exact ⟨b, hSits⟩
    · obtain ⟨_, c, _, _, hSits', hThere, _⟩ := hLeading.places hIntact
      obtain ⟨_, rfl⟩ := hSits.unique hSits'
      exact ⟨c, hThere⟩
  simp only [ne_eq, hSelf, not_false_eq_true, true_and, hOrdered,
    DominanceQuery.runFresh_lift_bind hLifted]
  cases lifted with
  | none => exact ⟨false, rfl, by simp⟩
  | some z =>
    obtain ⟨_, c, hThere⟩ := (hOnly z).mp rfl
    simp only [Option.some.injEq, exists_eq_left']
    by_cases hSame : z = a
    · subst hSame
      rw [if_pos rfl]
      refine ⟨enclosing, rfl, fun hTrue => .inl ⟨hTrue, rfl⟩, ?_⟩
      rintro (hTrue | hLeading)
      · exact hTrue.1
      · obtain ⟨_, _, _, _, _, _, hOther, _⟩ := hLeading.places hIntact
        exact absurd rfl hOther
    rw [if_neg hSame, DominanceQuery.runFresh_lift_bind hSits.parentBlock,
      DominanceQuery.runFresh_lift_bind hThere.parentBlock]
    simp only [Ne.symm hSame, and_false, false_or]
    by_cases hHere : b = c
    · subst hHere
      obtain ⟨answer, hBefore, hMeans⟩ := hIntact.exists_isBefore hSits hThere
      refine ⟨answer, ?_, hMeans⟩
      rw [if_pos rfl]
      exact map_eq_ok.mpr ⟨_, run_lift_eq_ok.mpr ⟨hBefore, rfl⟩, rfl⟩
    · rw [if_neg hHere]
      exact hIntact.answers_blocks hSits hThere hHere

theorem properlyDominates_iff (hReached : g.Reached body y) :
    (∃ q, (g.properlyDominatesOr false a y).run (.fresh .forward) =
      .ok (true, q)) ↔ ∃ z, g.Inside z y ∧ g.Leading a z := by
  constructor
  · rintro ⟨q, hRun⟩
    obtain ⟨b, r, hSits⟩ := hIntact.sits_of_properlyDominatesOr hRun
    rcases hIntact.answers_properlyDominatesOr hBody false hSits hReached with
      ⟨answer, hAnswers, hMeans⟩
    obtain ⟨_, z, hInside, hFalse | hLeading⟩ := hMeans.mp (hAnswers.unique (.fresh g) hRun).1
    · cases hFalse.1
    · exact ⟨z, hInside, hLeading⟩
  · rintro ⟨z, hInside, hLeading⟩
    obtain ⟨b, c, _, _, hSits, hThere, hNe, _⟩ := hLeading.places hIntact
    have hOther : a ≠ y := by
      rintro rfl
      exact hNe (hIntact.eq_of_inside hBody hReached .self hInside hSits hThere)
    rcases hIntact.answers_properlyDominatesOr hBody false hSits hReached with
      ⟨answer, hAnswers, hMeans⟩
    obtain ⟨q, _, hRun⟩ := hAnswers _ (.fresh g)
    rw [hMeans.mpr ⟨hOther, z, hInside, .inr hLeading⟩] at hRun
    exact ⟨q, hRun⟩

/- Arguments dominate what their block holds or dominates. -/
theorem run_argument_iff (hReached : g.Reached body y) (hValue : g.value v = .ok val)
    (hDefiner : val.definer = .argument b k) :
    (∃ q, (g.valueDominates v y).run (.fresh .forward) = .ok (true, q)) ↔
      ∃ z, g.Inside z y ∧ ∃ c blk, g.block c = .ok blk ∧ z ∈ blk.ops ∧ (c = b ∨ g.Above b c) := by
  have hPlace := hIntact.definer hValue
  rw [hDefiner] at hPlace
  obtain ⟨home, hHome, _⟩ := hPlace
  obtain ⟨lifted, hLifted, hOnly⟩ := hIntact.ancestorInRegion hBody home.parent hReached
  unfold valueDominates
  rw [run_lift_bind hValue, hDefiner]
  dsimp only
  rw [run_lift_bind hHome, run_lift_bind hLifted]
  constructor
  · rintro ⟨q, hRun⟩
    cases lifted with
    | none => cases hRun
    | some z =>
      obtain ⟨hInside, c, hThere⟩ := (hOnly z).mp rfl
      obtain ⟨blk, hBlock, _, hMem⟩ := hThere.block
      dsimp only at hRun
      rw [run_lift_bind hThere.parentBlock] at hRun
      refine ⟨z, hInside, c, blk, hBlock, hMem, ?_⟩
      split at hRun
      next hSame => exact .inl hSame
      next => exact .inr ⟨q, hRun⟩
  · rintro ⟨z, hInside, c, blk, hBlock, hMem, hOrder⟩
    have hSame : blk.parent = home.parent := by
      rcases hOrder with rfl | hAbove
      · cases hBlock.symm.trans hHome
        rfl
      · obtain ⟨_, _, _, _, hFirst, hSecond, hSame, _⟩ := above_iff.mp hAbove
        cases hBlock.symm.trans hSecond
        cases hHome.symm.trans hFirst
        exact hSame
    have hSits := hSame ▸ hIntact.sits_of_mem hBlock hMem
    cases (hOnly z).mpr ⟨hInside, c, hSits⟩
    dsimp only
    rw [run_lift_bind hSits.parentBlock]
    by_cases hHere : c = b
    · rw [if_pos hHere]
      exact ⟨_, rfl⟩
    · rw [if_neg hHere]
      exact hOrder.resolve_left hHere

/- Values dominate exactly the operations that see them. -/
theorem valueDominates_iff (hReached : g.Reached body y) :
    (∃ q, (g.valueDominates v y).run (.fresh .forward) = .ok (true, q)) ↔ g.Sees v y := by
  cases hValue : g.value v with
  | error fault =>
    refine ⟨?_, ?_⟩
    · rintro ⟨q, hRun⟩
      obtain ⟨_, _, hLift, _⟩ := run_bind_eq_ok.mp hRun
      cases hValue.symm.trans (run_lift_eq_ok.mp hLift).1
    · intro hSees
      obtain ⟨_, hOther⟩ := hSees.value
      cases hValue.symm.trans hOther
  | ok val =>
    cases hDefiner : val.definer with
    | result a k =>
      rw [sees_iff_of_result hValue hDefiner, ← hIntact.properlyDominates_iff hBody hReached]
      unfold valueDominates
      rw [run_lift_bind hValue, hDefiner]
    | argument b k =>
      rw [sees_iff_of_argument hValue hDefiner]
      exact hIntact.run_argument_iff hBody hReached hValue hDefiner

end Intact

end Graph

end AffineIR
