import AffineIR.Proofs.Graph.Blocks
import Mathlib.Data.List.Nodup
import Mathlib.Data.List.Perm.Subperm
import Mathlib.Order.Defs.Unbundled

/-
  What is around an operation.

  Going from operation to operation around it leads from an
  operation to the outermost one, through operations that are
  all different.  The lineage lists them, and the questions
  about ancestors are answered from this list.  So the answers
  agree: an ancestor in a region is found where the region
  encloses that of the operation, and there is only one.

  Main result: `Graph.Forest.ancestors_agree`
-/

namespace AffineIR

open Answer List

namespace Graph

variable {g : Graph} {a c x y z : OpId} {b : BlockId} {home r : RegionId} {ls ls' : List OpId}

------
-- Rising through the nesting
------

namespace Rises

theorem head (hRises : g.Rises x ls) : ∃ outer, ls = x :: outer := by
  cases hRises with
  | top => exact ⟨[], rfl⟩
  | child => exact ⟨_, rfl⟩

theorem self_mem (hRises : g.Rises x ls) : x ∈ ls := by
  obtain ⟨outer, rfl⟩ := hRises.head
  exact mem_cons_self

theorem of_mem (hRises : g.Rises x ls) (hMem : z ∈ ls) :
    ∃ inner ls', ls = inner ++ ls' ∧ g.Rises z ls' := by
  induction hRises with
  | @top x hParent =>
    cases mem_singleton.mp hMem
    exact ⟨[], [z], rfl, .top hParent⟩
  | @child x y ls hParent hOuter ih =>
    rcases mem_cons.mp hMem with rfl | hMem
    · exact ⟨[], z :: ls, rfl, .child hParent hOuter⟩
    · obtain ⟨inner, ls', rfl, hRest⟩ := ih hMem
      exact ⟨x :: inner, ls', rfl, hRest⟩

/- An ancestor inside another operation, on the way up. -/
theorem split (hRises : g.Rises x ls) (hMem : z ∈ ls) (hParent : g.parentOp? z = .ok (some c)) :
    ∃ inner ls', ls = inner ++ z :: ls' ∧ g.Rises c ls' := by
  obtain ⟨inner, ls', rfl, hHere⟩ := hRises.of_mem hMem
  cases hHere with
  | top hTop => cases hTop.symm.trans hParent
  | child hOuter hRest =>
    cases hOuter.symm.trans hParent
    exact ⟨inner, _, rfl, hRest⟩

/- No operation is met twice on the way up. -/
theorem nodup (hRises : g.Rises x ls) : ls.Nodup := by
  induction hRises with
  | top => exact nodup_singleton _
  | @child x z ls hParent hOuter ih =>
    refine nodup_cons.mpr ⟨?_, ih⟩
    intro hMem
    obtain ⟨inner, ls', rfl, hAgain⟩ := hOuter.of_mem hMem
    have hLength := congrArg List.length (hAgain.unique (.child hParent hOuter))
    simp at hLength
    omega

/- Operations on the way up have different ones around them. -/
theorem eq_of_parentOp? (hRises : g.Rises x ls) (hMem : y ∈ ls) (hMem' : z ∈ ls)
    (hSame : g.parentOp? y = g.parentOp? z) : y = z := by
  obtain ⟨inner, up, rfl, hY⟩ := hRises.of_mem hMem
  obtain ⟨inner', up', hSplit, hZ⟩ := hRises.of_mem hMem'
  have hOuter : ∃ outer, up = y :: outer ∧ up' = z :: outer := by
    cases hY with
    | top hTop =>
      cases hZ with
      | top => exact ⟨[], rfl, rfl⟩
      | child hParent => cases (hTop.symm.trans hSame).trans hParent
    | child hParent hUp =>
      cases hZ with
      | top hTop => cases (hParent.symm.trans hSame).trans hTop
      | child hParent' hUp' =>
        cases (hParent.symm.trans hSame).trans hParent'
        exact ⟨_, rfl, by rw [hUp.unique hUp']⟩
  obtain ⟨outer, rfl, rfl⟩ := hOuter
  exact (List.cons.inj (append_inj' hSplit rfl).2).1

theorem live (hRises : g.Rises x ls) (hMem : z ∈ ls) : ∃ o, g.op z = .ok o := by
  have hPlaced {y : OpId} {parent : Option OpId}
      (hParent : g.parentOp? y = .ok parent) : ∃ o, g.op y = .ok o := by
    obtain ⟨_, hRegion, _⟩ := bind_eq_ok.mp hParent
    obtain ⟨_, hBlock, _⟩ := bind_eq_ok.mp hRegion
    obtain ⟨o, hOp, _⟩ := bind_eq_ok.mp hBlock
    exact ⟨o, hOp⟩
  obtain ⟨_, _, _, hHere⟩ := hRises.of_mem hMem
  cases hHere with
  | top hParent => exact hPlaced hParent
  | child hParent => exact hPlaced hParent

end Rises

/- Distinct operations are no more than there are slots. -/
theorem length_le_of_nodup (hNodup : ls.Nodup)
    (hLive : ∀ z ∈ ls, ∃ o, g.op z = .ok o) : ls.length ≤ g.ops.slots.size := by
  have hInjective : Function.Injective fun z : OpId => z.index := by
    intro h k hEq
    cases h
    cases k
    cases hEq
    rfl
  have hIndices : (ls.map Handle.index).Nodup := hNodup.map hInjective
  have hSubset : ls.map Handle.index ⊆ List.range g.ops.slots.size := by
    intro i hMem
    obtain ⟨z, hIn, rfl⟩ := mem_map.mp hMem
    obtain ⟨o, hOp⟩ := hLive z hIn
    exact mem_range.mpr (Arena.index_lt_of_get? (Arena.get_eq_ok_iff.mp hOp))
  simpa using (hIndices.subperm hSubset).length_le

theorem Rises.length_le (hRises : g.Rises x ls) : ls.length ≤ g.ops.slots.size :=
  length_le_of_nodup hRises.nodup fun _ => hRises.live

------
-- Lineages
------

theorem site_eq_ok {s : Site} (hSite : g.site x = .ok s) :
    s.op = x ∧ g.parentBlock x = .ok s.block ∧ g.parentRegion x = .ok s.region := by
  obtain ⟨b, hBlock, hRest⟩ := bind_eq_ok.mp hSite
  obtain ⟨blk, hBlk, hPure⟩ := bind_eq_ok.mp hRest
  cases pure_eq_ok.mp hPure
  exact ⟨rfl, hBlock, bind_eq_ok.mpr ⟨b, hBlock, bind_eq_ok.mpr ⟨blk, hBlk, rfl⟩⟩⟩

/- The sites of operations, in which lineages are given. -/
theorem site_of_parentOp? {parent : Option OpId} (hParent : g.parentOp? x = .ok parent) :
    ∃ s reg, g.site x = .ok s ∧ s.op = x ∧ g.region s.region = .ok reg ∧ reg.parent = parent := by
  obtain ⟨r, hRegion, hRest⟩ := bind_eq_ok.mp hParent
  obtain ⟨reg, hReg, hEq⟩ := bind_eq_ok.mp hRest
  obtain ⟨b, hBlock, hRest⟩ := bind_eq_ok.mp hRegion
  obtain ⟨blk, hBlk, hPure⟩ := bind_eq_ok.mp hRest
  cases hPure
  cases hEq
  refine ⟨⟨x, b, blk.parent⟩, reg, ?_, rfl, hReg, rfl⟩
  exact bind_eq_ok.mpr ⟨b, hBlock, bind_eq_ok.mpr ⟨blk, hBlk, rfl⟩⟩

/- The lineage of an operation lists all the operations around it. -/
theorem lineageUpTo_of_rises {n : Nat} (hRises : g.Rises x ls) (hLevels : ls.length ≤ n) :
    ∃ sites, g.lineageUpTo n x = { sites := sites } ∧
      sites.map Site.op = ls ∧ ∀ s ∈ sites, g.site s.op = .ok s := by
  induction hRises generalizing n with
  | @top x hParent =>
    obtain ⟨s, reg, hSite, rfl, hRegion, hTop⟩ := site_of_parentOp? hParent
    cases n with
    | zero => simp at hLevels
    | succ n =>
      refine ⟨[s], ?_, rfl, forall_mem_singleton.mpr hSite⟩
      rw [lineageUpTo, hSite]
      simp only [hRegion, hTop]
  | @child x z ls hParent hOuter ih =>
    obtain ⟨s, reg, hSite, rfl, hRegion, hTop⟩ := site_of_parentOp? hParent
    cases n with
    | zero => simp at hLevels
    | succ n =>
      obtain ⟨sites, hLineage, hOps, hSites⟩ := ih (Nat.le_of_succ_le_succ hLevels)
      refine ⟨s :: sites, ?_, by rw [map_cons, hOps], forall_mem_cons.mpr ⟨hSite, hSites⟩⟩
      rw [lineageUpTo, hSite]
      simp only [hRegion, hTop, hLineage]

namespace Rises

variable (hRises : g.Rises x ls)

include hRises

theorem lineage : ∃ sites, g.lineage x = { sites := sites } ∧
    sites.map Site.op = ls ∧ ∀ s ∈ sites, g.site s.op = .ok s :=
  lineageUpTo_of_rises hRises (Nat.le_succ_of_le hRises.length_le)

theorem ops_lineage : (g.lineage x).ops = ls ∧ (g.lineage x).fault = none := by
  obtain ⟨sites, hEq, hOps, _⟩ := hRises.lineage
  rw [hEq]
  exact ⟨by simp [Lineage.ops, hOps], rfl⟩

/- Ancestors are what an operation rises through. -/
theorem isAncestor : g.isAncestor z x = .ok (decide (z ∈ ls)) := by
  obtain ⟨hOps, hFault⟩ := hRises.ops_lineage
  unfold Graph.isAncestor Lineage.atTop
  simp only [hOps, hFault]
  by_cases hMem : z ∈ ls
  · simp [hMem]
  · simp [hMem]

theorem isAncestor_iff : g.isAncestor z x = .ok true ↔ z ∈ ls := by
  rw [hRises.isAncestor, Except.ok.injEq, decide_eq_true_iff]

/-
  The operation at a place on the way up, where no two of them
  are at the same place.
-/
theorem find_site {κ : Type} [DecidableEq κ] {sites : List Site} {key : Site → κ} {k : κ}
    {place : OpId → Except Fault κ} (hOps : sites.map Site.op = ls)
    (hKey : ∀ s ∈ sites, place s.op = .ok (key s))
    (hParent : ∀ {y z}, place y = .ok k → place z = .ok k → g.parentOp? y = g.parentOp? z) :
    (sites.find? (key · = k)).map Site.op = some a ↔ a ∈ ls ∧ place a = .ok k := by
  have hFound {s : Site} (hFind : sites.find? (key · = k) = some s) :
      s.op ∈ ls ∧ place s.op = .ok k := by
    have hMem := mem_of_find?_eq_some hFind
    have hHere : key s = k := by simpa using find?_some hFind
    exact ⟨hOps ▸ mem_map_of_mem hMem, hHere ▸ hKey s hMem⟩
  constructor
  · intro hSome
    obtain ⟨s, hFind, rfl⟩ := Option.map_eq_some_iff.mp hSome
    exact hFound hFind
  · rintro ⟨hMem, hPlace⟩
    obtain ⟨s, hIn, rfl⟩ := mem_map.mp (hOps ▸ hMem)
    have hHere : key s = k := Except.ok.inj ((hKey s hIn).symm.trans hPlace)
    have hSome : (sites.find? (key · = k)).isSome := by
      rw [List.find?_isSome]
      exact ⟨s, hIn, decide_eq_true hHere⟩
    obtain ⟨t, hFind⟩ := Option.isSome_iff_exists.mp hSome
    obtain ⟨hMem', hPlace'⟩ := hFound hFind
    rw [hFind, Option.map_some, hRises.eq_of_parentOp? hMem' hMem (hParent hPlace' hPlace)]

/- The ancestor in a region is the one that stands there. -/
theorem ancestorInRegion : ∃ found, g.ancestorInRegion? r x = .ok found ∧
    ∀ a, found = some a ↔ a ∈ ls ∧ g.parentRegion a = .ok r := by
  obtain ⟨sites, hEq, hOps, hSites⟩ := hRises.lineage
  refine ⟨(sites.find? (·.region = r)).map Site.op, ?_, fun a => ?_⟩
  · unfold ancestorInRegion?
    simp only [hEq]
    cases sites.find? (·.region = r) <;> rfl
  · refine hRises.find_site hOps (fun s hMem => (site_eq_ok (hSites s hMem)).2.2) ?_
    intro y z hY hZ
    unfold parentOp?
    rw [hY, hZ]

/- The ancestor in a block is the one that stands there. -/
theorem ancestorInBlock : ∃ found, g.ancestorInBlock? b x = .ok found ∧
    ∀ a, found = some a ↔ a ∈ ls ∧ g.parentBlock a = .ok b := by
  obtain ⟨sites, hEq, hOps, hSites⟩ := hRises.lineage
  refine ⟨(sites.find? (·.block = b)).map Site.op, ?_, fun a => ?_⟩
  · unfold ancestorInBlock?
    simp only [hEq]
    cases sites.find? (·.block = b) <;> rfl
  · refine hRises.find_site hOps (fun s hMem => (site_eq_ok (hSites s hMem)).2.1) ?_
    intro y z hY hZ
    unfold parentOp? parentRegion
    rw [hY, hZ]

/- A region encloses that of an operation if it holds an ancestor. -/
theorem regionIsAncestor (hHome : g.parentRegion x = .ok home) :
    ∃ answer, g.regionIsAncestor r home = .ok answer ∧
      (answer = true ↔ ∃ a ∈ ls, g.parentRegion a = .ok r) := by
  have hAround {parent : Option OpId} (hParent : g.parentOp? x = .ok parent) :
      ∃ reg, g.region home = .ok reg ∧ reg.parent = parent := by
    obtain ⟨home', hHome', hRest⟩ := bind_eq_ok.mp hParent
    cases hHome.symm.trans hHome'
    obtain ⟨reg, hRegion, hPure⟩ := bind_eq_ok.mp hRest
    exact ⟨reg, hRegion, pure_eq_ok.mp hPure⟩
  by_cases hSame : r = home
  · subst hSame
    exact ⟨true, if_pos rfl, fun _ => ⟨x, hRises.self_mem, hHome⟩, fun _ => rfl⟩
  have hNotHere : g.parentRegion x ≠ .ok r := fun hHere =>
    hSame (Except.ok.inj (hHere.symm.trans hHome))
  unfold Graph.regionIsAncestor
  rw [if_neg hSame]
  cases hRises with
  | top hParent =>
    obtain ⟨reg, hRegion, hNone⟩ := hAround hParent
    refine ⟨false, bind_eq_ok.mpr ⟨reg, hRegion, by rw [hNone]; rfl⟩, ?_⟩
    simp [hNotHere]
  | child hParent hOuter =>
    obtain ⟨reg, hRegion, hSome⟩ := hAround hParent
    obtain ⟨sites, hEq, rfl, hSites⟩ := hOuter.lineage
    refine ⟨sites.any (·.region = r), bind_eq_ok.mpr ⟨reg, hRegion, ?_⟩, ?_⟩
    · simp only [hSome, hEq]
      cases sites.any (·.region = r) <;> rfl
    · have hRegions : ∀ s ∈ sites, g.parentRegion s.op = .ok s.region :=
        fun s hMem => (site_eq_ok (hSites s hMem)).2.2
      simp only [any_eq_true, decide_eq_true_eq, mem_cons, exists_eq_or_imp, hNotHere, false_or,
        mem_map, exists_exists_and_eq_and]
      refine exists_congr fun s => and_congr_right fun hMem => ?_
      rw [hRegions s hMem, Except.ok.injEq]

end Rises

------
-- Forests
------

/- An operation is in a block. -/
def Placed (g : Graph) (x : OpId) : Prop := ∃ b, g.parentBlock x = .ok b

/-
  Regions are nested as a forest: operations are placed in
  blocks of regions, what holds a region is placed itself, and
  going up comes to an end.
-/
structure Forest (g : Graph) : Prop where
  placed {x : OpId} {b : BlockId} (hPlace : g.parentBlock x = .ok b) :
    ∃ blk reg, g.block b = .ok blk ∧ g.region blk.parent = .ok reg ∧
      ∀ z, reg.parent = some z → g.Placed z
  ends : WellFounded fun z x => g.parentOp? x = .ok (some z)

theorem Forest.rises (hForest : g.Forest) (hPlaced : g.Placed x) : ∃ ls, g.Rises x ls := by
  induction x using hForest.ends.induction with
  | _ x ih =>
    obtain ⟨b, hPlace⟩ := hPlaced
    obtain ⟨blk, reg, hBlock, hRegion, hHolder⟩ := hForest.placed hPlace
    have hHome : g.parentRegion x = .ok blk.parent :=
      bind_eq_ok.mpr ⟨b, hPlace, bind_eq_ok.mpr ⟨blk, hBlock, rfl⟩⟩
    have hUp : g.parentOp? x = .ok reg.parent :=
      bind_eq_ok.mpr ⟨_, hHome, bind_eq_ok.mpr ⟨reg, hRegion, rfl⟩⟩
    cases hParent : reg.parent with
    | none => exact ⟨_, .top (hParent ▸ hUp)⟩
    | some z =>
      rw [hParent] at hUp
      obtain ⟨ls, hOuter⟩ := ih z hUp (hHolder z hParent)
      exact ⟨_, .child hUp hOuter⟩

/- Ancestors of ancestors are ancestors, and not the other way round. -/
theorem Forest.isPartialOrder (hForest : g.Forest) :
    IsPartialOrder { x // g.Placed x } fun x y => g.isAncestor x y = .ok true where
  refl x := by
    obtain ⟨ls, hRises⟩ := hForest.rises x.2
    exact hRises.isAncestor_iff.mpr hRises.self_mem
  trans x y z hXY hYZ := by
    obtain ⟨ls, hY⟩ := hForest.rises y.2
    obtain ⟨ls', hZ⟩ := hForest.rises z.2
    obtain ⟨inner, outer, rfl, hAgain⟩ := hZ.of_mem (hZ.isAncestor_iff.mp hYZ)
    cases hY.unique hAgain
    exact hZ.isAncestor_iff.mpr (mem_append_right _ (hY.isAncestor_iff.mp hXY))
  antisymm x y hXY hYX := by
    obtain ⟨ls, hX⟩ := hForest.rises x.2
    obtain ⟨ls', hY⟩ := hForest.rises y.2
    -- The list of each of them is the end of that of the other.
    obtain ⟨inner, up, rfl, hAgain⟩ := hY.of_mem (hY.isAncestor_iff.mp hXY)
    obtain ⟨inner', up', rfl, hAgain'⟩ := hX.of_mem (hX.isAncestor_iff.mp hYX)
    have hFirst : inner' ++ up' <:+ inner ++ up := ⟨inner, by rw [hX.unique hAgain]⟩
    have hSecond : inner ++ up <:+ inner' ++ up' := ⟨inner', by rw [hY.unique hAgain']⟩
    have hSame := hFirst.eq_of_length_le hSecond.length_le
    obtain ⟨_, hHead⟩ := hX.head
    obtain ⟨_, hHead'⟩ := hY.head
    exact Subtype.ext (List.cons.inj (hHead.symm.trans (hSame.trans hHead'))).1

/-
  Where regions are nested as a forest, the ancestor of an
  operation in a region is found exactly if the region encloses
  that of the operation.  It is the only operation in the region
  with the operation inside it, and it is found from its block
  as well.  Ancestors order the operations.
-/
theorem Forest.ancestors_agree (hForest : g.Forest) :
    (∀ r o, g.Placed o → ∃ home found, g.parentRegion o = .ok home ∧
      g.ancestorInRegion? r o = .ok found ∧ g.regionIsAncestor r home = .ok found.isSome ∧
      (∀ a, ∃ answer, g.isAncestor a o = .ok answer) ∧
      ∀ a, found = some a →
        (∀ c, g.parentRegion c = .ok r ∧ g.isAncestor c o = .ok true ↔ c = a) ∧
        ∃ b, g.parentBlock a = .ok b ∧ g.ancestorInBlock? b o = .ok (some a)) ∧
    IsPartialOrder { x // g.Placed x } fun x y => g.isAncestor x y = .ok true := by
  refine ⟨fun r o hPlaced => ?_, hForest.isPartialOrder⟩
  obtain ⟨ls, hRises⟩ := hForest.rises hPlaced
  obtain ⟨b, hPlace⟩ := hPlaced
  obtain ⟨blk, _, hBlock, _⟩ := hForest.placed hPlace
  have hHome : g.parentRegion o = .ok blk.parent :=
    bind_eq_ok.mpr ⟨b, hPlace, bind_eq_ok.mpr ⟨blk, hBlock, rfl⟩⟩
  obtain ⟨found, hFound, hOnly⟩ := hRises.ancestorInRegion
  obtain ⟨answer, hRegion, hHolds⟩ := hRises.regionIsAncestor hHome
  refine ⟨blk.parent, found, hHome, hFound, ?_, fun a => ⟨_, hRises.isAncestor⟩, ?_⟩
  · rw [hRegion, Except.ok.injEq, Bool.eq_iff_iff, hHolds, Option.isSome_iff_exists]
    exact exists_congr fun a => (hOnly a).symm
  · intro a hSome
    obtain ⟨hMem, hThere⟩ := (hOnly a).mp hSome
    refine ⟨fun c => ?_, ?_⟩
    · rw [hRises.isAncestor_iff, and_comm, ← hOnly, hSome, Option.some.injEq, eq_comm]
    · obtain ⟨d, hIn, _⟩ := bind_eq_ok.mp hThere
      obtain ⟨found', hFound', hOnly'⟩ := hRises.ancestorInBlock
      exact ⟨d, hIn, hFound'.trans (congrArg _ ((hOnly' a).mpr ⟨hMem, hIn⟩))⟩

/- Two operations in a body, the first with another one inside it at each of two depths. -/
def towerGraph : Graph where
  ops := ⟨#[some { kind := .yield, regions := [⟨1⟩], parent := some ⟨0⟩ },
    some { kind := .yield, regions := [⟨2⟩], parent := some ⟨1⟩ },
    some { kind := .yield, parent := some ⟨2⟩ }, some { kind := .yield, parent := some ⟨0⟩ }], 4⟩
  blocks := ⟨#[some { ops := [⟨0⟩, ⟨3⟩], parent := ⟨0⟩ }, some { ops := [⟨1⟩], parent := ⟨1⟩ },
    some { ops := [⟨2⟩], parent := ⟨2⟩ }], 3⟩
  regions := ⟨#[some { blocks := [⟨0⟩] }, some { blocks := [⟨1⟩], parent := some ⟨0⟩ },
    some { blocks := [⟨2⟩], parent := some ⟨1⟩ }], 3⟩

theorem forest_towerGraph : towerGraph.Forest := by
  have hListed {x : OpId} {b : BlockId} (hPlace : towerGraph.parentBlock x = .ok b) :
      x = ⟨0⟩ ∨ x = ⟨1⟩ ∨ x = ⟨2⟩ ∨ x = ⟨3⟩ := by
    obtain ⟨o, hOp, _⟩ := bind_eq_ok.mp hPlace
    have hIndex : x.index < 4 := Arena.index_lt_of_get? (Arena.get_eq_ok_iff.mp hOp)
    obtain ⟨i⟩ := x
    dsimp only at hIndex
    simp only [Handle.mk.injEq]
    omega
  constructor
  · intro x b hPlace
    rcases hListed hPlace with rfl | rfl | rfl | rfl <;> cases hPlace <;>
      exact ⟨_, _, rfl, rfl, by rintro z ⟨⟩ <;> exact ⟨_, rfl⟩⟩
  · refine Subrelation.wf (r := fun z x : OpId => z.index < x.index) ?_ (measure Handle.index).wf
    intro z x hUp
    obtain ⟨_, hHome, _⟩ := bind_eq_ok.mp hUp
    obtain ⟨_, hPlace, _⟩ := bind_eq_ok.mp hHome
    rcases hListed hPlace with rfl | rfl | rfl | rfl <;> cases hUp <;> decide

/- The innermost operation is found in the outermost one, and not beside it. -/
theorem towerGraph_ancestors_agree : towerGraph.ancestorInRegion? ⟨0⟩ ⟨2⟩ = .ok (some ⟨0⟩) ∧
    towerGraph.regionIsAncestor ⟨0⟩ ⟨2⟩ = .ok true ∧
    towerGraph.ancestorInBlock? ⟨0⟩ ⟨2⟩ = .ok (some ⟨0⟩) ∧
    towerGraph.regionIsAncestor ⟨1⟩ ⟨0⟩ = .ok false := by
  have hAgree := forest_towerGraph.ancestors_agree.1
  obtain ⟨home, found, hHome, hFound, hRegion, _, hOnly⟩ := hAgree ⟨0⟩ ⟨2⟩ ⟨⟨2⟩, rfl⟩
  have hOutermost : towerGraph.ancestorInRegion? ⟨0⟩ ⟨2⟩ = .ok (some ⟨0⟩) := by decide +kernel
  cases hOutermost.symm.trans hFound
  cases hHome
  obtain ⟨b, hBlock, hSame⟩ := (hOnly _ rfl).2
  cases hBlock
  refine ⟨hOutermost, hRegion, hSame, ?_⟩
  obtain ⟨home, found, hHome, hFound, hRegion, _⟩ := hAgree ⟨1⟩ ⟨3⟩ ⟨⟨0⟩, rfl⟩
  have hNone : towerGraph.ancestorInRegion? ⟨1⟩ ⟨3⟩ = .ok none := by decide +kernel
  cases hNone.symm.trans hFound
  cases hHome
  exact hRegion

end Graph

end AffineIR
