import AffineIR.Proofs.Nest.Plans

/-
  What the rewriting of a nest leaves alone.

  Statements of a nest are moved within the nest, and the only
  values that get new uses are the variables of its loops.  So
  operations outside the nest are what they were, with their
  results, their regions and the blocks in these.  No operation
  leaves the nest or gets into it, apart from new guards.

  Main result: `Perfection.Lowered.confined`
-/

namespace AffineIR

open Answer List

variable {v w : ValueId} {x : OpId} {o : Operation} {operands vars : List ValueId}

------
-- Kept operations
------

namespace Graph

/- A region is as it was, with its blocks and their arguments. -/
structure KeepsRegion (g g' : Graph) (r : RegionId) : Prop where
  region : g'.region r = g.region r
  block {reg : Region} {c : BlockId} (hRegion : g.region r = .ok reg) (hMem : c ∈ reg.blocks) :
    g'.block c = g.block c
  argument {reg : Region} {c : BlockId} {blk : Block} {v : ValueId}
    (hRegion : g.region r = .ok reg) (hMem : c ∈ reg.blocks)
    (hBlock : g.block c = .ok blk) (hArg : v ∈ blk.args) :
    g'.value v = g.value v

/- An operation is as it was, with its results and its regions. -/
structure KeepsOp (g g' : Graph) (x : OpId) : Prop where
  op : g'.op x = g.op x
  result {o : Operation} {v : ValueId}
    (hOp : g.op x = .ok o) (hMem : v ∈ o.results) : g'.value v = g.value v
  region {o : Operation} {r : RegionId}
    (hOp : g.op x = .ok o) (hMem : r ∈ o.regions) : g.KeepsRegion g' r

/- An operation and all that is inside it are as they were. -/
def KeepsNest (g g' : Graph) (root : OpId) : Prop := ∀ ⦃x⦄, g.Inside root x → g.KeepsOp g' x

variable {g g' g'' : Graph} {r : RegionId} {b : BlockId} {blk : Block} {z root : OpId}

namespace KeepsRegion

theorem refl (g : Graph) (r : RegionId) : g.KeepsRegion g r where
  region := rfl
  block _ _ := rfl
  argument _ _ _ _ := rfl

theorem symm (hKeeps : g.KeepsRegion g' r) : g'.KeepsRegion g r where
  region := hKeeps.region.symm
  block hRegion hMem := by
    rw [hKeeps.region] at hRegion
    exact (hKeeps.block hRegion hMem).symm
  argument hRegion hMem hBlock hArg := by
    rw [hKeeps.region] at hRegion
    rw [hKeeps.block hRegion hMem] at hBlock
    exact (hKeeps.argument hRegion hMem hBlock hArg).symm

theorem trans (hFirst : g.KeepsRegion g' r)
    (hSecond : g'.KeepsRegion g'' r) : g.KeepsRegion g'' r where
  region := hSecond.region.trans hFirst.region
  block hRegion hMem := (hSecond.block (hFirst.region.trans hRegion) hMem).trans
      (hFirst.block hRegion hMem)
  argument hRegion hMem hBlock hArg := (hSecond.argument (hFirst.region.trans hRegion) hMem
      ((hFirst.block hRegion hMem).trans hBlock) hArg).trans
        (hFirst.argument hRegion hMem hBlock hArg)

theorem lists (hKeeps : g.KeepsRegion g' r) (hLists : g.Lists r b x) : g'.Lists r b x := by
  obtain ⟨⟨reg, hRegion, hListed⟩, blk, hBlock, hIn⟩ := hLists
  exact ⟨⟨reg, hKeeps.region.trans hRegion, hListed⟩, blk,
    (hKeeps.block hRegion hListed).trans hBlock, hIn⟩

theorem linked {parent : Option OpId} (hKeeps : g.KeepsRegion g' r) (hIntact' : g'.Intact)
    (hLinked : g.Linked r parent) : g'.Linked r parent := by
  obtain ⟨reg, hRegion, rfl⟩ := hLinked.region
  exact hIntact'.linked (hKeeps.region.trans hRegion)

end KeepsRegion

namespace KeepsOp

theorem refl (g : Graph) (x : OpId) : g.KeepsOp g x where
  op := rfl
  result _ _ := rfl
  region _ _ := .refl g _

theorem symm (hKeeps : g.KeepsOp g' x) : g'.KeepsOp g x where
  op := hKeeps.op.symm
  result hOp hMem := (hKeeps.result (hKeeps.op.symm.trans hOp) hMem).symm
  region hOp hMem := (hKeeps.region (hKeeps.op.symm.trans hOp) hMem).symm

theorem trans (hFirst : g.KeepsOp g' x) (hSecond : g'.KeepsOp g'' x) : g.KeepsOp g'' x where
  op := hSecond.op.trans hFirst.op
  result hOp hMem := (hSecond.result (hFirst.op.trans hOp) hMem).trans (hFirst.result hOp hMem)
  region hOp hMem := (hFirst.region hOp hMem).trans (hSecond.region (hFirst.op.trans hOp) hMem)

theorem holder (hKeeps : g.KeepsOp g' z) (hHolder : g.Holder z x) : g'.Holder z x := by
  obtain ⟨o, r, b, hOp, hMem, hLists⟩ := hHolder
  exact ⟨o, r, b, hKeeps.op.trans hOp, hMem, (hKeeps.region hOp hMem).lists hLists⟩

theorem loopBody (hKeeps : g.KeepsOp g' x) (hBody : g.LoopBody x b blk) : g'.LoopBody x b blk := by
  obtain ⟨o, hOp, hLoop, hRegions⟩ := hBody.op
  obtain ⟨reg, hRegion, hBlocks, hParent⟩ := hBody.region
  have hThere := hKeeps.region hOp (r := blk.parent) (by simp [hRegions])
  exact ⟨⟨o, hKeeps.op.trans hOp, hLoop, hRegions⟩,
    ⟨reg, hThere.region.trans hRegion, hBlocks, hParent⟩,
    (hThere.block hRegion (by simp [hBlocks])).trans hBody.block⟩

end KeepsOp

namespace KeepsNest

theorem inside (hKeeps : g.KeepsNest g' root) (hInside : g.Inside root x) : g'.Inside root x := by
  induction hInside with
  | self => exact .self
  | child hOuter hHolder ih => exact .child ih ((hKeeps hOuter).holder hHolder)

theorem inside_iff (hKeeps : g.KeepsNest g' root) : g'.Inside root x ↔ g.Inside root x := by
  refine ⟨?_, hKeeps.inside⟩
  intro hInside
  induction hInside with
  | self => exact .self
  | child _ hHolder ih => exact .child ih ((hKeeps ih).symm.holder hHolder)

theorem symm (hKeeps : g.KeepsNest g' root) : g'.KeepsNest g root :=
  fun _ hInside => (hKeeps (hKeeps.inside_iff.mp hInside)).symm

/- What is kept around an operation is kept inside it. -/
theorem of_inside (hKeeps : g.KeepsNest g' root) (hInside : g.Inside root z) : g.KeepsNest g' z :=
  fun _ hInner => hKeeps (hInside.trans hInner)

end KeepsNest

end Graph

------
-- Spared values
------

def Graph.SameValue (v : ValueId) (g g' : Graph) : Prop := g'.value v = g.value v

instance (v : ValueId) : IsPreorder Graph (Graph.SameValue v) where
  refl _ := rfl
  trans _ _ _ hFirst hSecond := hSecond.trans hFirst

namespace Edit

variable {α : Type}

/- A value is not touched by an edit. -/
abbrev Spares (v : ValueId) (e : Edit α) : Prop := Takes (Graph.SameValue v) e

/- An edit that puts an answer into the graph. -/
theorem spares_put {answer : Graph → Except Fault α} {put : Graph → α → Graph}
    (hPut : ∀ {g a}, answer g = .ok a → (put g a).value v = g.value v) :
    Spares v (do let g ← get; set (put g (← answer g)) : Edit Unit) := by
  intro a g g' hRun
  obtain ⟨_, hAnswer, rfl⟩ := eq_of_update hRun
  exact hPut hAnswer

theorem spares_modifyOp (x : OpId) (k : Operation → Operation) : Spares v (modifyOp x k) :=
  spares_put fun _ => rfl

theorem spares_modifyBlock (b : BlockId) (k : Block → Block) : Spares v (modifyBlock b k) :=
  spares_put fun _ => rfl

theorem spares_modifyRegion (r : RegionId) (k : Region → Region) : Spares v (modifyRegion r k) :=
  spares_put fun _ => rfl

theorem spares_modifyValue (hOther : v ≠ w) (k : Value → Value) : Spares v (modifyValue w k) := by
  refine spares_put ?_
  intro g values hModify
  obtain ⟨_, hValue, rfl⟩ := Arena.modify_eq_ok.mp hModify
  exact (Arena.get_set hValue v).trans (if_neg hOther)

theorem spares_modifyGet {k : Graph → α × Graph}
    (hKeeps : ∀ g, (k g).2.value v = g.value v) : Spares v (modifyGet k : Edit α) := by
  intro a g g' hRun
  have hPair : k g = (a, g') := Except.ok.inj hRun
  have hKept := hKeeps g
  rwa [hPair] at hKept

/- Only its operands notice a new operation without results. -/
theorem spares_createOp {kind : Kind} {successors : List BlockId}
    (hOther : v ∉ operands) : Spares v (createOp kind operands [] successors) := by
  refine Takes.bind (spares_modifyGet fun _ => rfl) fun x => (Takes.pure ()).bind fun _ =>
    Takes.bind (.forM ?_) fun _ => .pure x
  intro p hMem
  refine (spares_modifyValue ?_ _).bind fun _ => spares_modifyOp x _
  rintro rfl
  exact hOther (fst_mem_of_mem_zipIdx hMem)

theorem spares_createRegion (x : OpId) : Spares v (createRegion (some x)) :=
  Takes.bind (spares_modifyGet fun _ => rfl) fun r => (spares_modifyOp x _).bind fun _ => .pure r

theorem spares_createBlock (r : RegionId) : Spares v (createBlock r []) :=
  Takes.bind (spares_modifyGet fun _ => rfl) fun b => (Takes.pure ()).bind fun _ =>
    (spares_modifyRegion r _).bind fun _ => .pure b

end Edit

/- A conditional is noticed by the variables of its condition only. -/
theorem Build.spares_conditional (hOther : v ∉ vars) (anchor : OpId)
    (set : Affine.IntegerSet) : Edit.Spares v (conditional (.before anchor) set vars false) := by
  have hGuard : Edit.Spares v (create (.before anchor) (.conditional set) vars []) :=
    (Edit.spares_createOp hOther).bind fun x => (Edit.Takes.insertBefore Edit.spares_modifyBlock
      (fun _ _ => Edit.spares_modifyOp _ _) anchor x).bind fun _ => .pure x
  have hBranch (x : OpId) : Edit.Spares v (addYieldRegion x []) :=
    (Edit.spares_createRegion x).bind fun r => (Edit.spares_createBlock r).bind fun b =>
      (Edit.spares_createOp not_mem_nil).bind fun y =>
        Edit.Takes.bind ((Edit.Takes.requireDetached y).bind fun _ =>
          .place Edit.spares_modifyBlock (fun _ _ => Edit.spares_modifyOp _ _) b y _) fun _ => .pure b
  exact hGuard.bind fun x => (hBranch x).bind fun _ =>
    (Edit.spares_createRegion x).bind fun _ => .pure _

theorem Perfection.spares_sink (ops : List OpId) (guard : OpId)
    (branch : BlockId) : Edit.Spares v (sink ops guard branch) := by
  have hMove (x anchor : OpId) : Edit.Spares v (Edit.moveBefore x anchor) :=
    .moveBefore Edit.spares_modifyBlock (fun _ _ => Edit.spares_modifyOp _ _) x anchor
  refine (Edit.Takes.ask _).bind fun last => .forM fun x _ => (Edit.Takes.ask _).bind fun o => ?_
  split
  · exact hMove x last
  · exact hMove x guard

theorem Perfection.spares_sinkBehind (hOther : v ∉ vars) (anchor : OpId) (set : Affine.IntegerSet)
    (ops : List OpId) : Edit.Spares v (sinkBehind anchor set vars ops) :=
  (Build.spares_conditional hOther anchor set).bind fun c => spares_sink ops c.op c.thenBlock

------
-- Confined rewrites
------

/- A value is a variable of a loop of a nest. -/
def Graph.Varies (g : Graph) (root : OpId) (v : ValueId) : Prop :=
  ∃ l c blk, g.LoopBody l c blk ∧ g.Inside root l ∧ v ∈ blk.args

/- A rewrite that stays within a nest. -/
structure Graph.Confined (g g' : Graph) (body : RegionId) (root : OpId) : Prop where
  op {x : OpId} {o : Operation}
    (hOp : g.op x = .ok o) (hOutside : ¬g.Inside root x) : g.KeepsOp g' x
  top : g.KeepsRegion g' body
  moves {x : OpId} {o : Operation} (hOp : g.op x = .ok o) :
    ∃ q, g'.op x = .ok { o with parent := q }
  inside {x : OpId} {o : Operation} (hOp : g.op x = .ok o) : g'.Inside root x ↔ g.Inside root x
  rises {x : OpId} {o : Operation} (hOp : g.op x = .ok o) :
    (∃ ls, g'.Rises x ls) ↔ ∃ ls, g.Rises x ls
  /- No loops are made. -/
  loop {x : OpId} {o : Operation} (hInside : g'.Inside root x)
    (hOp : g'.op x = .ok o) (hLoop : o.kind.isLoop = true) :
    ∃ old, g.op x = .ok old
  body {x : OpId} {c : BlockId} {old : Block} (hBody : g.LoopBody x c old) :
    ∃ now, g'.LoopBody x c { old with ops := now }

namespace Graph.Confined

variable {g g' g'' : Graph} {body : RegionId} {root : OpId}

theorem refl (g : Graph) (body : RegionId) (root : OpId) :
    g.Confined g body root where
  op _ _ := .refl g _
  top := .refl g body
  moves {_ o} hOp := ⟨o.parent, hOp⟩
  inside _ := Iff.rfl
  rises _ := Iff.rfl
  loop _ hOp _ := ⟨_, hOp⟩
  body {_ _ old} hBody := ⟨old.ops, hBody⟩

theorem trans (hFirst : g.Confined g' body root)
    (hSecond : g'.Confined g'' body root) : g.Confined g'' body root where
  op hOp hOutside := by
    obtain ⟨q, hOp'⟩ := hFirst.moves hOp
    exact (hFirst.op hOp hOutside).trans (hSecond.op hOp' fun hInside =>
      hOutside ((hFirst.inside hOp).mp hInside))
  top := hFirst.top.trans hSecond.top
  moves hOp := by
    obtain ⟨q, hOp'⟩ := hFirst.moves hOp
    obtain ⟨q', hOp''⟩ := hSecond.moves hOp'
    exact ⟨q', hOp''⟩
  inside hOp := by
    obtain ⟨q, hOp'⟩ := hFirst.moves hOp
    exact (hSecond.inside hOp').trans (hFirst.inside hOp)
  rises hOp := by
    obtain ⟨q, hOp'⟩ := hFirst.moves hOp
    exact (hSecond.rises hOp').trans (hFirst.rises hOp)
  loop hInside hOp hLoop := by
    obtain ⟨o', hOp'⟩ := hSecond.loop hInside hOp hLoop
    obtain ⟨q, hSame⟩ := hSecond.moves hOp'
    cases hOp.symm.trans hSame
    exact hFirst.loop ((hSecond.inside hOp').mp hInside) hOp' hLoop
  body hBody := by
    obtain ⟨_, hBody'⟩ := hFirst.body hBody
    obtain ⟨now, hBody''⟩ := hSecond.body hBody'
    exact ⟨now, hBody''⟩

/- The variables of a nest stay that. -/
theorem varies (hConfined : g.Confined g' body root)
    (hVaries : g.Varies root v) : g'.Varies root v := by
  obtain ⟨l, c, blk, hBody, hInside, hArg⟩ := hVaries
  obtain ⟨o, hOp, _⟩ := hBody.op
  obtain ⟨now, hBody'⟩ := hConfined.body hBody
  exact ⟨l, c, _, hBody', (hConfined.inside hOp).mpr hInside, hArg⟩

end Graph.Confined

/- A way up can be gone elsewhere if each step of it can be. -/
theorem Graph.Rises.transfer {g g' : Graph} {p : OpId → Prop} {ls : List OpId}
    (hRises : g.Rises x ls)
    (hStep : ∀ {y parent}, p y → g.parentOp? y = .ok parent → (∃ ls, g'.Rises y ls) ∨
        g'.parentOp? y = .ok parent ∧ ∀ z, parent = some z → p z)
    (hKeep : p x) : ∃ ls, g'.Rises x ls := by
  induction hRises with
  | top hParent =>
    rcases hStep hKeep hParent with hThere | ⟨hParent', _⟩
    · exact hThere
    · exact ⟨_, .top hParent'⟩
  | child hParent _ ih =>
    rcases hStep hKeep hParent with hThere | ⟨hParent', hNext⟩
    · exact hThere
    · obtain ⟨ls, hRises⟩ := ih (hNext _ rfl)
      exact ⟨_, .child hParent' hRises⟩

namespace Perfection.Lowered

variable {g g' : Graph} {body : RegionId} {outer passage inner root : OpId} {b home : BlockId}
  {blk blk' : Block} {ops : List OpId} {set : Affine.IntegerSet} {guard close : OpId}
  {branch : BlockId} {yes no : RegionId} {before after : List OpId}
  (h : Lowered g g' body outer passage inner b home blk blk' ops set vars guard close branch yes no
    before after)

include h

theorem parentOp?_of_stays (hOp : g.op x = .ok o)
    (hStays : x ∉ ops) : g'.parentOp? x = g.parentOp? x := by
  unfold Graph.parentOp? Graph.parentRegion Graph.parentBlock
  rw [h.behind.edited.op hOp hStays, hOp]
  cases hParent : o.parent with
  | none =>
    simp only [ok_bind, hParent]
    rfl
  | some c =>
    obtain ⟨old, hBlock, _⟩ := ((h.intact.place hOp).mp hParent).1
    obtain ⟨now, hNow⟩ := h.behind.edited.lists hBlock
    obtain ⟨reg, hRegion, _⟩ := h.intact.block hBlock
    simp only [hParent, pure, Except.pure, bind, Except.bind, hBlock, hNow,
      hRegion, h.behind.edited.region hRegion]

/- Operations that led up to the outside still do, and no others. -/
theorem rises_iff (hIntact' : g'.Intact)
    (hOp : g.op x = .ok o) : (∃ ls, g'.Rises x ls) ↔ ∃ ls, g.Rises x ls := by
  have hLive {y : OpId} {parent : Option OpId} (hParent : g.parentOp? y = .ok parent) :
      ∀ z, parent = some z → ∃ o, g.op z = .ok o := by
    rintro z rfl
    obtain ⟨p, _, _, hOuter, _⟩ := h.intact.holder_of_parentOp? hParent
    exact ⟨p, hOuter⟩
  constructor
  · rintro ⟨ls, hRises⟩
    refine hRises.transfer (p := fun y => ∃ o, g.op y = .ok o) ?_ ⟨o, hOp⟩
    rintro y parent ⟨p, hThere⟩ hParent
    by_cases hMem : y ∈ ops
    · exact .inl (h.intact.rises_of_reached h.linked (h.reached_moved hMem))
    · rw [h.parentOp?_of_stays hThere hMem] at hParent
      exact .inr ⟨hParent, hLive hParent⟩
  · rintro ⟨ls, hRises⟩
    refine hRises.transfer (p := fun y => ∃ o, g.op y = .ok o) ?_ ⟨o, hOp⟩
    rintro y parent ⟨p, hThere⟩ hParent
    by_cases hMem : y ∈ ops
    · obtain ⟨reg, hRegion, hTop⟩ := h.linked.region
      have hLinked := hIntact'.linked (h.behind.edited.region hRegion)
      rw [hTop] at hLinked
      exact .inl (hIntact'.rises_of_reached hLinked (h.reached' (h.reached_moved hMem)))
    · exact .inr ⟨(h.parentOp?_of_stays hThere hMem).trans hParent, hLive hParent⟩

variable (hAround : g.Inside root outer)

include hAround

theorem inside_inner : g.Inside root inner :=
  (Graph.Inside.child hAround (h.source.holder h.between)).trans h.below

variable (hSpared : ∀ v, v ∉ vars → g'.value v = g.value v) (hVars : ∀ v ∈ vars, g.Varies root v)

include hSpared hVars

/- Regions that are not of the nest are kept. -/
theorem keepsRegion {r : RegionId} {reg : Region} (hRegion : g.region r = .ok reg)
    (hOutside : ∀ z, reg.parent = some z → ¬g.Inside root z) : g.KeepsRegion g' r := by
  -- the bodies of the loops of the nest are elsewhere
  have hOther {l : OpId} {c : BlockId} {old : Block}
      (hBody : g.LoopBody l c old) (hInside : g.Inside root l) : c ∉ reg.blocks := by
    intro hListed
    obtain ⟨_, hBlock, rfl⟩ := h.intact.listed hRegion hListed
    cases hBlock.symm.trans hBody.block
    obtain ⟨_, hRegion', _, hParent⟩ := hBody.region
    cases hRegion.symm.trans hRegion'
    exact hOutside l hParent hInside
  refine ⟨(h.behind.edited.region hRegion).trans hRegion.symm, ?_, ?_⟩
  · intro reg' c hRegion' hListed
    cases hRegion.symm.trans hRegion'
    obtain ⟨old, hBlock, _⟩ := h.intact.listed hRegion hListed
    rw [hBlock]
    refine h.behind.edited.block hBlock ?_
    rw [mem_cons, mem_singleton, not_or]
    constructor
    · rintro rfl
      exact hOther h.target (h.inside_inner hAround) hListed
    · rintro rfl
      exact hOther h.source hAround hListed
  · intro reg' c old v hRegion' hListed hBlock hArg
    cases hRegion.symm.trans hRegion'
    refine hSpared v ?_
    intro hMem
    obtain ⟨l, d, var, hBody, hInside, hArg'⟩ := hVars v hMem
    obtain ⟨i, hAt⟩ := List.getElem?_of_mem hArg
    obtain ⟨j, hAt'⟩ := List.getElem?_of_mem hArg'
    obtain ⟨val, hValue, hDefiner⟩ := h.intact.argument hBlock hAt
    obtain ⟨val', hValue', hDefiner'⟩ := h.intact.argument hBody.block hAt'
    cases hValue.symm.trans hValue'
    cases hDefiner.symm.trans hDefiner'
    exact hOther hBody hInside hListed

theorem keepsOp (hOp : g.op x = .ok o) (hOutside : ¬g.Inside root x) : g.KeepsOp g' x where
  op := by
    rw [hOp]
    refine h.behind.edited.op hOp ?_
    intro hMem
    exact hOutside (.child hAround (h.source.holder (h.mem_source hMem)))
  result {o' v} hOp' hResult := by
    refine hSpared v ?_
    intro hMem
    obtain ⟨l, c, old, hBody, _, hArg⟩ := hVars v hMem
    obtain ⟨i, hAt⟩ := List.getElem?_of_mem hResult
    obtain ⟨j, hAt'⟩ := List.getElem?_of_mem hArg
    obtain ⟨val, hValue, hDefiner⟩ := h.intact.result hOp' hAt
    obtain ⟨val', hValue', hDefiner'⟩ := h.intact.argument hBody.block hAt'
    cases hValue.symm.trans hValue'
    cases hDefiner.symm.trans hDefiner'
  region hOp' hMem := by
    obtain ⟨reg, hRegion, hParent⟩ := h.intact.held hOp' hMem
    refine h.keepsRegion hAround hSpared hVars hRegion ?_
    intro z hSome
    cases hParent.symm.trans hSome
    exact hOutside

/- Moving statements within a nest is confined to it. -/
theorem confined (hIntact' : g'.Intact) : g.Confined g' body root where
  op := h.keepsOp hAround hSpared hVars
  top := by
    obtain ⟨reg, hRegion, hParent⟩ := h.linked.region
    refine h.keepsRegion hAround hSpared hVars hRegion ?_
    intro z hSome
    cases hParent.symm.trans hSome
  moves := h.behind.edited.moves
  inside hOp := by
    refine ⟨?_, h.inside⟩
    intro hInside
    rcases h.inside_cases hAround hInside with hThere | rfl | rfl
    · exact hThere
    · exact absurd hOp (h.behind.newGuard _)
    · exact absurd hOp (h.behind.newClose _)
  rises hOp := h.rises_iff hIntact' hOp
  loop hInside hOp hLoop := by
    rcases h.inside_cases hAround hInside with hThere | rfl | rfl
    · have hReached := h.intact.reached_of_inside h.linked h.reached hAround
      exact h.intact.op_of_reached (hThere.reached hReached)
    · cases hOp.symm.trans h.behind.guardOp
      cases hLoop
    · cases hOp.symm.trans h.behind.closeOp
      cases hLoop
  body hBody := by
    obtain ⟨now, hNow⟩ := h.behind.edited.lists hBody.block
    exact ⟨now, h.loopBody' hBody hNow⟩

end Perfection.Lowered

end AffineIR
