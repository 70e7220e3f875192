import AffineIR.Proofs.Graph.Upkeep

/-
  Erasure keeps the links of a graph.

  Erasure takes away an operation with all that is nested in it.
  First the operands of the doomed operations go, then the place
  of the outermost one, and then their storage: the operations,
  the regions that they hold, the blocks of these, and the
  results and arguments of all of them.  Everything else stays
  as it is, except that the block of the outermost operation does
  not list it and that values do not list the doomed uses.  What
  is left has links that match, if nothing that is left uses what
  is taken away.

  Main result: `Edit.coherent_erase`
-/

namespace AffineIR

open Answer List Option Arena

------
-- Storage
------

/- What the entities of a set list. -/
def Arena.within {tag : String} {α β : Type} (a : Arena tag α) (part : α → List β)
    (hs : Set (Handle tag)) : Set β :=
  { v | ∃ h ∈ hs, ∃ xs, a.view part h = some xs ∧ v ∈ xs }

/- An arena that lacks some entities of another one. -/
def Arena.Lacks {tag : String} {α : Type} (a a' : Arena tag α) (hs : Set (Handle tag)) : Prop :=
  ∀ k x, a'.get? k = some x ↔ k ∉ hs ∧ a.get? k = some x

/- One whose other entities are changed, too. -/
def Arena.Trims {tag : String} {α : Type} (a a' : Arena tag α) (hs : Set (Handle tag))
    (f : Handle tag → α → α) : Prop :=
  ∀ k x', a'.get? k = some x' ↔ k ∉ hs ∧ ∃ x, a.get? k = some x ∧ f k x = x'

namespace Arena.Lacks

variable {tag : String} {α β : Type} {a a' : Arena tag α} {part : α → List β} {h : Handle tag}
  {hs : Set (Handle tag)} {x : α}

theorem remove (hLacks : a.Lacks a' hs) (h : Handle tag) : a.Lacks (a'.remove h) (insert h hs) := by
  intro k x
  have hThere := hLacks k x
  by_cases hSame : k = h
  · simp [get?_remove, hSame]
  · simp [get?_remove, hSame, hThere]

theorem removeAll (hLacks : a.Lacks a' hs)
    (ks : List (Handle tag)) : a.Lacks (ks.foldl Arena.remove a') ({ k | k ∈ ks } ∪ hs) := by
  intro k x
  have hThere := hLacks k x
  by_cases hMem : k ∈ ks
  · simp [get?_foldl_remove, hMem]
  · simp [get?_foldl_remove, hMem, hThere]

/- What is not there may be counted among what is lacking. -/
theorem insert_none (hLacks : a.Lacks a' hs)
    (hNone : a'.get? h = none) : a.Lacks a' (insert h hs) := by
  intro k x
  have hThere := hLacks k x
  by_cases hSame : k = h
  · simp [hSame, hNone]
  · simp [hSame, hThere]

theorem within_insert_some (hLacks : a.Lacks a' hs) (hGet : a'.get? h = some x) :
    a.within part (insert h hs) = { v | v ∈ part x } ∪ a.within part hs := by
  have hThere := ((hLacks h x).mp hGet).2
  ext v
  simp [within, view, hThere]

theorem within_insert_none (hLacks : a.Lacks a' hs)
    (hNone : a'.get? h = none) : a.within part (insert h hs) = a.within part hs := by
  by_cases hIn : h ∈ hs
  · rw [Set.insert_eq_of_mem hIn]
  · have hGet : a.get? h = none := by
      rw [eq_none_iff_forall_ne_some]
      intro x hSome
      rw [(hLacks h x).mpr ⟨hIn, hSome⟩] at hNone
      cases hNone
    ext v
    simp [within, view, hGet]

theorem view (hLacks : a.Lacks a' hs) (part : α → β) (h : Handle tag)
    (p : β) : a'.view part h = some p ↔ h ∉ hs ∧ a.view part h = some p := by
  simp only [view_eq_some, hLacks _ _]
  tauto

end Arena.Lacks

/- A part that is not changed. -/
theorem Arena.Trims.view
    {tag : String} {α β : Type} {a a' : Arena tag α} {hs : Set (Handle tag)} {part : α → β}
    {f : Handle tag → α → α} (hTrims : a.Trims a' hs f) (hPart : ∀ k x, part (f k x) = part x)
    (h : Handle tag) (p : β) : a'.view part h = some p ↔ h ∉ hs ∧ a.view part h = some p := by
  simp only [view_eq_some, hTrims _ _]
  constructor
  · rintro ⟨_, ⟨hKept, x, hGet, rfl⟩, rfl⟩
    exact ⟨hKept, x, hGet, (hPart h x).symm⟩
  · rintro ⟨hKept, x, hGet, rfl⟩
    exact ⟨_, ⟨hKept, x, hGet, rfl⟩, hPart h x⟩

namespace Graph

variable {g g' g₁ : Graph}

/- The regions that some operations hold. -/
def heldRegions (g : Graph) (xs : Set OpId) : Set RegionId := g.ops.within Operation.regions xs

/- The blocks of these regions. -/
def heldBlocks (g : Graph) (xs : Set OpId) : Set BlockId :=
  g.regions.within Region.blocks (g.heldRegions xs)

/- What some operations and blocks define. -/
def definedIn (g : Graph) (xs : Set OpId) (bs : Set BlockId) : Set ValueId :=
  g.ops.within Operation.results xs ∪ g.blocks.within Block.args bs

/-
  A graph without some operations, regions and blocks, and
  without what the operations and blocks define.
-/
structure Cut (g g' : Graph) (xs : Set OpId) (rs : Set RegionId) (bs : Set BlockId) : Prop where
  ops : g.ops.Lacks g'.ops xs
  regions : g.regions.Lacks g'.regions rs
  blocks : g.blocks.Lacks g'.blocks bs
  values : g.values.Lacks g'.values (g.definedIn xs bs)

end Graph

namespace Edit

open AffineIR.Graph

variable {g g' g₁ : Graph} {u : Unit} {xs : Set OpId} {rs : Set RegionId} {bs : Set BlockId}

/- What goes away for each entry of a list goes away for all of them. -/
theorem forM_union
    {α : Type} {p : Set α → Graph → Prop} {e : α → Edit Unit} {l : List α} {s : Set α}
    (hEach : ∀ {x s g g' u}, (e x).run g = .ok (u, g') → p s g → p (insert x s) g')
    (hRun : (l.forM e).run g = .ok (u, g')) (hStart : p s g) : p ({ y | y ∈ l } ∪ s) g' := by
  induction l generalizing g s with
  | nil =>
    obtain ⟨-, rfl⟩ := run_pure_eq_ok.mp hRun
    simpa using hStart
  | cons x l ih =>
    obtain ⟨_, g₁, hFirst, hRun⟩ := run_bind_eq_ok.mp hRun
    have hAll := ih hRun (hEach hFirst hStart)
    have hSame : { y | y ∈ l } ∪ insert x s = { y | y ∈ x :: l } ∪ s := by
      ext y
      simp only [Set.mem_union, Set.mem_insert_iff, Set.mem_ofPred_eq, mem_cons]
      tauto
    rwa [hSame] at hAll

theorem cut_removeBlock {b : BlockId} (hRun : (removeBlock b).run g₁ = .ok (u, g'))
    (hCut : g.Cut g₁ xs rs bs) : g.Cut g' xs rs (insert b bs) := by
  cases hRun
  cases hGet : g₁.blocks.get? b with
  | some blk =>
    simp only [hGet]
    refine ⟨hCut.ops, hCut.regions, hCut.blocks.remove b, ?_⟩
    rw [definedIn, hCut.blocks.within_insert_some hGet, Set.union_left_comm]
    exact hCut.values.removeAll blk.args
  | none =>
    simp only [hGet]
    refine ⟨hCut.ops, hCut.regions, hCut.blocks.insert_none hGet, ?_⟩
    rw [definedIn, hCut.blocks.within_insert_none hGet]
    exact hCut.values

theorem cut_removeBlocks {bs' : List BlockId} (hRun : (bs'.forM removeBlock).run g₁ = .ok (u, g'))
    (hCut : g.Cut g₁ xs rs bs) : g.Cut g' xs rs ({ b | b ∈ bs' } ∪ bs) :=
  forM_union (p := fun bs g₁ => g.Cut g₁ xs rs bs) cut_removeBlock hRun hCut

/- Regions are taken away together with their blocks. -/
theorem cut_removeRegion {r : RegionId} (hRun : (removeRegion r).run g₁ = .ok (u, g'))
    (hCut : g.Cut g₁ xs rs (g.regions.within Region.blocks rs)) :
    g.Cut g' xs (insert r rs) (g.regions.within Region.blocks (insert r rs)) := by
  unfold removeRegion at hRun
  obtain ⟨_, _, hState, hRun⟩ := run_bind_eq_ok.mp hRun
  cases hState
  cases hGet : g₁.regions.get? r with
  | some reg =>
    rw [hGet] at hRun
    obtain ⟨_, g₂, hRemove, hRun⟩ := run_bind_eq_ok.mp hRun
    cases hRemove
    rw [hCut.regions.within_insert_some hGet]
    exact cut_removeBlocks hRun ⟨hCut.ops, hCut.regions.remove r, hCut.blocks, hCut.values⟩
  | none =>
    rw [hGet] at hRun
    obtain ⟨-, rfl⟩ := run_pure_eq_ok.mp hRun
    rw [hCut.regions.within_insert_none hGet]
    exact ⟨hCut.ops, hCut.regions.insert_none hGet, hCut.blocks, hCut.values⟩

theorem cut_removeRegions {rs' : List RegionId}
    (hRun : (rs'.forM removeRegion).run g₁ = .ok (u, g'))
    (hCut : g.Cut g₁ xs rs (g.regions.within Region.blocks rs)) :
    g.Cut g' xs ({ r | r ∈ rs' } ∪ rs) (g.regions.within Region.blocks ({ r | r ∈ rs' } ∪ rs)) :=
  forM_union (p := fun rs g₁ => g.Cut g₁ xs rs (g.regions.within Region.blocks rs))
    cut_removeRegion hRun hCut

theorem cut_removeStorage {x : OpId} (hRun : (removeStorage x).run g₁ = .ok (u, g'))
    (hCut : g.Cut g₁ xs (g.heldRegions xs) (g.heldBlocks xs)) :
    g.Cut g' (insert x xs) (g.heldRegions (insert x xs)) (g.heldBlocks (insert x xs)) := by
  unfold removeStorage at hRun
  obtain ⟨_, _, hState, hRun⟩ := run_bind_eq_ok.mp hRun
  cases hState
  unfold heldBlocks heldRegions at hCut ⊢
  cases hGet : g₁.ops.get? x with
  | some o =>
    rw [hGet] at hRun
    obtain ⟨_, g₂, hRemove, hRun⟩ := run_bind_eq_ok.mp hRun
    cases hRemove
    rw [hCut.ops.within_insert_some hGet]
    refine cut_removeRegions hRun ⟨hCut.ops.remove x, hCut.regions, hCut.blocks, ?_⟩
    rw [definedIn, hCut.ops.within_insert_some hGet, Set.union_assoc]
    exact hCut.values.removeAll o.results
  | none =>
    rw [hGet] at hRun
    obtain ⟨-, rfl⟩ := run_pure_eq_ok.mp hRun
    rw [hCut.ops.within_insert_none hGet]
    refine ⟨hCut.ops.insert_none hGet, hCut.regions, hCut.blocks, ?_⟩
    rw [definedIn, hCut.ops.within_insert_none hGet]
    exact hCut.values

/- Operations are taken away with all that they hold. -/
theorem cut_removeAll {doomed : List OpId}
    (hRun : (doomed.forM removeStorage).run g = .ok (u, g')) :
    g.Cut g' { y | y ∈ doomed } (g.heldRegions { y | y ∈ doomed })
      (g.heldBlocks { y | y ∈ doomed }) := by
  have hNone : g.Cut g ∅ (g.heldRegions ∅) (g.heldBlocks ∅) := by
    constructor <;> simp [Arena.Lacks, Arena.within, heldRegions, heldBlocks, definedIn]
  simpa using forM_union (p := fun xs g₁ => g.Cut g₁ xs (g.heldRegions xs) (g.heldBlocks xs))
    cut_removeStorage hRun hNone

end Edit

------
-- Uses
------

theorem Arena.view_of_map
    {tag : String} {α β : Type} {a a' : Arena tag α} {part : α → β} {f : Handle tag → α → α}
    (hGet : ∀ k, a'.get? k = (a.get? k).map (f k))
    (hPart : ∀ k x, part (f k x) = part x) : a'.view part = a.view part := by
  funext k
  unfold view
  rw [hGet, Option.map_map]
  exact congrArg (Option.map · _) (funext fun x => hPart k x)

/- Some operations have no operands any more. -/
structure Graph.Stripped (g g' : Graph) (doomed : List OpId) : Prop where
  op (y : OpId) : g'.ops.get? y = (g.ops.get? y).map fun o =>
    if y ∈ doomed then { o with operands := [] } else o
  value (v : ValueId) : g'.values.get? v = (g.values.get? v).map fun val =>
    { val with uses := val.uses.filter fun d => ¬(d.op ∈ doomed ∧ g.operandAt d = some v) }
  blocks : g'.blocks = g.blocks
  regions : g'.regions = g.regions

theorem Graph.Stripped.operandAt {g g' : Graph} {doomed : List OpId}
    (hStripped : g.Stripped g' doomed)
    (d : Use) : g'.operandAt d = if d.op ∈ doomed then none else g.operandAt d := by
  unfold Graph.operandAt Arena.view
  rw [hStripped.op]
  by_cases hHere : d.op ∈ doomed
  · cases hOp : g.ops.get? d.op <;> simp [hHere]
  · simp [hHere]

namespace Edit

open AffineIR.Graph

variable {g g' : Graph} {u : Unit} {x : OpId} {doomed : List OpId}

/- Uses by an operation leave the values that it names. -/
theorem values_of_dropUses {pairs : List (ValueId × Nat)}
    (hRun : (pairs.forM fun (value, operand) =>
      (modify fun g : Graph =>
        match g.values.get? value with
        | some v =>
          let uses := v.uses.filter (· ≠ (⟨x, operand⟩ : Use))
          { g with values := g.values.set value { v with uses := uses } }
        | none => g : Edit Unit)).run g = .ok (u, g')) :
    g'.ops = g.ops ∧ g'.blocks = g.blocks ∧ g'.regions = g.regions ∧
      ∀ v, g'.values.get? v = (g.values.get? v).map fun val =>
        { val with uses := val.uses.filter fun d => ¬(d.op = x ∧ (v, d.operand) ∈ pairs) } := by
  induction pairs generalizing g with
  | nil =>
    obtain ⟨-, rfl⟩ := run_pure_eq_ok.mp hRun
    simp
  | cons pair pairs ih =>
    obtain ⟨w, i⟩ := pair
    obtain ⟨_, g₁, hFirst, hRun⟩ := run_bind_eq_ok.mp hRun
    have hStep : g₁.ops = g.ops ∧ g₁.blocks = g.blocks ∧ g₁.regions = g.regions ∧
        ∀ v, g₁.values.get? v = (g.values.get? v).map fun val =>
          { val with uses := val.uses.filter fun d => ¬(v = w ∧ d = ⟨x, i⟩) } := by
      cases hFirst
      cases hGet : g.values.get? w with
      | none =>
        refine ⟨by simp only [hGet], by simp only [hGet], by simp only [hGet], fun v => ?_⟩
        by_cases hSame : v = w <;> simp [hSame, hGet]
      | some val =>
        refine ⟨by simp only [hGet], by simp only [hGet], by simp only [hGet], fun v => ?_⟩
        simp only [hGet, Arena.get?_set hGet]
        by_cases hSame : v = w <;> simp [hSame, hGet]
    obtain ⟨hOps, hBlocks, hRegions, hValues⟩ := ih hRun
    refine ⟨hOps.trans hStep.1, hBlocks.trans hStep.2.1, hRegions.trans hStep.2.2.1, fun v => ?_⟩
    rw [hValues, hStep.2.2.2, Option.map_map]
    congr
    funext val
    simp only [Function.comp, List.filter_filter]
    congr
    funext ⟨op, operand⟩
    grind

theorem stripped_dropUses (hRun : (dropUses x).run g = .ok (u, g')) : g.Stripped g' [x] := by
  unfold dropUses at hRun
  obtain ⟨o, hOp, hRun⟩ := Edit.run_ask_bind.mp hRun
  obtain ⟨_, g₁, hForget, hRun⟩ := run_bind_eq_ok.mp hRun
  obtain ⟨o', hSame, rfl⟩ := eq_of_modifyOp hForget
  cases (get_eq_ok_iff.mp hOp).symm.trans hSame
  obtain ⟨hOps, hBlocks, hRegions, hValues⟩ := values_of_dropUses hRun
  refine ⟨fun y => ?_, fun v => ?_, hBlocks, hRegions⟩
  · rw [hOps, Arena.get?_set hSame]
    by_cases hHere : y = x
    · simp [hHere, hSame]
    · simp [hHere]
  · rw [hValues]
    congr
    funext val
    congr
    funext d
    -- The pairs of the list are the operand positions with their values.
    by_cases hHere : d.op = x
    · simp [hHere, operandAt, Arena.view, hSame, mem_zipIdx_iff_getElem?]
    · simp [hHere]

theorem stripped_dropAll
    (hRun : (doomed.forM dropUses).run g = .ok (u, g')) : g.Stripped g' doomed := by
  induction doomed generalizing g with
  | nil =>
    obtain ⟨-, rfl⟩ := run_pure_eq_ok.mp hRun
    constructor <;> simp
  | cons x doomed ih =>
    obtain ⟨_, g₁, hFirst, hRun⟩ := run_bind_eq_ok.mp hRun
    have hFirst := stripped_dropUses hFirst
    have hRest := ih hRun
    refine ⟨fun y => ?_, fun v => ?_, hRest.blocks.trans hFirst.blocks,
      hRest.regions.trans hFirst.regions⟩
    · rw [hRest.op, hFirst.op, Option.map_map]
      congr
      funext o
      by_cases hHere : y = x <;> by_cases hLater : y ∈ doomed <;> simp [hHere, hLater]
    · rw [hRest.value, hFirst.value, Option.map_map]
      congr
      funext val
      simp only [Function.comp, List.filter_filter, hFirst.operandAt]
      congr
      funext d
      by_cases hHere : d.op = x <;> simp [hHere]

end Edit

/-
  A graph without some operations, one of which held the others,
  and without what they held.  The block of that one is changed.
-/
structure Graph.Clipped (g g' : Graph) (x : OpId) (doomed : List OpId) : Prop where
  ops : g.ops.Lacks g'.ops { y | y ∈ doomed }
  regions : g.regions.Lacks g'.regions (g.heldRegions { y | y ∈ doomed })
  blocks : g.blocks.Trims g'.blocks (g.heldBlocks { y | y ∈ doomed }) fun b blk =>
    if g.blockOf x = some b then { blk with ops := blk.ops.filter (· ≠ x) } else blk

/- What is defined there is gone too, and what is left has lost their uses. -/
structure Graph.Pruned (g g' : Graph) (x : OpId) (doomed : List OpId) : Prop
    extends g.Clipped g' x doomed where
  values : g.values.Trims g'.values
    (g.definedIn { y | y ∈ doomed } (g.heldBlocks { y | y ∈ doomed }))
    fun _ val => { val with uses := val.uses.filter (·.op ∉ doomed) }

namespace Edit

open AffineIR.Graph

variable {g g' : Graph} {u : Unit} {x : OpId}

theorem unused_of_requireUnused (hRun : (requireUnused x).run g = .ok (u, g')) :
    g = g' ∧ ∃ o, g.op x = .ok o ∧ ∀ v ∈ o.results, g.hasUses v = .ok false := by
  unfold requireUnused at hRun
  obtain ⟨o, hOp, hRun⟩ := Edit.run_ask_bind.mp hRun
  suffices hAll : ∀ vs : List ValueId, (vs.forM fun v => do
        if ← ask (·.hasUses v) then
          throw (Fault.resultInUse x v) : Edit Unit).run g = .ok (u, g') →
      g = g' ∧ ∀ v ∈ vs, g.hasUses v = .ok false by
    obtain ⟨hSame, hFree⟩ := hAll o.results hRun
    exact ⟨hSame, o, hOp, hFree⟩
  intro vs hRun
  induction vs with
  | nil =>
    obtain ⟨-, rfl⟩ := run_pure_eq_ok.mp hRun
    exact ⟨rfl, by simp⟩
  | cons v vs ih =>
    obtain ⟨_, g₁, hFirst, hRun⟩ := run_bind_eq_ok.mp hRun
    obtain ⟨used, hUses, hCheck⟩ := Edit.run_ask_bind.mp hFirst
    cases used with
    | true => cases hCheck
    | false =>
      obtain ⟨-, rfl⟩ := run_pure_eq_ok.mp hCheck
      obtain ⟨hSame, hFree⟩ := ih hRun
      exact ⟨hSame, forall_mem_cons.mpr ⟨hUses, hFree⟩⟩

/- An operation that leaves its block leaves all else as it is. -/
theorem frame_of_detach (hRun : (detach x).run g = .ok (u, g')) :
    (∀ y, g'.ops.get? y = (g.ops.get? y).map fun o =>
        if y = x then { o with parent := none } else o) ∧
      (∀ b, g'.blocks.get? b = (g.blocks.get? b).map fun blk =>
        if g.blockOf x = some b then { blk with ops := blk.ops.filter (· ≠ x) } else blk) ∧
      g'.regions = g.regions ∧ g'.values = g.values := by
  obtain ⟨o, hOp, ⟨hNone, rfl⟩ | ⟨b, blk, hParent, hBlock, rfl⟩⟩ := eq_of_detach hRun
  · refine ⟨fun y => ?_, fun b => ?_, rfl, rfl⟩
    · by_cases hSame : y = x
      · cases o
        cases hNone
        simp [hSame, hOp]
      · simp [hSame]
    · simp [blockOf, Arena.view, hOp, hNone]
  · refine ⟨fun y => ?_, fun c => ?_, rfl, rfl⟩
    · rw [Arena.get?_set hOp]
      by_cases hSame : y = x
      · simp [hSame, hOp]
      · simp [hSame]
    · rw [Arena.get?_set hBlock]
      by_cases hSame : c = b
      · simp [hSame, hBlock, blockOf, Arena.view, hOp, hParent]
      · simp [hSame, blockOf, Arena.view, hOp, hParent, Ne.symm hSame]

/- An erasure takes away what is inside an operation, and nothing else. -/
theorem clipped_erase (hRun : (erase x).run g = .ok (u, g')) :
    ∃ doomed, (∀ y, y ∈ doomed ↔ g.Inside x y) ∧
      (∃ o, g.op x = .ok o ∧ ∀ v ∈ o.results, g.hasUses v = .ok false) ∧
      g.Clipped g' x doomed ∧ (g.ValuesMatch → g.Pruned g' x doomed) := by
  unfold erase at hRun
  obtain ⟨_, _, hUnused, hRun⟩ := run_bind_eq_ok.mp hRun
  obtain ⟨rfl, hFree⟩ := unused_of_requireUnused hUnused
  obtain ⟨doomed, hWalk, hRun⟩ := Edit.run_ask_bind.mp hRun
  obtain ⟨_, g₁, hDrop, hRun⟩ := run_bind_eq_ok.mp hRun
  obtain ⟨_, g₂, hDetach, hRemove⟩ := run_bind_eq_ok.mp hRun
  have hDoomed : ∀ y, y ∈ doomed ↔ g.Inside x y := fun _ => mem_walkFrom_iff hWalk
  have hStripped := stripped_dropAll hDrop
  have hCut := cut_removeAll hRemove
  obtain ⟨hOps, hBlocks, hRegions, hValues⟩ := frame_of_detach hDetach
  rw [hStripped.blocks] at hBlocks
  have hPlace : g₁.blockOf x = g.blockOf x := by
    refine congrFun (blockOf_congr (view_of_map hStripped.op ?_)) x
    intro y o
    split <;> rfl
  rw [hPlace] at hBlocks
  have hView {β : Type} {part : Operation → β} (hLast : ∀ o p, part { o with parent := p } = part o)
      (hFirst : ∀ o, part { o with operands := [] } = part o) :
      g₂.ops.view part = g.ops.view part := by
    rw [view_of_map hOps, view_of_map hStripped.op]
    · intro y o
      split <;> [exact hFirst o; rfl]
    · intro y o
      split <;> [exact hLast o none; rfl]
  have hHeld (xs : Set OpId) : g₂.heldRegions xs = g.heldRegions xs := by
    unfold heldRegions Arena.within
    rw [hView (fun _ _ => rfl) fun _ => rfl]
  have hHeld' (xs : Set OpId) : g₂.heldBlocks xs = g.heldBlocks xs := by
    unfold heldBlocks Arena.within
    rw [hHeld, hRegions, hStripped.regions]
  have hDefined (xs : Set OpId) (bs : Set BlockId) : g₂.definedIn xs bs = g.definedIn xs bs := by
    have hArgs : g₂.blocks.view Block.args = g.blocks.view Block.args := by
      refine view_of_map hBlocks fun b blk => ?_
      split <;> rfl
    unfold definedIn Arena.within
    rw [hView (fun _ _ => rfl) fun _ => rfl, hArgs]
  have hClipped : g.Clipped g' x doomed := by
    refine ⟨fun y o => ?_, fun r reg => ?_, fun b blk' => ?_⟩
    · rw [hCut.ops]
      refine and_congr_right fun hKept => ?_
      have hOther : y ≠ x := fun hEq => hKept ((hDoomed y).mpr (hEq ▸ .self))
      rw [hOps, hStripped.op, Option.map_map]
      simp [hOther, show y ∉ doomed from hKept, Function.comp_def]
    · rw [hCut.regions, hHeld, hRegions, hStripped.regions]
    · rw [hCut.blocks, hHeld', hBlocks, map_eq_some_iff]
  refine ⟨doomed, hDoomed, hFree, hClipped, fun hMatch => ⟨hClipped, fun v val' => ?_⟩⟩
  rw [hCut.values, hHeld', hDefined, hValues, hStripped.value, map_eq_some_iff]
  refine and_congr_right fun _ => exists_congr fun val => and_congr_right fun hValue => ?_
  -- What a value lists of the operations are their operands.
  have hUses : val.uses.filter (fun d => ¬(d.op ∈ doomed ∧ g.operandAt d = some v)) =
      val.uses.filter (·.op ∉ doomed) := by
    refine filter_congr fun d hMem => ?_
    rw [hMatch.uses.mem_iff (view_eq_some.mpr ⟨val, hValue, rfl⟩)] at hMem
    simp [hMem]
  rw [hUses]

end Edit

------
-- What is left
------

theorem Links.mem_within_iff {tag : String} {α β : Type} [DecidableEq β]
    {holder : β → Option (Handle tag)} {a : Arena tag α} {part : α → List β} {hs : Set (Handle tag)}
    {c : β} {h : Handle tag} (hLinks : Links holder (a.view part))
    (hHolder : holder c = some h) : c ∈ a.within part hs ↔ h ∈ hs := by
  constructor
  · intro ⟨k, hIn, xs, hView, hMem⟩
    rw [hLinks.mem_iff hView, hHolder, Option.some.injEq] at hMem
    rwa [hMem]
  · intro hIn
    obtain ⟨xs, hView⟩ := hLinks.live hHolder
    exact ⟨h, hIn, xs, hView, (hLinks.mem_iff hView).mpr hHolder⟩

namespace Graph

variable {g g' : Graph} {x y : OpId} {b : BlockId} {doomed : List OpId} {xs : Set OpId}
  {bs : Set BlockId}

/- A block of some operations lists what they hold. -/
theorem PlacesMatch.holder_iff (hMatch : g.PlacesMatch) (hPlace : g.blockOf y = some b) :
    (∃ z ∈ xs, g.Holder z y) ↔ b ∈ g.heldBlocks xs := by
  constructor
  · intro ⟨z, hIn, o, r, c, hOp, hHeld, hLists⟩
    obtain ⟨reg, hRegion, hListed⟩ := hLists.region
    obtain ⟨blk, hBlock, hMem⟩ := hLists.block
    have hView : g.blocks.view Block.ops c = some blk.ops :=
      view_eq_some.mpr ⟨blk, get_eq_ok_iff.mp hBlock, rfl⟩
    rw [hMatch.ops.mem_iff hView, hPlace, Option.some.injEq] at hMem
    subst hMem
    exact ⟨r, ⟨z, hIn, o.regions,
      view_eq_some.mpr ⟨o, get_eq_ok_iff.mp hOp, rfl⟩, hHeld⟩, reg.blocks,
      view_eq_some.mpr ⟨reg, get_eq_ok_iff.mp hRegion, rfl⟩, hListed⟩
  · intro ⟨r, ⟨z, hIn, rs, hHolds, hHeld⟩, bs, hLists, hListed⟩
    obtain ⟨o, hOp, rfl⟩ := view_eq_some.mp hHolds
    obtain ⟨reg, hRegion, rfl⟩ := view_eq_some.mp hLists
    obtain ⟨ys, hView⟩ := hMatch.ops.live hPlace
    obtain ⟨blk, hBlock, rfl⟩ := view_eq_some.mp hView
    exact ⟨z, hIn, o, r, b, get_eq_ok_iff.mpr hOp, hHeld,
      ⟨reg, get_eq_ok_iff.mpr hRegion, hListed⟩,
      blk, get_eq_ok_iff.mpr hBlock, (hMatch.ops.mem_iff hView).mpr hPlace⟩

/- The places where something is defined that goes away. -/
def cutPlaces (xs : Set OpId) (bs : Set BlockId) : Definer → Prop
  | .result x _ => x ∈ xs
  | .argument b _ => b ∈ bs

/- A value goes away with the place where it is defined. -/
theorem ValuesMatch.mem_cut_iff {v : ValueId} {d : Definer} (hMatch : g.ValuesMatch)
    (hDefined : g.definedBy d = some v) : v ∈ g.definedIn xs bs ↔ cutPlaces xs bs d := by
  have hDefiner := (hMatch.definers v d).mpr hDefined
  have hUnique : ∀ {e}, g.definedBy e = some v → e = d := fun hOther => by
    rw [← hMatch.definers, hDefiner, Option.some.injEq] at hOther
    exact hOther.symm
  constructor
  · rintro (⟨x, hIn, vs, hView, hMem⟩ | ⟨b, hIn, vs, hView, hMem⟩)
    · obtain ⟨i, hAt⟩ := List.getElem?_of_mem hMem
      rw [← hUnique (e := .result x i) (by rw [definedBy_result, hView]; exact hAt)]
      exact hIn
    · obtain ⟨i, hAt⟩ := List.getElem?_of_mem hMem
      rw [← hUnique (e := .argument b i) (by rw [definedBy_argument, hView]; exact hAt)]
      exact hIn
  · intro hGone
    cases d with
    | result x i =>
      obtain ⟨vs, hView, hAt⟩ := bind_eq_some_iff.mp hDefined
      exact .inl ⟨x, hGone, vs, hView, mem_of_getElem? hAt⟩
    | argument b i =>
      obtain ⟨vs, hView, hAt⟩ := bind_eq_some_iff.mp hDefined
      exact .inr ⟨b, hGone, vs, hView, mem_of_getElem? hAt⟩

theorem Clipped.definedBy (hClipped : g.Clipped g' x doomed) (d : Definer)
    (v : ValueId) : g'.definedBy d = some v ↔
      ¬cutPlaces { y | y ∈ doomed } (g.heldBlocks { y | y ∈ doomed }) d ∧
        g.definedBy d = some v := by
  have hArgs := @Arena.Trims.view _ _ _ _ _ _ Block.args _ hClipped.blocks fun b blk => by
    split <;> rfl
  cases d with
  | result x i =>
    simp only [definedBy_result, bind_eq_some_iff, hClipped.ops.view, cutPlaces]
    tauto
  | argument b i =>
    simp only [definedBy_argument, bind_eq_some_iff, hArgs, cutPlaces]
    tauto

/- Places that are left, if what goes away is nested together. -/
theorem PlacesMatch.clipped (hMatch : g.PlacesMatch) (hClipped : g.Clipped g' x doomed)
    (hDoomed : ∀ y, y ∈ doomed ↔ g.Inside x y) : g'.PlacesMatch where
  ops := by
    have hNested : ∀ {c b}, g.blockOf c = some b → c ≠ x →
        (c ∈ doomed ↔ b ∈ g.heldBlocks { y | y ∈ doomed }) := by
      intro c b hPlace hOther
      rw [← hMatch.holder_iff hPlace, hDoomed]
      constructor
      · intro hInside
        cases hInside with
        | self => exact absurd rfl hOther
        | child hOuter hHolder => exact ⟨_, (hDoomed _).mpr hOuter, hHolder⟩
      · intro ⟨z, hOuter, hHolder⟩
        exact .child ((hDoomed z).mp hOuter) hHolder
    have hSelf : x ∈ doomed := (hDoomed x).mpr .self
    refine hMatch.ops.prune { y | y ∈ doomed } (g.heldBlocks { y | y ∈ doomed }) ?_ ?_ ?_ ?_
    · intro c b hPlace hKept
      exact mt (hNested hPlace fun hEq => hKept (hEq ▸ hSelf)).mpr hKept
    · intro c b
      simp only [blockOf, join_eq_some_iff, hClipped.ops.view]
    · intro b ys hAfter
      obtain ⟨blk', hGet, rfl⟩ := view_eq_some.mp hAfter
      obtain ⟨hStays, blk, hBefore, hBlock⟩ := (hClipped.blocks b blk').mp hGet
      have hView : g.blocks.view Block.ops b = some blk.ops :=
        view_eq_some.mpr ⟨blk, hBefore, rfl⟩
      have hOps : blk'.ops = blk.ops.filter (· ≠ x) := by
        subst hBlock
        dsimp only
        split
        next => rfl
        next hElsewhere =>
          refine (filter_eq_self.mpr fun c hMem => ?_).symm
          rw [hMatch.ops.mem_iff hView] at hMem
          simpa using fun hEq : c = x => hElsewhere (hEq ▸ hMem)
      refine ⟨blk.ops, hView, fun c => ⟨fun hGone hMem => ?_, fun hKept => ?_⟩⟩
      · obtain ⟨hListed, hOther⟩ := mem_filter.mp (hOps ▸ hMem)
        exact hStays ((hNested ((hMatch.ops.mem_iff hView).mp hListed) (by simpa using hOther)).mp
          hGone)
      · rw [hOps]
        exact count_filter (by simpa using fun hEq : c = x => hKept (hEq ▸ hSelf))
    · intro b ys hView hStays
      obtain ⟨blk, hBlock, rfl⟩ := view_eq_some.mp hView
      exact ⟨_, view_eq_some.mpr ⟨_, (hClipped.blocks b _).mpr ⟨hStays, blk, hBlock, rfl⟩, rfl⟩⟩
  blocks := hMatch.blocks.restrict _ _ (fun _ _ hHolder => hMatch.blocks.mem_within_iff hHolder)
    (hClipped.blocks.view fun b blk => by split <;> rfl) (hClipped.regions.view Region.blocks)
  regions := by
    refine hMatch.regions.restrict _ _ (fun _ _ hHolder => hMatch.regions.mem_within_iff hHolder) ?_
      (hClipped.ops.view Operation.regions)
    intro r x
    simp only [holderOf, join_eq_some_iff, hClipped.regions.view]
    rfl

/- Values that are left, if none that goes away is used. -/
theorem ValuesMatch.pruned (hMatch : g.ValuesMatch) (hPruned : g.Pruned g' x doomed)
    (hUses : ∀ {d v}, g.operandAt d = some v → d.op ∉ doomed →
      v ∉ g.definedIn { y | y ∈ doomed } (g.heldBlocks { y | y ∈ doomed })) : g'.ValuesMatch where
  uses := by
    refine hMatch.uses.prune { d | d.op ∈ doomed } _ hUses ?_ ?_ ?_
    · intro d v
      simp only [operandAt, bind_eq_some_iff, hPruned.ops.view, Set.mem_ofPred_eq]
      tauto
    · intro v us hView
      obtain ⟨_, hGet, rfl⟩ := view_eq_some.mp hView
      obtain ⟨_, val, hBefore, rfl⟩ := (hPruned.values v _).mp hGet
      refine ⟨val.uses, view_eq_some.mpr ⟨val, hBefore, rfl⟩, fun d => ⟨fun hGone => ?_, ?_⟩⟩
      · simp [show d.op ∈ doomed from hGone]
      · exact fun hKept => count_filter (by simpa using hKept)
    · intro v us hView hStays
      obtain ⟨val, hValue, rfl⟩ := view_eq_some.mp hView
      exact ⟨_, view_eq_some.mpr ⟨_, (hPruned.values v _).mpr ⟨hStays, val, hValue, rfl⟩, rfl⟩⟩
  definers v d := by
    rw [hPruned.values.view fun _ _ => rfl, hPruned.definedBy, hMatch.definers]
    exact and_congr_left fun hDefined => not_congr (hMatch.mem_cut_iff hDefined)

end Graph

/- What is defined inside an operation is used only there. -/
structure Graph.Sealed (g : Graph) (x : OpId) : Prop where
  result {y : OpId} {o : Operation} {v : ValueId} {val : Value}
    (hInside : g.Inside x y) (hOther : y ≠ x) (hOp : g.op y = .ok o) (hMem : v ∈ o.results)
    (hValue : g.value v = .ok val) : ∀ d ∈ val.uses, g.Inside x d.op
  argument {y : OpId} {o : Operation} {r : RegionId} {reg : Region}
    {b : BlockId} {blk : Block} {v : ValueId} {val : Value}
    (hInside : g.Inside x y)
    (hOp : g.op y = .ok o) (hHeld : r ∈ o.regions)
    (hRegion : g.region r = .ok reg) (hListed : b ∈ reg.blocks)
    (hBlock : g.block b = .ok blk) (hMem : v ∈ blk.args)
    (hValue : g.value v = .ok val) : ∀ d ∈ val.uses, g.Inside x d.op

namespace Graph

variable {g : Graph} {x : OpId}

/- What is left does not use what goes away. -/
theorem Sealed.not_mem {d : Use} {v : ValueId} (hSealed : g.Sealed x) (hMatch : g.ValuesMatch)
    (hFree : ∃ o, g.op x = .ok o ∧ ∀ v ∈ o.results, g.hasUses v = .ok false)
    (hOperand : g.operandAt d = some v) (hOutside : ¬g.Inside x d.op) :
    v ∉ g.definedIn { y | g.Inside x y } (g.heldBlocks { y | g.Inside x y }) := by
  obtain ⟨us, hView⟩ := hMatch.uses.live hOperand
  obtain ⟨val, hGet, rfl⟩ := Arena.view_eq_some.mp hView
  have hUse := (hMatch.uses.mem_iff hView).mpr hOperand
  have hValue : g.value v = .ok val := Arena.get_eq_ok_iff.mpr hGet
  rintro (⟨y, hInside, vs, hResults, hMem⟩ |
    ⟨b, ⟨r, ⟨y, hInside, rs, hHeld, hRegion⟩, bs, hLists, hBlock⟩, vs, hArgs, hMem⟩)
  · obtain ⟨o, hOp, rfl⟩ := Arena.view_eq_some.mp hResults
    by_cases hSame : y = x
    · -- A result of the operation itself is not used at all.
      subst hSame
      obtain ⟨o', hOp', hUnused⟩ := hFree
      cases (Arena.get_eq_ok_iff.mpr hOp).symm.trans hOp'
      have hNone := hUnused v hMem
      unfold hasUses at hNone
      simp only [hValue, bind, Except.bind, pure, Except.pure, Except.ok.injEq,
        Bool.not_eq_eq_eq_not, Bool.not_false, List.isEmpty_iff] at hNone
      rw [hNone] at hUse
      cases hUse
    · exact hOutside (hSealed.result hInside hSame (Arena.get_eq_ok_iff.mpr hOp) hMem hValue d hUse)
  · obtain ⟨o, hOp, rfl⟩ := Arena.view_eq_some.mp hHeld
    obtain ⟨reg, hReg, rfl⟩ := Arena.view_eq_some.mp hLists
    obtain ⟨blk, hBlk, rfl⟩ := Arena.view_eq_some.mp hArgs
    exact hOutside (hSealed.argument hInside (Arena.get_eq_ok_iff.mpr hOp) hRegion
      (Arena.get_eq_ok_iff.mpr hReg) hBlock (Arena.get_eq_ok_iff.mpr hBlk) hMem hValue d hUse)

end Graph

theorem Edit.coherent_erase {g g' : Graph} {u : Unit} {x : OpId}
    (hRun : (erase x).run g = .ok (u, g')) (hSealed : g.Sealed x)
    (hCoherent : g.Coherent) : g'.Coherent := by
  obtain ⟨doomed, hDoomed, hFree, hClipped, hPruned⟩ := clipped_erase hRun
  refine ⟨hCoherent.values.pruned (hPruned hCoherent.values) fun {d v} hOperand hKept => ?_,
    hCoherent.places.clipped hClipped hDoomed⟩
  simp only [hDoomed] at hKept ⊢
  exact hSealed.not_mem hCoherent.values hFree hOperand hKept

end AffineIR
