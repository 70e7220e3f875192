import AffineIR.Proofs.Graph.Links

/-
  Edits keep the links of a graph.

  Construction, placement and changes of operands each touch
  both ends of the links that they make or break.  Each edit is
  described once, by what it changes, and keeps the links of
  values, the links of places, or both.

  Main declarations:
    * `Edit.coherent_setOperand`, `Edit.coherent_replaceUses`
-/

namespace AffineIR

open Answer List Arena

variable {o o' : Operation} {x : OpId} {i n : Nat} {blk : Block} {b : BlockId}
  {new old source target v : ValueId} {val val' : Value} {r : RegionId} {holder : Option OpId}
  {args results tys : List Ty}

/- An entry behind the others. -/
theorem getElem?_concat {α : Type} (xs : List α) (x : α)
    (i : Nat) : (xs ++ [x])[i]? = if i = xs.length then some x else xs[i]? := by
  grind

/- What is new and has nothing to show is as good as not there. -/
theorem Arena.view_push_bind {tag : String} {α β γ : Type} (a : Arena tag α) {y : α}
    {part : α → β} {k : β → Option γ} (hNone : k (part y) = none) (h : Handle tag) :
    ((a.push y).view part h).bind k = (a.view part h).bind k := by
  rw [view_push]
  by_cases hNew : h = a.next
  · rw [if_pos hNew, hNew, view_next]
    exact hNone
  · rw [if_neg hNew]

------
-- New entities
------

namespace Graph

variable {g g' : Graph}

/- Two graphs place everything alike. -/
structure SamePlaces (g g' : Graph) : Prop where
  parents : g'.ops.view Operation.parent = g.ops.view Operation.parent
  held : g'.ops.view Operation.regions = g.ops.view Operation.regions
  listed : g'.blocks.view Block.ops = g.blocks.view Block.ops
  homes : g'.blocks.view Block.parent = g.blocks.view Block.parent
  regions : g'.regions = g.regions

theorem SamePlaces.refl (g : Graph) : g.SamePlaces g := ⟨rfl, rfl, rfl, rfl, rfl⟩

theorem SamePlaces.trans {g₁ g₂ g₃ : Graph} (hFirst : g₁.SamePlaces g₂)
    (hSecond : g₂.SamePlaces g₃) : g₁.SamePlaces g₃ where
  parents := hSecond.parents.trans hFirst.parents
  held := hSecond.held.trans hFirst.held
  listed := hSecond.listed.trans hFirst.listed
  homes := hSecond.homes.trans hFirst.homes
  regions := hSecond.regions.trans hFirst.regions

theorem SamePlaces.setOp (hOp : g.ops.get? x = some o) (hOps : g'.ops = g.ops.set x o')
    (hBlocks : g'.blocks = g.blocks) (hRegions : g'.regions = g.regions)
    (hParent : o'.parent = o.parent) (hHeld : o'.regions = o.regions) : g.SamePlaces g' where
  parents := by rw [hOps, view_set_eq hOp hParent]
  held := by rw [hOps, view_set_eq hOp hHeld]
  listed := by rw [hBlocks]
  homes := by rw [hBlocks]
  regions := hRegions

theorem PlacesMatch.congr (hMatch : g.PlacesMatch) (hSame : g.SamePlaces g') : g'.PlacesMatch where
  ops := hMatch.ops.congr (blockOf_congr hSame.parents) hSame.listed
  blocks := hMatch.blocks.congr hSame.homes (by rw [hSame.regions])
  regions := hMatch.regions.congr (holderOf_congr (by rw [hSame.regions])) hSame.held

/- A value that is defined anew, at a place that defined nothing. -/
theorem ValuesMatch.define (hMatch : g.ValuesMatch) (val : Value) (hUnused : val.uses = [])
    (hFree : g.definedBy val.definer = none) (hOperands : g'.operandAt = g.operandAt)
    (hValues : g'.values = g.values.push val)
    (hDefined : ∀ d, g'.definedBy d =
      if d = val.definer then some g.values.next else g.definedBy d) :
    g'.ValuesMatch where
  uses := by
    rw [hOperands, hValues]
    refine hMatch.uses.new (view_next ..) fun v => ?_
    rw [view_push, hUnused]
  definers v d := by
    have hFresh : ∀ d, g.definedBy d ≠ some g.values.next := fun d hSome => by
      have hThere := (hMatch.definers _ d).mpr hSome
      rw [view_next] at hThere
      cases hThere
    rw [hValues, view_push, hDefined]
    by_cases hNew : v = g.values.next
    · subst hNew
      by_cases hHere : d = val.definer
      · simp [hHere]
      · simp [hHere, Ne.symm hHere, hFresh d]
    · rw [if_neg hNew, hMatch.definers]
      by_cases hHere : d = val.definer
      · rw [if_pos hHere, hHere, hFree]
        simp [Ne.symm hNew]
      · rw [if_neg hHere]

theorem ValuesMatch.newOp (hMatch : g.ValuesMatch) (kind : Kind) (successors : List BlockId) :
    ({ g with ops := g.ops.push { kind, successors } } : Graph).ValuesMatch := by
  refine hMatch.congr (funext fun u => g.ops.view_push_bind rfl u.op) (funext fun d => ?_) rfl
  cases d with
  | argument b i => rfl
  | result x i => exact g.ops.view_push_bind rfl x

theorem PlacesMatch.newOp (hMatch : g.PlacesMatch) (kind : Kind) (successors : List BlockId) :
    ({ g with ops := g.ops.push { kind, successors } } : Graph).PlacesMatch where
  ops := by
    have hSame :
        ({ g with ops := g.ops.push { kind, successors } } : Graph).blockOf = g.blockOf := by
      funext x
      unfold blockOf
      rw [← Option.bind_id_eq_join, ← Option.bind_id_eq_join, g.ops.view_push_bind rfl x]
    rw [hSame]
    exact hMatch.ops
  blocks := hMatch.blocks
  regions := hMatch.regions.new (view_next ..) (view_push _ _ _)

theorem ValuesMatch.newBlock (hMatch : g.ValuesMatch)
    (r : RegionId) : ({ g with blocks := g.blocks.push { parent := r } } : Graph).ValuesMatch := by
  refine hMatch.congr rfl ?_ rfl
  funext d
  cases d with
  | result x i => rfl
  | argument b i => exact g.blocks.view_push_bind rfl b

/- A result behind those that an operation has. -/
theorem ValuesMatch.addResult (hMatch : g.ValuesMatch) (hOp : g.ops.get? x = some o) (ty : Ty) :
    ({ g with
        values := g.values.push { ty, definer := .result x o.results.length }
        ops := g.ops.set x
          { o with results := o.results ++ [g.values.next] } } : Graph).ValuesMatch := by
  refine hMatch.define { ty, definer := .result x o.results.length } rfl ?_ (operandAt_congr (view_set_eq hOp rfl)) rfl ?_
  · simp [definedBy, Arena.view, hOp]
  · intro d
    cases d with
    | argument b i => simp [definedBy]
    | result y i =>
      simp only [definedBy, view_set hOp, Definer.result.injEq]
      by_cases hSame : y = x
      · subst hSame
        simp [Arena.view, hOp, getElem?_concat]
      · simp [hSame]

/- An argument behind those that a block has. -/
theorem ValuesMatch.addArgument (hMatch : g.ValuesMatch) (hBlock : g.blocks.get? b = some blk)
    (ty : Ty) :
    ({ g with
        values := g.values.push { ty, definer := .argument b blk.args.length }
        blocks := g.blocks.set b
          { blk with args := blk.args ++ [g.values.next] } } : Graph).ValuesMatch := by
  refine hMatch.define { ty, definer := .argument b blk.args.length } rfl ?_ rfl rfl ?_
  · simp [definedBy, Arena.view, hBlock]
  · intro d
    cases d with
    | result y i => simp [definedBy]
    | argument c i =>
      simp only [definedBy, view_set hBlock, Definer.argument.injEq]
      by_cases hSame : c = b
      · subst hSame
        simp [Arena.view, hBlock, getElem?_concat]
      · simp [hSame]

/- An operand behind those that an operation has. -/
theorem ValuesMatch.addOperand (hMatch : g.ValuesMatch) (hOp : g.ops.get? x = some o)
    (hValue : g.values.get? v = some val) :
    ({ g with
        values := g.values.set v
          { val with uses := val.uses ++ [⟨x, o.operands.length⟩] }
        ops := g.ops.set x
          { o with operands := o.operands ++ [v] } } : Graph).ValuesMatch := by
  refine hMatch.rewire ?_ (view_set_eq hValue rfl)
    (definedBy_congr (view_set_eq hOp rfl) rfl)
  refine hMatch.uses.add (c := ⟨x, o.operands.length⟩) (p := v) ?_
    (view_eq_some.mpr ⟨val, hValue, rfl⟩)
    (perm_append_singleton ..) ?_ (view_set hValue _)
  · simp [operandAt, Arena.view, hOp]
  · intro d
    simp only [operandAt, view_set hOp]
    by_cases hSame : d.op = x
    · have hPlace : d = ⟨x, o.operands.length⟩ ↔ d.operand = o.operands.length := by
        rw [← hSame]
        exact ⟨fun hEq => by rw [hEq], fun hEq => by rw [← hEq]⟩
      simp [hSame, Arena.view, hOp, getElem?_concat, hPlace]
    · have hPlace : d ≠ ⟨x, o.operands.length⟩ := fun hEq => hSame (by rw [hEq])
      simp [hSame, hPlace]

/- A region of an operation, or one of its own. -/
theorem PlacesMatch.newRegion (hMatch : g.PlacesMatch) (hOps : g'.blockOf = g.blockOf)
    (hBlocks : g'.blocks = g.blocks) (hRegions : g'.regions = g.regions.push { parent := holder })
    (hHeld : match holder with
      | none => g'.ops = g.ops
      | some x => ∃ held, g.ops.view Operation.regions x = some held ∧
          ∀ y, g'.ops.view Operation.regions y =
            if y = x then some (held ++ [g.regions.next])
            else g.ops.view Operation.regions y) : g'.PlacesMatch where
  ops := by
    rw [hOps, hBlocks]
    exact hMatch.ops
  blocks := by
    rw [hBlocks, hRegions]
    exact hMatch.blocks.new (view_next ..) (view_push _ _ _)
  regions := by
    have hFree : g.holderOf g.regions.next = none := by
      unfold holderOf
      rw [view_next]
      rfl
    have hHolder : ∀ r, g'.holderOf r = if r = g.regions.next then holder else g.holderOf r := by
      intro r
      unfold holderOf
      rw [hRegions, view_push]
      by_cases hNew : r = g.regions.next
      · rw [if_pos hNew, if_pos hNew]
        rfl
      · rw [if_neg hNew, if_neg hNew]
    cases holder with
    | none =>
      have hSame : g'.holderOf = g.holderOf := by
        funext r
        rw [hHolder]
        by_cases hNew : r = g.regions.next
        · rw [if_pos hNew, hNew, hFree]
        · rw [if_neg hNew]
      rw [hSame, hHeld]
      exact hMatch.regions
    | some x =>
      obtain ⟨held, hHere, hLists⟩ := hHeld
      exact hMatch.regions.add hFree hHere (perm_append_singleton ..) hHolder hLists

/- A block that a region lists from now on. -/
theorem PlacesMatch.newBlock {reg : Region} (hMatch : g.PlacesMatch)
    (hRegion : g.regions.get? r = some reg) (hOps : g'.ops = g.ops)
    (hListed : ∀ b, g'.blocks.view Block.ops b =
      if b = g.blocks.next then some [] else g.blocks.view Block.ops b)
    (hHomes : ∀ b, g'.blocks.view Block.parent b =
      if b = g.blocks.next then some r else g.blocks.view Block.parent b)
    (hRegions : g'.regions = g.regions.set r
      { reg with blocks := reg.blocks ++ [g.blocks.next] }) :
    g'.PlacesMatch where
  ops := by
    unfold blockOf
    rw [hOps]
    exact hMatch.ops.new (view_next ..) hListed
  blocks := by
    rw [hRegions]
    exact hMatch.blocks.add (view_next ..) (view_eq_some.mpr ⟨reg, hRegion, rfl⟩)
      (perm_append_singleton ..) hHomes (view_set hRegion _)
  regions := by
    refine hMatch.regions.congr (holderOf_congr ?_) (by rw [hOps])
    rw [hRegions]
    exact view_set_eq hRegion rfl

/- An operation without a place gets one. -/
theorem PlacesMatch.place {ys : List OpId} (hMatch : g.PlacesMatch) (hOp : g.ops.get? x = some o)
    (hFree : o.parent = none) (hBlock : g.blocks.get? b = some blk)
    (hMore : ys.Perm (x :: blk.ops)) :
    ({ g with
        blocks := g.blocks.set b { blk with ops := ys }
        ops := g.ops.set x { o with parent := some b } } : Graph).PlacesMatch where
  ops := by
    refine hMatch.ops.add ?_ (view_eq_some.mpr ⟨blk, hBlock, rfl⟩) hMore
      (blockOf_set hOp rfl) (view_set hBlock _)
    simp [blockOf, Arena.view, hOp, hFree]
  blocks := hMatch.blocks.congr (view_set_eq hBlock rfl) rfl
  regions := hMatch.regions.congr rfl (view_set_eq hOp rfl)

/- An operation leaves its place. -/
theorem PlacesMatch.detach (hMatch : g.PlacesMatch) (hOp : g.ops.get? x = some o)
    (hParent : o.parent = some b) (hBlock : g.blocks.get? b = some blk) :
    ({ g with
        ops := g.ops.set x { o with parent := none }
        blocks := g.blocks.set b
          { blk with ops := blk.ops.filter (· ≠ x) } } : Graph).PlacesMatch where
  ops := by
    refine hMatch.ops.remove (view_eq_some.mpr ⟨blk, hBlock, rfl⟩) ?_
      (blockOf_set hOp rfl) (view_set hBlock _)
    simp [blockOf, Arena.view, hOp, hParent]
  blocks := hMatch.blocks.congr (view_set_eq hBlock rfl) rfl
  regions := hMatch.regions.congr rfl (view_set_eq hOp rfl)

/- The operands after one of them is replaced. -/
theorem operandAt_set (hOp : g.ops.get? x = some o) (hOld : o.operands[i]? = some old) (d : Use) :
    ({ g with
        ops := g.ops.set x
          { o with operands := o.operands.set i new } } : Graph).operandAt d =
      if d = ⟨x, i⟩ then some new else g.operandAt d := by
  have hIn : i < o.operands.length := (List.getElem?_eq_some_iff.mp hOld).1
  simp only [operandAt, view_set hOp]
  by_cases hSame : d.op = x
  · have hPlace : d = ⟨x, i⟩ ↔ d.operand = i := by
      rw [← hSame]
      exact ⟨fun hEq => by rw [hEq], fun hEq => by rw [← hEq]⟩
    by_cases hHere : d.operand = i
    · simp [hSame, hPlace, hHere, hIn]
    · simp [hSame, hPlace, hHere, Ne.symm hHere, Arena.view, hOp]
  · have hPlace : d ≠ ⟨x, i⟩ := fun hEq => hSame (by rw [hEq])
    simp [hSame, hPlace]

/- An operand position changes its value. -/
theorem ValuesMatch.setOperand (hMatch : g.ValuesMatch) (hOp : g.ops.get? x = some o)
    (hOld : o.operands[i]? = some old) (hValue : g.values.get? old = some val)
    (hValue' : (g.values.set old
      { val with uses := val.uses.filter (· ≠ ⟨x, i⟩) }).get? new = some val') :
    ({ g with
        values := (g.values.set old
          { val with uses := val.uses.filter (· ≠ ⟨x, i⟩) }).set new
          { val' with uses := val'.uses ++ [⟨x, i⟩] }
        ops := g.ops.set x
          { o with operands := o.operands.set i new } } : Graph).ValuesMatch := by
  refine hMatch.rewire ?_ (Eq.trans (view_set_eq hValue' (by rfl))
      (view_set_eq hValue (by rfl))) (definedBy_congr (view_set_eq hOp rfl) rfl)
  -- The position has no value between the two steps.
  have hBetween :
      Links (fun d => if d = ⟨x, i⟩ then none else g.operandAt d) ((g.values.set old
          { val with uses := val.uses.filter (· ≠ ⟨x, i⟩) }).view Value.uses) :=
    hMatch.uses.remove (c := ⟨x, i⟩) (view_eq_some.mpr ⟨val, hValue, rfl⟩)
      (by simp [operandAt, Arena.view, hOp, hOld]) (fun _ => rfl) (view_set hValue _)
  refine hBetween.add (c := ⟨x, i⟩) (by simp) (view_eq_some.mpr ⟨val', hValue', rfl⟩)
    (perm_append_singleton ..) ?_ (view_set hValue' _)
  intro d
  refine (operandAt_set hOp hOld d).trans ?_
  by_cases hHere : d = ⟨x, i⟩ <;> simp [hHere]

/- All uses of a value become uses of another one. -/
theorem ValuesMatch.replaceUses (hMatch : g.ValuesMatch) (hOther : source ≠ target)
    (hSource : g.values.get? source = some val) (hTarget : g.values.get? target = some val')
    (hOperands : ∀ u, g'.operandAt u =
      if u ∈ val.uses then some target else g.operandAt u)
    (hDefined : g'.definedBy = g.definedBy)
    (hValues : ∀ v, g'.values.get? v =
      if v = target then some { val' with uses := val'.uses ++ val.uses }
      else if v = source then some { val with uses := [] }
      else g.values.get? v) : g'.ValuesMatch := by
  have hView : g.values.view Value.uses source = some val.uses :=
    view_eq_some.mpr ⟨val, hSource, rfl⟩
  refine hMatch.rewire ?_ ?_ hDefined
  · refine hMatch.uses.redirect hOther hView (view_eq_some.mpr ⟨val', hTarget, rfl⟩) ?_ ?_
    · intro u
      rw [hOperands]
      simp only [hMatch.uses.mem_iff hView]
    · intro v
      unfold Arena.view
      rw [hValues]
      split <;> [rfl; split <;> rfl]
  · funext v
    unfold Arena.view
    rw [hValues]
    by_cases hLast : v = target
    · rw [if_pos hLast, hLast, hTarget]
      rfl
    · rw [if_neg hLast]
      by_cases hFirst : v = source
      · rw [if_pos hFirst, hFirst, hSource]
        rfl
      · rw [if_neg hFirst]

end Graph

------
-- Runs
------

namespace Edit

open AffineIR.Graph

variable {g g' : Graph} {u : Unit} {y : OpId}

theorem coherent_createRegion (hRun : (createRegion holder).run g = .ok (r, g'))
    (hCoherent : g.Coherent) : g'.Coherent := by
  unfold createRegion at hRun
  obtain ⟨_, g₁, hNew, hRun⟩ := run_bind_eq_ok.mp hRun
  cases hNew
  cases holder with
  | none =>
    obtain ⟨-, rfl⟩ := run_pure_eq_ok.mp hRun
    exact ⟨hCoherent.values.congr rfl rfl rfl, hCoherent.places.newRegion rfl rfl rfl rfl⟩
  | some x =>
    obtain ⟨_, g₂, hHold, hRun⟩ := run_bind_eq_ok.mp hRun
    obtain ⟨-, rfl⟩ := run_pure_eq_ok.mp hRun
    obtain ⟨o, hOp, rfl⟩ := eq_of_modifyOp hHold
    constructor
    · exact hCoherent.values.congr (operandAt_congr (view_set_eq hOp rfl))
        (definedBy_congr (view_set_eq hOp rfl) rfl) rfl
    · exact hCoherent.places.newRegion (blockOf_congr (view_set_eq hOp rfl)) rfl rfl
        ⟨o.regions, view_eq_some.mpr ⟨o, hOp, rfl⟩, view_set hOp _⟩

/- The arguments of a block are added one by one. -/
theorem match_addArguments
    (hRun : ((tys.zipIdx n).forM fun (ty, index) => do
      let arg ← newValue { ty := ty, definer := .argument b index }
      modifyBlock b fun blk => { blk with args := blk.args ++ [arg] }).run g = .ok (u, g'))
    (hMatch : g.ValuesMatch)
    (hBlock : g.blocks.get? b = some blk)
    (hLength : blk.args.length = n) : g'.ValuesMatch ∧ g.SamePlaces g' ∧ g'.ops = g.ops := by
  induction tys generalizing g n blk with
  | nil =>
    obtain ⟨-, rfl⟩ := run_pure_eq_ok.mp hRun
    exact ⟨hMatch, .refl g, rfl⟩
  | cons ty tys ih =>
    rw [zipIdx_cons] at hRun
    obtain ⟨_, g₁, hFirst, hRun⟩ := run_bind_eq_ok.mp hRun
    obtain ⟨_, g₀, hNew, hModify⟩ := run_bind_eq_ok.mp hFirst
    cases hNew
    obtain ⟨blk', hSame, rfl⟩ := eq_of_modifyBlock hModify
    cases hBlock.symm.trans hSame
    subst hLength
    rcases ih hRun (hMatch.addArgument hBlock ty)
      (Arena.get?_set hBlock b |>.trans (if_pos rfl)) (by simp) with ⟨hMatch', hPlaces, hOps⟩
    refine ⟨hMatch', .trans ?_ hPlaces, hOps⟩
    exact ⟨rfl, rfl, view_set_eq hBlock rfl, view_set_eq hBlock rfl, rfl⟩

theorem coherent_createBlock (hRun : (createBlock r args).run g = .ok (b, g'))
    (hCoherent : g.Coherent) : g'.Coherent := by
  unfold createBlock at hRun
  obtain ⟨_, g₁, hNew, hRun⟩ := run_bind_eq_ok.mp hRun
  cases hNew
  obtain ⟨_, g₂, hArgs, hRun⟩ := run_bind_eq_ok.mp hRun
  obtain ⟨_, g₃, hModify, hRun⟩ := run_bind_eq_ok.mp hRun
  obtain ⟨-, rfl⟩ := run_pure_eq_ok.mp hRun
  rcases match_addArguments hArgs (hCoherent.values.newBlock r)
    (Arena.get?_push .. |>.trans (if_pos rfl)) rfl with ⟨hMatch, hPlaces, hOps⟩
  obtain ⟨reg, hRegion, rfl⟩ := eq_of_modifyRegion hModify
  constructor
  · exact hMatch.congr rfl rfl rfl
  · have hBefore : g.regions.get? r = some reg := by
      rwa [hPlaces.regions] at hRegion
    refine hCoherent.places.newBlock hBefore hOps ?_ ?_ ?_
    · rw [hPlaces.listed]
      exact view_push _ _ _
    · rw [hPlaces.homes]
      exact view_push _ _ _
    · rw [hPlaces.regions]

/- The results of an operation are added one by one. -/
theorem match_addResults
    (hRun : ((tys.zipIdx n).forM fun (ty, index) => do
      let result ← newValue { ty := ty, definer := .result x index }
      modifyOp x fun o => { o with results := o.results ++ [result] }).run g = .ok (u, g'))
    (hMatch : g.ValuesMatch)
    (hOp : g.ops.get? x = some o)
    (hLength : o.results.length = n) :
    g'.ValuesMatch ∧ g.SamePlaces g' ∧
      ∃ o', g'.ops.get? x = some o' ∧ o'.operands = o.operands := by
  induction tys generalizing g n o with
  | nil =>
    obtain ⟨-, rfl⟩ := run_pure_eq_ok.mp hRun
    exact ⟨hMatch, .refl g, o, hOp, rfl⟩
  | cons ty tys ih =>
    rw [zipIdx_cons] at hRun
    obtain ⟨_, g₁, hFirst, hRun⟩ := run_bind_eq_ok.mp hRun
    obtain ⟨_, g₀, hNew, hModify⟩ := run_bind_eq_ok.mp hFirst
    cases hNew
    obtain ⟨o', hSame, rfl⟩ := eq_of_modifyOp hModify
    cases hOp.symm.trans hSame
    subst hLength
    rcases ih hRun (hMatch.addResult hOp ty)
      (Arena.get?_set hOp x |>.trans (if_pos rfl)) (by simp) with ⟨hMatch', hPlaces, hKept⟩
    refine ⟨hMatch', .trans ?_ hPlaces, hKept⟩
    exact .setOp hOp rfl rfl rfl rfl rfl

/- The operands of an operation are added one by one. -/
theorem match_addOperands {vs : List ValueId}
    (hRun : ((vs.zipIdx n).forM fun (value, operand) => do
      modifyValue value fun v => { v with uses := v.uses ++ [(⟨x, operand⟩ : Use)] }
      modifyOp x fun o => { o with operands := o.operands ++ [value] }).run g = .ok (u, g'))
    (hMatch : g.ValuesMatch)
    (hOp : g.ops.get? x = some o)
    (hLength : o.operands.length = n) : g'.ValuesMatch ∧ g.SamePlaces g' := by
  induction vs generalizing g n o with
  | nil =>
    obtain ⟨-, rfl⟩ := run_pure_eq_ok.mp hRun
    exact ⟨hMatch, .refl g⟩
  | cons v vs ih =>
    rw [zipIdx_cons] at hRun
    obtain ⟨_, g₁, hFirst, hRun⟩ := run_bind_eq_ok.mp hRun
    obtain ⟨_, g₀, hUse, hModify⟩ := run_bind_eq_ok.mp hFirst
    obtain ⟨val, hValue, rfl⟩ := eq_of_modifyValue hUse
    obtain ⟨o', hSame, rfl⟩ := eq_of_modifyOp hModify
    replace hSame : g.ops.get? x = some o' := hSame
    cases hOp.symm.trans hSame
    subst hLength
    rcases ih hRun (hMatch.addOperand hSame hValue)
      (Arena.get?_set hSame x |>.trans (if_pos rfl)) (by simp) with ⟨hMatch', hPlaces⟩
    refine ⟨hMatch', .trans ?_ hPlaces⟩
    exact .setOp hSame rfl rfl rfl rfl rfl

theorem coherent_createOp {kind : Kind} {operands : List ValueId} {successors : List BlockId}
    (hRun : (createOp kind operands results successors).run g = .ok (x, g'))
    (hCoherent : g.Coherent) : g'.Coherent := by
  unfold createOp at hRun
  obtain ⟨_, g₁, hNew, hRun⟩ := run_bind_eq_ok.mp hRun
  cases hNew
  obtain ⟨_, g₂, hResults, hRun⟩ := run_bind_eq_ok.mp hRun
  obtain ⟨_, g₃, hOperands, hRun⟩ := run_bind_eq_ok.mp hRun
  obtain ⟨-, rfl⟩ := run_pure_eq_ok.mp hRun
  rcases match_addResults hResults (hCoherent.values.newOp kind successors)
    (Arena.get?_push .. |>.trans (if_pos rfl)) rfl with ⟨hMatch, hPlaces, o, hOp, hNone⟩
  obtain ⟨hMatch', hPlaces'⟩ := match_addOperands hOperands hMatch hOp (by simp [hNone])
  exact ⟨hMatch', (hCoherent.places.newOp kind successors).congr (hPlaces.trans hPlaces')⟩

theorem run_requireDetached_bind {k : Unit → Edit Unit}
    (hRun : (requireDetached x >>= k).run g = .ok (u, g')) :
    ∃ o, g.ops.get? x = some o ∧ o.parent = none ∧ (k ()).run g = .ok (u, g') := by
  obtain ⟨_, g₁, hRun, hRest⟩ := run_bind_eq_ok.mp hRun
  cases run_requireDetached hRun
  unfold requireDetached at hRun
  obtain ⟨o, hOp, hRun⟩ := Edit.run_ask_bind.mp hRun
  refine ⟨o, get_eq_ok_iff.mp hOp, ?_, hRest⟩
  split at hRun
  next => cases hRun
  next hNone => simpa using hNone

/- An operation that has no place is put into a block. -/
theorem coherent_place {k : List OpId → List OpId} (hRun : (place b x k).run g = .ok (u, g'))
    (hOp : g.ops.get? x = some o) (hFree : o.parent = none)
    (hMore : ∀ {blk}, g.blocks.get? b = some blk → (k blk.ops).Perm (x :: blk.ops))
    (hCoherent : g.Coherent) : g'.Coherent := by
  unfold place at hRun
  obtain ⟨_, g₁, hList, hName⟩ := run_bind_eq_ok.mp hRun
  obtain ⟨blk, hBlock, rfl⟩ := eq_of_modifyBlock hList
  obtain ⟨o', hSame, rfl⟩ := eq_of_modifyOp hName
  replace hSame : g.ops.get? x = some o' := hSame
  cases hOp.symm.trans hSame
  constructor
  · exact hCoherent.values.congr (operandAt_congr (view_set_eq hSame rfl))
      (definedBy_congr (view_set_eq hSame rfl) (view_set_eq hBlock rfl)) rfl
  · exact hCoherent.places.place hSame hFree hBlock (hMore hBlock)

theorem coherent_append (hRun : (append b x).run g = .ok (u, g'))
    (hCoherent : g.Coherent) : g'.Coherent := by
  unfold append at hRun
  obtain ⟨o, hOp, hFree, hPlace⟩ := run_requireDetached_bind hRun
  exact coherent_place hPlace hOp hFree (fun _ => perm_append_singleton ..) hCoherent

theorem coherent_prepend (hRun : (prepend b x).run g = .ok (u, g'))
    (hCoherent : g.Coherent) : g'.Coherent := by
  unfold prepend at hRun
  obtain ⟨o, hOp, hFree, hPlace⟩ := run_requireDetached_bind hRun
  exact coherent_place hPlace hOp hFree (fun _ => .refl _) hCoherent

/- The position of an operation is one of its block. -/
theorem position_lt (hParent : g.parentBlock y = .ok b) (hPosition : g.position y = .ok i)
    (hBlock : g.blocks.get? b = some blk) : i < blk.ops.length := by
  unfold Graph.position at hPosition
  obtain ⟨_, hParent', hPosition⟩ := bind_eq_ok.mp hPosition
  cases hParent.symm.trans hParent'
  obtain ⟨_, hBlock', hPosition⟩ := bind_eq_ok.mp hPosition
  cases (get_eq_ok_iff.mp hBlock').symm.trans hBlock
  split at hPosition
  next hIndex =>
    cases hPosition
    exact (List.idxOf?_eq_some_iff.mp hIndex).1
  next => cases hPosition

theorem coherent_insertBefore (hRun : (insertBefore y x).run g = .ok (u, g'))
    (hCoherent : g.Coherent) : g'.Coherent := by
  unfold insertBefore at hRun
  obtain ⟨o, hOp, hFree, hRun⟩ := run_requireDetached_bind hRun
  obtain ⟨_, hParent, hRun⟩ := Edit.run_ask_bind.mp hRun
  obtain ⟨_, hPosition, hPlace⟩ := Edit.run_ask_bind.mp hRun
  refine coherent_place hPlace hOp hFree (fun hBlock => ?_) hCoherent
  have hIn := position_lt hParent hPosition hBlock
  exact perm_insertIdx _ _ (by omega)

theorem coherent_insertAfter (hRun : (insertAfter y x).run g = .ok (u, g'))
    (hCoherent : g.Coherent) : g'.Coherent := by
  unfold insertAfter at hRun
  obtain ⟨o, hOp, hFree, hRun⟩ := run_requireDetached_bind hRun
  obtain ⟨_, hParent, hRun⟩ := Edit.run_ask_bind.mp hRun
  obtain ⟨_, hPosition, hPlace⟩ := Edit.run_ask_bind.mp hRun
  refine coherent_place hPlace hOp hFree (fun hBlock => ?_) hCoherent
  exact perm_insertIdx _ _ (position_lt hParent hPosition hBlock)

/- An operation without a place, or one that leaves its place. -/
theorem eq_of_detach (hRun : (detach x).run g = .ok (u, g')) :
    ∃ o, g.ops.get? x = some o ∧ ((o.parent = none ∧ g = g') ∨
        ∃ b blk, o.parent = some b ∧ g.blocks.get? b = some blk ∧
          { g with
            ops := g.ops.set x { o with parent := none }
            blocks := g.blocks.set b
              { blk with ops := blk.ops.filter (· ≠ x) } } = g') := by
  unfold detach at hRun
  obtain ⟨o, hOp, hRun⟩ := Edit.run_ask_bind.mp hRun
  refine ⟨o, get_eq_ok_iff.mp hOp, ?_⟩
  split at hRun
  next hNone => exact .inl ⟨hNone, (run_pure_eq_ok.mp hRun).2⟩
  next b hParent =>
    obtain ⟨_, g₁, hName, hList⟩ := run_bind_eq_ok.mp hRun
    obtain ⟨o', hOp', rfl⟩ := eq_of_modifyOp hName
    cases (get_eq_ok_iff.mp hOp).symm.trans hOp'
    obtain ⟨blk, hBlock, rfl⟩ := eq_of_modifyBlock hList
    exact .inr ⟨b, blk, hParent, hBlock, rfl⟩

theorem coherent_detach (hRun : (detach x).run g = .ok (u, g'))
    (hCoherent : g.Coherent) : g'.Coherent := by
  obtain ⟨o, hOp, ⟨-, rfl⟩ | ⟨b, blk, hParent, hBlock, rfl⟩⟩ := eq_of_detach hRun
  · exact hCoherent
  · constructor
    · exact hCoherent.values.congr (operandAt_congr (view_set_eq hOp rfl))
        (definedBy_congr (view_set_eq hOp rfl) (view_set_eq hBlock rfl)) rfl
    · exact hCoherent.places.detach hOp hParent hBlock

theorem coherent_setOperand (hRun : (setOperand x i v).run g = .ok (u, g'))
    (hCoherent : g.Coherent) : g'.Coherent := by
  unfold setOperand at hRun
  obtain ⟨old, hOld, hRun⟩ := Edit.run_ask_bind.mp hRun
  obtain ⟨o, hOp, hEntry⟩ := bind_eq_ok.mp hOld
  obtain ⟨_, g₁, hDrop, hRun⟩ := run_bind_eq_ok.mp hRun
  obtain ⟨_, g₂, hUse, hName⟩ := run_bind_eq_ok.mp hRun
  obtain ⟨val, hValue, rfl⟩ := eq_of_modifyValue hDrop
  obtain ⟨val', hValue', rfl⟩ := eq_of_modifyValue hUse
  obtain ⟨o', hOp', rfl⟩ := eq_of_modifyOp hName
  replace hOp' : g.ops.get? x = some o' := hOp'
  cases (get_eq_ok_iff.mp hOp).symm.trans hOp'
  constructor
  · exact hCoherent.values.setOperand hOp' (entryAt_eq_ok.mp hEntry) hValue hValue'
  · exact hCoherent.places.congr (.setOp hOp' rfl rfl rfl rfl rfl)

/- Operand positions are given another value, one by one. -/
theorem run_redirect {us : List Use}
    (hRun : (us.forM fun d => do
      let _ ← ask fun g => do entryAt (← g.op d.op).operands d.operand
      modifyOp d.op fun o =>
        { o with operands := o.operands.set d.operand v }).run g = .ok (u, g')) :
    (∀ d, g'.operandAt d = if d ∈ us then some v else g.operandAt d) ∧
      g'.definedBy = g.definedBy ∧ g.SamePlaces g' ∧ g'.values = g.values := by
  induction us generalizing g with
  | nil =>
    obtain ⟨-, rfl⟩ := run_pure_eq_ok.mp hRun
    exact ⟨fun _ => rfl, rfl, .refl g, rfl⟩
  | cons use us ih =>
    obtain ⟨_, g₁, hFirst, hRun⟩ := run_bind_eq_ok.mp hRun
    obtain ⟨old, hOld, hModify⟩ := Edit.run_ask_bind.mp hFirst
    obtain ⟨o, hOp, hEntry⟩ := bind_eq_ok.mp hOld
    obtain ⟨o', hSame, rfl⟩ := eq_of_modifyOp hModify
    cases (get_eq_ok_iff.mp hOp).symm.trans hSame
    obtain ⟨hOperands, hDefined, hPlaces, hValues⟩ := ih hRun
    refine ⟨fun d => ?_, hDefined.trans (definedBy_congr (view_set_eq hSame rfl) rfl),
      .trans ?_ hPlaces, hValues⟩
    case refine_2 => exact .setOp hSame rfl rfl rfl rfl rfl
    rw [hOperands, operandAt_set hSame (entryAt_eq_ok.mp hEntry)]
    by_cases hHere : d = use
    · simp [hHere]
    · simp [hHere]

theorem coherent_replaceUses (hRun : (replaceUses source target).run g = .ok (u, g'))
    (hCoherent : g.Coherent) : g'.Coherent := by
  unfold replaceUses at hRun
  split at hRun
  next hOther =>
    obtain ⟨val, hValue, hRun⟩ := Edit.run_ask_bind.mp hRun
    obtain ⟨_, g₁, hClear, hRun⟩ := run_bind_eq_ok.mp hRun
    obtain ⟨_, g₂, hRedirect, hTake⟩ := run_bind_eq_ok.mp hRun
    obtain ⟨val₁, hSame, rfl⟩ := eq_of_modifyValue hClear
    cases (get_eq_ok_iff.mp hValue).symm.trans hSame
    obtain ⟨hOperands, hDefined, hPlaces, hValues⟩ := run_redirect hRedirect
    obtain ⟨val', hTarget, rfl⟩ := eq_of_modifyValue hTake
    have hBefore := hTarget
    rw [hValues, Arena.get?_set hSame, if_neg (Ne.symm hOther)] at hBefore
    constructor
    · refine hCoherent.values.replaceUses hOther hSame hBefore hOperands hDefined ?_
      intro v
      rw [Arena.get?_set hTarget, hValues, Arena.get?_set hSame]
    · exact hCoherent.places.congr ⟨hPlaces.parents, hPlaces.held, hPlaces.listed, hPlaces.homes,
          hPlaces.regions⟩
  next =>
    obtain ⟨-, rfl⟩ := run_pure_eq_ok.mp hRun
    exact hCoherent

end Edit

end AffineIR
