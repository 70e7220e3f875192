import AffineIR.Function.Build
import AffineIR.Proofs.Graph.Scopes

/-
  What edits do to a graph.

  An edit that succeeds gives a graph that is described by what
  it answers to each question: the entity that was changed or
  made, and for all others the same answer as before.

  Main result: `Build.run_conditional`
-/

namespace AffineIR

open Answer List Graph

variable {anchor x : OpId} {b b' : BlockId} {o o' : Operation} {blk blk' blk₁ : Block}
  {after before : List OpId} {r : RegionId} {g g' g₁ g₂ g₃ : Graph} {operands vars : List ValueId}

------
-- Arenas
------

namespace Arena

variable {tag : String} {α : Type} {a a' : Arena tag α} {h : Handle tag} {x y : α}

theorem get?_push (a : Arena tag α) (x : α) (h : Handle tag) :
    (a.push x).get? h = if h = a.next then some x else a.get? h := by
  unfold get? push next
  rw [Array.getElem?_push]
  by_cases hIndex : h.index = a.slots.size
  · have hEq : h = ⟨a.slots.size⟩ := by
      cases h
      simpa using hIndex
    rw [if_pos hIndex, if_pos hEq]
    rfl
  · have hNe : h ≠ ⟨a.slots.size⟩ := by
      intro hEq
      exact hIndex (congrArg Handle.index hEq)
    rw [if_neg hIndex, if_neg hNe]

theorem get?_next (a : Arena tag α) : a.get? a.next = none := by
  unfold get? next
  rw [Array.getElem?_eq_none (Nat.le_refl _)]
  rfl

theorem get_push (a : Arena tag α) (x : α) (h : Handle tag) :
    (a.push x).get h = if h = a.next then .ok x else a.get h := by
  unfold get
  rw [get?_push]
  grind

theorem get_next (a : Arena tag α) : a.get a.next ≠ .ok x := by
  rw [Ne, get_eq_ok_iff, get?_next]
  simp

theorem get?_setIfInBounds (slots : Array (Option α)) (live live' : Nat) (slot : Option α)
    (hIndex : h.index < slots.size) (k : Handle tag) :
    (⟨slots.setIfInBounds h.index slot, live⟩ : Arena tag α).get? k =
      if k = h then slot else (⟨slots, live'⟩ : Arena tag α).get? k := by
  unfold get?
  simp only [Array.getElem?_setIfInBounds]
  by_cases hSame : k = h
  · subst hSame
    simp [hIndex]
  · have hOther : h.index ≠ k.index := fun hIndex =>
      hSame (by cases h; cases k; simpa using hIndex.symm)
    rw [if_neg hOther, if_neg hSame]

/- Changing an entity. -/
theorem get?_set (hGet : a.get? h = some x)
    (k : Handle tag) : (a.set h y).get? k = if k = h then some y else a.get? k := by
  unfold set
  rw [if_pos (contains_of_get? hGet)]
  exact get?_setIfInBounds _ _ _ _ (index_lt_of_get? hGet) k

theorem get_set (hGet : a.get? h = some x)
    (k : Handle tag) : (a.set h y).get k = if k = h then .ok y else a.get k := by
  unfold get
  rw [get?_set hGet]
  grind

theorem modify_eq_ok
    {k : α → α} : a.modify h k = .ok a' ↔ ∃ x, a.get? h = some x ∧ a.set h (k x) = a' := by
  unfold modify
  cases hGet : a.get h with
  | error e =>
    have hNone : ∀ x, a.get? h ≠ some x := fun x hSome => by
      cases (get_eq_ok_iff.mpr hSome).symm.trans hGet
    simp [hNone]
  | ok x => simp [get_eq_ok_iff.mp hGet]

end Arena

------
-- Single entities
------

/- Values keep their types, and their uses at least. -/
structure Graph.KeepsValues (g g' : Graph) : Prop where
  ty (v : ValueId) :
    (g'.values.get? v).map Value.ty = (g.values.get? v).map Value.ty
  uses {v : ValueId} {value : Value} (hValue : g.value v = .ok value) :
    ∃ value', g'.value v = .ok value' ∧ value.uses ⊆ value'.uses

theorem Graph.op_congr (hSame : g'.ops = g.ops) (x : OpId) : g'.op x = g.op x := by
  unfold Graph.op
  rw [hSame]

theorem Graph.block_congr (hSame : g'.blocks = g.blocks)
    (b : BlockId) : g'.block b = g.block b := by
  unfold Graph.block
  rw [hSame]

theorem Graph.region_congr (hSame : g'.regions = g.regions)
    (r : RegionId) : g'.region r = g.region r := by
  unfold Graph.region
  rw [hSame]

theorem Graph.KeepsValues.of_eq (hSame : g'.values = g.values) : g.KeepsValues g' where
  ty v := by rw [hSame]
  uses hValue := by
    unfold Graph.value at hValue ⊢
    rw [hSame]
    exact ⟨_, hValue, fun _ => id⟩

theorem Graph.KeepsValues.trans (hFirst : g₁.KeepsValues g₂)
    (hSecond : g₂.KeepsValues g₃) : g₁.KeepsValues g₃ where
  ty v := (hSecond.ty v).trans (hFirst.ty v)
  uses hValue := by
    obtain ⟨value₂, hValue₂, hSub₂⟩ := hFirst.uses hValue
    obtain ⟨value₃, hValue₃, hSub₃⟩ := hSecond.uses hValue₂
    exact ⟨value₃, hValue₃, fun _ hMem => hSub₃ (hSub₂ hMem)⟩

theorem Graph.KeepsValues.resultTy? (hKeeps : g.KeepsValues g')
    (o : Operation) : g'.resultTy? o = g.resultTy? o := by
  unfold Graph.resultTy?
  cases o.results[0]? with
  | none => rfl
  | some v => exact hKeeps.ty v

namespace Edit

variable {α : Type} {u : Unit}

theorem run_ask {question : Graph → Except Fault α}
    {a : α} : (ask question).run g = .ok (a, g') ↔ question g = .ok a ∧ g = g' := by
  unfold ask
  rw [run_bind_eq_ok]
  constructor
  · intro ⟨g₁, g₂, hGet, hAsk⟩
    cases hGet
    exact run_lift_eq_ok.mp hAsk
  · intro hAsk
    exact ⟨g, g, rfl, run_lift_eq_ok.mpr hAsk⟩

theorem run_ask_bind {β : Type} {question : Graph → Except Fault α} {k : α → Edit β} {c : β} :
    (ask question >>= k).run g = .ok (c, g') ↔
      ∃ a, question g = .ok a ∧ (k a).run g = .ok (c, g') := by
  rw [run_bind_eq_ok]
  constructor
  · rintro ⟨a, _, hAsk, hRest⟩
    obtain ⟨hAnswer, rfl⟩ := run_ask.mp hAsk
    exact ⟨a, hAnswer, hRest⟩
  · rintro ⟨a, hAnswer, hRest⟩
    exact ⟨a, g, run_ask.mpr ⟨hAnswer, rfl⟩, hRest⟩

/- One operation is changed or made, and nothing else. -/
structure SetsOp (g g' : Graph) (x : OpId) (o : Operation) : Prop where
  op (y : OpId) : g'.op y = if y = x then .ok o else g.op y
  blocks : g'.blocks = g.blocks
  regions : g'.regions = g.regions
  values : g.KeepsValues g'

/- One block is changed or made, and nothing else. -/
structure SetsBlock (g g' : Graph) (b : BlockId) (blk : Block) : Prop where
  block (c : BlockId) : g'.block c = if c = b then .ok blk else g.block c
  ops : g'.ops = g.ops
  regions : g'.regions = g.regions
  values : g.KeepsValues g'

/- One region is changed or made, and nothing else. -/
structure SetsRegion (g g' : Graph) (r : RegionId) (reg : Region) : Prop where
  region (s : RegionId) : g'.region s = if s = r then .ok reg else g.region s
  ops : g'.ops = g.ops
  blocks : g'.blocks = g.blocks
  values : g.KeepsValues g'

/- One part of the graph is replaced by what is computed from it. -/
theorem eq_of_update {compute : Graph → Except Fault α} {write : Graph → α → Graph}
    (hRun : (do
      let g ← get
      set (write g (← compute g)) : Edit Unit).run g = .ok (u, g')) :
    ∃ part, compute g = .ok part ∧ write g part = g' := by
  obtain ⟨_, _, hGet, hRun⟩ := run_bind_eq_ok.mp hRun
  cases hGet
  obtain ⟨part, hCompute, hSet⟩ := run_lift_bind_eq_ok.mp hRun
  cases hSet
  exact ⟨part, hCompute, rfl⟩

theorem eq_of_modifyOp {k : Operation → Operation} (hRun : (modifyOp x k).run g = .ok (u, g')) :
    ∃ o, g.ops.get? x = some o ∧ { g with ops := g.ops.set x (k o) } = g' := by
  obtain ⟨_, hModify, rfl⟩ := eq_of_update hRun
  obtain ⟨o, hOp, rfl⟩ := Arena.modify_eq_ok.mp hModify
  exact ⟨o, hOp, rfl⟩

theorem eq_of_modifyBlock {k : Block → Block} (hRun : (modifyBlock b k).run g = .ok (u, g')) :
    ∃ blk, g.blocks.get? b = some blk ∧ { g with blocks := g.blocks.set b (k blk) } = g' := by
  obtain ⟨_, hModify, rfl⟩ := eq_of_update hRun
  obtain ⟨blk, hBlock, rfl⟩ := Arena.modify_eq_ok.mp hModify
  exact ⟨blk, hBlock, rfl⟩

theorem eq_of_modifyRegion {k : Region → Region} (hRun : (modifyRegion r k).run g = .ok (u, g')) :
    ∃ reg, g.regions.get? r = some reg ∧ { g with regions := g.regions.set r (k reg) } = g' := by
  obtain ⟨_, hModify, rfl⟩ := eq_of_update hRun
  obtain ⟨reg, hRegion, rfl⟩ := Arena.modify_eq_ok.mp hModify
  exact ⟨reg, hRegion, rfl⟩

theorem eq_of_modifyValue {v : ValueId} {k : Value → Value}
    (hRun : (modifyValue v k).run g = .ok (u, g')) :
    ∃ val, g.values.get? v = some val ∧ { g with values := g.values.set v (k val) } = g' := by
  obtain ⟨_, hModify, rfl⟩ := eq_of_update hRun
  obtain ⟨val, hValue, rfl⟩ := Arena.modify_eq_ok.mp hModify
  exact ⟨val, hValue, rfl⟩

theorem run_modifyOp {k : Operation → Operation}
    (hRun : (modifyOp x k).run g = .ok (u, g')) : ∃ o, g.op x = .ok o ∧ SetsOp g g' x (k o) := by
  obtain ⟨o, hOp, rfl⟩ := eq_of_modifyOp hRun
  exact ⟨o, Arena.get_eq_ok_iff.mpr hOp, Arena.get_set hOp, rfl, rfl, .of_eq rfl⟩

theorem run_modifyBlock {k : Block → Block} (hRun : (modifyBlock b k).run g = .ok (u, g')) :
    ∃ blk, g.block b = .ok blk ∧ SetsBlock g g' b (k blk) := by
  obtain ⟨blk, hBlock, rfl⟩ := eq_of_modifyBlock hRun
  exact ⟨blk, Arena.get_eq_ok_iff.mpr hBlock, Arena.get_set hBlock, rfl, rfl, .of_eq rfl⟩

theorem run_modifyRegion {k : Region → Region} (hRun : (modifyRegion r k).run g = .ok (u, g')) :
    ∃ reg, g.region r = .ok reg ∧ SetsRegion g g' r (k reg) := by
  obtain ⟨reg, hRegion, rfl⟩ := eq_of_modifyRegion hRun
  exact ⟨reg, Arena.get_eq_ok_iff.mpr hRegion, Arena.get_set hRegion, rfl, rfl, .of_eq rfl⟩

theorem run_newOp
    (hRun : (newOp o).run g = .ok (x, g')) : (∀ o', g.op x ≠ .ok o') ∧ SetsOp g g' x o := by
  cases hRun
  exact ⟨fun _ => Arena.get_next g.ops, Arena.get_push g.ops o, rfl, rfl, .of_eq rfl⟩

theorem run_newBlock (hRun : (newBlock blk).run g = .ok (b, g')) :
    (∀ blk', g.block b ≠ .ok blk') ∧ SetsBlock g g' b blk := by
  cases hRun
  exact ⟨fun _ => Arena.get_next g.blocks, Arena.get_push g.blocks blk, rfl,
    rfl, .of_eq rfl⟩

theorem run_newRegion {reg : Region} (hRun : (newRegion reg).run g = .ok (r, g')) :
    (∀ reg', g.region r ≠ .ok reg') ∧ SetsRegion g g' r reg := by
  cases hRun
  exact ⟨fun _ => Arena.get_next g.regions, Arena.get_push g.regions reg, rfl,
    rfl, .of_eq rfl⟩

/- A use is recorded. -/
theorem run_addUse {v : ValueId} {use : Use}
    (hRun : (modifyValue v fun w => { w with uses := w.uses ++ [use] }).run g = .ok (u, g')) :
    g'.ops = g.ops ∧ g'.blocks = g.blocks ∧ g'.regions = g.regions ∧ g.KeepsValues g' := by
  obtain ⟨value, hValue, rfl⟩ := eq_of_modifyValue hRun
  refine ⟨rfl, rfl, rfl, ?_, ?_⟩
  · intro w
    rw [Arena.get?_set hValue]
    by_cases hSame : w = v
    · rw [if_pos hSame, hSame, hValue]
      rfl
    · rw [if_neg hSame]
  · intro w value' hValue'
    by_cases hSame : w = v
    · subst hSame
      cases hValue.symm.trans (Arena.get_eq_ok_iff.mp hValue')
      exact ⟨_, (Arena.get_set hValue w).trans (if_pos rfl), fun _ => mem_append_left _⟩
    · exact ⟨value', (Arena.get_set hValue w).trans ((if_neg hSame).trans hValue'), fun _ => id⟩

theorem SetsOp.trans (hFirst : SetsOp g₁ g₂ x o)
    (hSecond : SetsOp g₂ g₃ x o') : SetsOp g₁ g₃ x o' where
  op y := by
    rw [hSecond.op, hFirst.op]
    grind
  blocks := hSecond.blocks.trans hFirst.blocks
  regions := hSecond.regions.trans hFirst.regions
  values := hFirst.values.trans hSecond.values

/- Operands are given to an operation one after the other. -/
theorem run_addOperands {n : Nat} (hOp : g.op x = .ok o)
    (hRun : ((operands.zipIdx n).forM fun (value, operand) => do
      modifyValue value fun v => { v with uses := v.uses ++ [Use.mk x operand] }
      modifyOp x fun o => { o with operands := o.operands ++ [value] }).run g = .ok (u, g')) :
    SetsOp g g' x { o with operands := o.operands ++ operands } := by
  induction operands generalizing g o n with
  | nil =>
    cases hRun
    refine ⟨?_, rfl, rfl, .of_eq rfl⟩
    intro y
    by_cases hSame : y = x
    · subst hSame
      rw [if_pos rfl, append_nil, hOp]
    · rw [if_neg hSame]
  | cons v operands ih =>
    rw [zipIdx_cons, forM_eq_forM, forM_cons] at hRun
    obtain ⟨_, g₂, hFirst, hRest⟩ := run_bind_eq_ok.mp hRun
    obtain ⟨_, g₁, hUse, hModify⟩ := run_bind_eq_ok.mp hFirst
    obtain ⟨hOps, hBlocks, hRegions, hValues⟩ := run_addUse hUse
    obtain ⟨o', hOp', hSets⟩ := run_modifyOp hModify
    rw [op_congr hOps, hOp] at hOp'
    cases hOp'
    have hSets₁ : SetsOp g g₂ x { o with operands := o.operands ++ [v] } := by
      refine ⟨?_, hSets.blocks.trans hBlocks, hSets.regions.trans hRegions,
        hValues.trans hSets.values⟩
      intro y
      rw [hSets.op, op_congr hOps]
    have hOp₂ := (hSets₁.op x).trans (if_pos rfl)
    have hSets₂ := ih hOp₂ hRest
    simp only [append_assoc, singleton_append] at hSets₂
    exact hSets₁.trans hSets₂

/- A new operation without results. -/
theorem run_createOp {kind : Kind} (hRun : (createOp kind operands [] []).run g = .ok (x, g')) :
    (∀ o, g.op x ≠ .ok o) ∧ SetsOp g g' x { kind := kind, operands := operands } := by
  unfold createOp at hRun
  obtain ⟨x', g₁, hNew, hRun⟩ := run_bind_eq_ok.mp hRun
  obtain ⟨hFresh, hSets⟩ := run_newOp hNew
  obtain ⟨_, _, hNone, hRun⟩ := run_bind_eq_ok.mp hRun
  cases hNone
  obtain ⟨_, g₂, hOperands, hPure⟩ := run_bind_eq_ok.mp hRun
  obtain ⟨rfl, rfl⟩ := run_pure_eq_ok.mp hPure
  have hOp := (hSets.op x').trans (if_pos rfl)
  exact ⟨hFresh, hSets.trans (run_addOperands hOp hOperands)⟩

------
-- Places
------

/- An operation and a block are changed, and nothing else. -/
structure SetsPlace (g g' : Graph) (x : OpId) (o : Operation) (b : BlockId)
    (blk : Block) : Prop where
  op (y : OpId) : g'.op y = if y = x then .ok o else g.op y
  block (c : BlockId) : g'.block c = if c = b then .ok blk else g.block c
  regions : g'.regions = g.regions
  values : g.KeepsValues g'

theorem run_requireDetached (hRun : (requireDetached x).run g = .ok (u, g')) : g = g' := by
  unfold requireDetached at hRun
  obtain ⟨o, _, hRun⟩ := Edit.run_ask_bind.mp hRun
  split at hRun
  next => cases hRun
  next => exact (run_pure_eq_ok.mp hRun).2

theorem run_place {k : List OpId → List OpId} (hRun : (place b x k).run g = .ok (u, g')) :
    ∃ o blk, g.op x = .ok o ∧ g.block b = .ok blk ∧ SetsPlace g g' x { o with parent := some b } b
        { blk with ops := k blk.ops } := by
  unfold place at hRun
  obtain ⟨_, g₁, hFirst, hSecond⟩ := run_bind_eq_ok.mp hRun
  obtain ⟨blk, hBlock, hSets₁⟩ := run_modifyBlock hFirst
  obtain ⟨o, hOp, hSets₂⟩ := run_modifyOp hSecond
  have hSame := op_congr hSets₁.ops
  rw [hSame] at hOp
  refine ⟨o, blk, hOp, hBlock, ?_, ?_, ?_, hSets₁.values.trans hSets₂.values⟩
  · intro y
    rw [hSets₂.op, hSame]
  · intro c
    rw [block_congr hSets₂.blocks, hSets₁.block]
  · exact hSets₂.regions.trans hSets₁.regions

/- An operation stands behind some others in its block. -/
structure Stands (g : Graph) (x : OpId) (b : BlockId) (blk : Block)
    (before after : List OpId) : Prop where
  op : ∃ o, g.op x = .ok o ∧ o.parent = some b
  block : g.block b = .ok blk
  ops : blk.ops = before ++ x :: after
  first : x ∉ before

theorem Stands.congr (hStands : Stands g x b blk before after) (hOp : g'.op x = g.op x)
    (hBlock : g'.block b = g.block b) : Stands g' x b blk before after :=
  ⟨hOp ▸ hStands.op, hBlock ▸ hStands.block, hStands.ops, hStands.first⟩

/- What is in another block does not stand there. -/
theorem Stands.ne_of_parent (hStands : Stands g anchor b' blk' before after) (hOp : g.op x = .ok o)
    (hParent : o.parent = some b) (hOther : b ≠ b') : anchor ≠ x := by
  rintro rfl
  obtain ⟨o', hOp', hParent'⟩ := hStands.op
  cases hOp.symm.trans hOp'
  exact hOther (Option.some.inj (hParent.symm.trans hParent'))

theorem Stands.parentBlock (hStands : Stands g x b blk before after) : g.parentBlock x = .ok b := by
  obtain ⟨o, hOp, hParent⟩ := hStands.op
  unfold Graph.parentBlock
  rw [hOp]
  simp only [bind, Except.bind, hParent]
  rfl

theorem Stands.position
    (hStands : Stands g x b blk before after) : g.position x = .ok before.length := by
  have hFound : blk.ops.idxOf? x = some before.length := by
    rw [hStands.ops, List.idxOf?_eq_some_iff]
    refine ⟨by simp, by simp, ?_⟩
    intro j hLess hEq
    rw [getElem_append_left hLess] at hEq
    exact hStands.first (hEq ▸ getElem_mem hLess)
  unfold Graph.position
  rw [hStands.parentBlock]
  simp only [bind, Except.bind, hStands.block, hFound]
  rfl

theorem insertIdx_length (xs ys : List α)
    (x : α) : (xs ++ ys).insertIdx xs.length x = xs ++ x :: ys := by
  induction xs with
  | nil => simp
  | cons y xs ih => simp [ih]

theorem run_insertBefore (hStands : Stands g anchor b blk before after)
    (hRun : (insertBefore anchor x).run g = .ok (u, g')) :
    ∃ o, g.op x = .ok o ∧ SetsPlace g g' x { o with parent := some b } b
      { blk with ops := before ++ x :: anchor :: after } := by
  unfold insertBefore at hRun
  obtain ⟨_, g₁, hDetached, hRun⟩ := run_bind_eq_ok.mp hRun
  cases run_requireDetached hDetached
  obtain ⟨b', hParent, hRun⟩ := Edit.run_ask_bind.mp hRun
  cases hStands.parentBlock.symm.trans hParent
  obtain ⟨pos, hPosition, hRun⟩ := Edit.run_ask_bind.mp hRun
  cases hStands.position.symm.trans hPosition
  obtain ⟨o, blk', hOp, hBlock, hSets⟩ := run_place hRun
  cases hStands.block.symm.trans hBlock
  rw [hStands.ops, insertIdx_length] at hSets
  exact ⟨o, hOp, hSets⟩

/- An operation is taken out of its block. -/
theorem run_detach (hOp : g.op x = .ok o) (hParent : o.parent = some b)
    (hRun : (detach x).run g = .ok (u, g')) :
    ∃ blk, g.block b = .ok blk ∧ SetsPlace g g' x { o with parent := none } b
      { blk with ops := blk.ops.filter (· ≠ x) } := by
  unfold detach at hRun
  obtain ⟨o', hOp', hRun⟩ := Edit.run_ask_bind.mp hRun
  cases hOp.symm.trans hOp'
  rw [hParent] at hRun
  obtain ⟨_, g₂, hFirst, hSecond⟩ := run_bind_eq_ok.mp hRun
  obtain ⟨o', hOp', hSets₁⟩ := run_modifyOp hFirst
  cases hOp.symm.trans hOp'
  obtain ⟨blk, hBlock, hSets₂⟩ := run_modifyBlock hSecond
  have hSame := block_congr hSets₁.blocks
  rw [hSame] at hBlock
  refine ⟨blk, hBlock, ?_, ?_, ?_, hSets₁.values.trans hSets₂.values⟩
  · intro y
    rw [op_congr hSets₂.ops, hSets₁.op]
  · intro c
    rw [hSets₂.block, hSame]
  · exact hSets₂.regions.trans hSets₁.regions

/- An operation moves from one block to another. -/
structure Moves (g g' : Graph) (x : OpId) (o : Operation) (b : BlockId) (blk : Block) (b' : BlockId)
    (blk' : Block) : Prop where
  op (y : OpId) : g'.op y = if y = x then .ok o else g.op y
  block (c : BlockId) : g'.block c =
    if c = b then .ok blk else if c = b' then .ok blk' else g.block c
  regions : g'.regions = g.regions
  values : g.KeepsValues g'

/- An anchor in a third block stays as it is. -/
theorem Stands.elsewhere
    {c : BlockId}
    (hStands : Stands g anchor c blk before after)
    (hMoves : Moves g g' x o b blk₁ b' blk')
    (hNe : anchor ≠ x)
    (hSource : c ≠ b)
    (hTarget : c ≠ b') : Stands g' anchor c blk before after := by
  refine hStands.congr ?_ ?_
  · rw [hMoves.op, if_neg hNe]
  · rw [hMoves.block, if_neg hSource, if_neg hTarget]

/- The anchor of the move then stands behind what was moved. -/
theorem Stands.behind (hStands : Stands g anchor b' blk before after)
    (hMoves : Moves g g' x o b blk₁ b' { blk with ops := before ++ x :: anchor :: after })
    (hNe : anchor ≠ x) (hOther : b' ≠ b) :
    Stands g' anchor b' { blk with ops := before ++ x :: anchor :: after } (before ++ [x]) after where
  op := by
    rw [hMoves.op, if_neg hNe]
    exact hStands.op
  block := by rw [hMoves.block, if_neg hOther, if_pos rfl]
  ops := by simp
  first := by simp [hStands.first, hNe]

theorem run_moveBefore (hOp : g.op x = .ok o) (hParent : o.parent = some b)
    (hStands : Stands g anchor b' blk' before after) (hOther : b ≠ b')
    (hRun : (moveBefore x anchor).run g = .ok (u, g')) :
    ∃ blk, g.block b = .ok blk ∧ Moves g g' x { o with parent := some b' }
      b { blk with ops := blk.ops.filter (· ≠ x) }
      b' { blk' with ops := before ++ x :: anchor :: after } := by
  unfold moveBefore at hRun
  obtain ⟨_, g₁, hFirst, hSecond⟩ := run_bind_eq_ok.mp hRun
  obtain ⟨blk, hBlock, hSets₁⟩ := run_detach hOp hParent hFirst
  have hNe := hStands.ne_of_parent hOp hParent hOther
  have hStands₁ : Stands g₁ anchor b' blk' before after := by
    refine hStands.congr ?_ ?_
    · rw [hSets₁.op, if_neg hNe]
    · rw [hSets₁.block, if_neg (Ne.symm hOther)]
  obtain ⟨o₁, hOp₁, hSets₂⟩ := run_insertBefore hStands₁ hSecond
  rw [hSets₁.op, if_pos rfl] at hOp₁
  cases hOp₁
  refine ⟨blk, hBlock, ?_, ?_, hSets₂.regions.trans hSets₁.regions,
    hSets₁.values.trans hSets₂.values⟩
  · intro y
    rw [hSets₂.op, hSets₁.op]
    grind
  · intro c
    rw [hSets₂.block, hSets₁.block]
    grind

theorem run_append (hRun : (append b x).run g = .ok (u, g')) :
    ∃ o blk, g.op x = .ok o ∧ g.block b = .ok blk ∧ SetsPlace g g' x { o with parent := some b } b
        { blk with ops := blk.ops ++ [x] } := by
  unfold append at hRun
  obtain ⟨_, g₁, hDetached, hRun⟩ := run_bind_eq_ok.mp hRun
  cases run_requireDetached hDetached
  exact run_place hRun

/- A new region of an operation. -/
theorem run_createRegion (hRun : (createRegion (some x)).run g = .ok (r, g')) :
    ∃ o, g.op x = .ok o ∧ (∀ reg, g.region r ≠ .ok reg) ∧ (∀ y, g'.op y = if y = x then
        .ok { o with regions := o.regions ++ [r] } else g.op y) ∧
      (∀ s, g'.region s = if s = r then
        .ok { parent := some x } else g.region s) ∧
      g'.blocks = g.blocks ∧ g.KeepsValues g' := by
  unfold createRegion at hRun
  obtain ⟨r', g₁, hNew, hRun⟩ := run_bind_eq_ok.mp hRun
  obtain ⟨hFresh, hSets₁⟩ := run_newRegion hNew
  obtain ⟨_, g₂, hModify, hPure⟩ := run_bind_eq_ok.mp hRun
  obtain ⟨rfl, rfl⟩ := run_pure_eq_ok.mp hPure
  obtain ⟨o, hOp, hSets₂⟩ := run_modifyOp hModify
  have hSame := op_congr hSets₁.ops
  rw [hSame] at hOp
  refine ⟨o, hOp, hFresh, ?_, ?_, hSets₂.blocks.trans hSets₁.blocks,
    hSets₁.values.trans hSets₂.values⟩
  · intro y
    rw [hSets₂.op, hSame]
  · intro s
    rw [region_congr hSets₂.regions, hSets₁.region]

/- A new block without arguments. -/
theorem run_createBlock (hRun : (createBlock r []).run g = .ok (b, g')) :
    ∃ reg, g.region r = .ok reg ∧ (∀ blk, g.block b ≠ .ok blk) ∧
      (∀ c, g'.block c = if c = b then .ok { parent := r } else g.block c) ∧
      (∀ s, g'.region s = if s = r then
        .ok { reg with blocks := reg.blocks ++ [b] } else g.region s) ∧
      g'.ops = g.ops ∧ g.KeepsValues g' := by
  unfold createBlock at hRun
  obtain ⟨b', g₁, hNew, hRun⟩ := run_bind_eq_ok.mp hRun
  obtain ⟨hFresh, hSets₁⟩ := run_newBlock hNew
  obtain ⟨_, _, hNone, hRun⟩ := run_bind_eq_ok.mp hRun
  cases hNone
  obtain ⟨_, g₂, hModify, hPure⟩ := run_bind_eq_ok.mp hRun
  obtain ⟨rfl, rfl⟩ := run_pure_eq_ok.mp hPure
  obtain ⟨reg, hRegion, hSets₂⟩ := run_modifyRegion hModify
  have hSame := region_congr hSets₁.regions
  rw [hSame] at hRegion
  refine ⟨reg, hRegion, hFresh, ?_, ?_, hSets₂.ops.trans hSets₁.ops,
    hSets₁.values.trans hSets₂.values⟩
  · intro c
    rw [block_congr hSets₂.blocks, hSets₁.block]
  · intro s
    rw [hSets₂.region, hSame]

------
-- Relations that edits keep to
------

/- Whatever an edit makes of a graph, it is related to the graph. -/
def Takes (R : Graph → Graph → Prop) (e : Edit α) : Prop := ∀ ⦃a g g'⦄, e.run g = .ok (a, g') → R g g'

namespace Takes

variable {β : Type} {R : Graph → Graph → Prop} [IsPreorder Graph R]

theorem of_same {e : Edit α} (hSame : ∀ ⦃a g g'⦄, e.run g = .ok (a, g') → g = g') : Takes R e :=
  fun _ g _ hRun => hSame hRun ▸ refl_of R g

theorem pure (a : α) : Takes R (pure a) := of_same fun _ _ _ hRun => (run_pure_eq_ok.mp hRun).2

theorem ask (question : Graph → Except Fault α) : Takes R (ask question) :=
  of_same fun _ _ _ hRun => (run_ask.mp hRun).2

theorem bind {e : Edit α} {k : α → Edit β} (hFirst : Takes R e) (hRest : ∀ a, Takes R (k a)) :
    Takes R (e >>= k) := by
  intro b g g' hRun
  obtain ⟨a, g₁, hRun, hRun'⟩ := run_bind_eq_ok.mp hRun
  exact trans_of R (hFirst hRun) (hRest a hRun')

theorem forM {e : α → Edit Unit} {xs : List α} (hEach : ∀ a ∈ xs, Takes R (e a)) :
    Takes R (xs.forM e) := by
  induction xs with
  | nil => exact pure ()
  | cons a xs ih =>
    obtain ⟨hHead, hTail⟩ := forall_mem_cons.mp hEach
    exact hHead.bind fun _ => ih hTail

theorem requireDetached (x : OpId) : Takes R (requireDetached x) :=
  of_same fun _ _ _ hRun => run_requireDetached hRun

section Places

variable (hBlock : ∀ b (k : Block → Block), Takes R (modifyBlock b k))
  (hParent : ∀ x p, Takes R (modifyOp x fun o => { o with parent := p }))

include hBlock hParent

theorem place (b : BlockId) (x : OpId) (k : List OpId → List OpId) : Takes R (place b x k) :=
  (hBlock b _).bind fun _ => hParent x _

theorem insertBefore (anchor x : OpId) : Takes R (insertBefore anchor x) :=
  (requireDetached x).bind fun _ => (ask _).bind fun b => (ask _).bind fun _ =>
    place hBlock hParent b x _

theorem moveBefore (x anchor : OpId) : Takes R (moveBefore x anchor) := by
  refine ((ask _).bind fun o => ?_).bind fun _ => insertBefore hBlock hParent anchor x
  split
  · exact pure ()
  · exact (hParent x none).bind fun _ => hBlock _ _

end Places

theorem replaceUses (hValue : ∀ v (k : Value → Value), Takes R (modifyValue v k))
    (hOperands : ∀ x (k : List ValueId → List ValueId),
      Takes R (modifyOp x fun o => { o with operands := k o.operands }))
    (v w : ValueId) : Takes R (replaceUses v w) := by
  unfold Edit.replaceUses
  split
  · refine (ask _).bind fun _ => (hValue _ _).bind fun _ => (forM fun d _ => ?_).bind
      fun _ => hValue _ _
    exact (ask _).bind fun _ => hOperands d.op fun vs => vs.set d.operand w
  · exact pure ()

end Takes

end Edit

------
-- Guards
------

namespace Build

open Edit

/- A conditional with an empty branch is put into a block. -/
structure AddsGuard (g g' : Graph) (set : Affine.IntegerSet) (vars : List ValueId) (b : BlockId)
    (blk : Block) (guard close : OpId) (branch : BlockId) (yes no : RegionId) : Prop where
  newGuard (o : Operation) : g.op guard ≠ .ok o
  newClose (o : Operation) : g.op close ≠ .ok o
  distinct : close ≠ guard
  newBranch (blk : Block) : g.block branch ≠ .ok blk
  newYes (reg : Region) : g.region yes ≠ .ok reg
  newNo (reg : Region) : g.region no ≠ .ok reg
  apart : no ≠ yes
  op (y : OpId) : g'.op y =
    if y = guard then
      .ok {
        kind := .conditional set
        operands := vars
        regions := [yes, no]
        parent := some b }
    else if y = close then .ok { kind := .yield, parent := some branch }
    else g.op y
  block (c : BlockId) : g'.block c =
    if c = branch then .ok { ops := [close], parent := yes }
    else if c = b then .ok blk
    else g.block c
  region (s : RegionId) : g'.region s =
    if s = yes then .ok { blocks := [branch], parent := some guard }
    else if s = no then .ok { parent := some guard }
    else g.region s
  values : g.KeepsValues g'

namespace AddsGuard

variable {set : Affine.IntegerSet} {guard close : OpId} {branch c : BlockId} {yes no s : RegionId}
  (hAdds : AddsGuard g g' set vars b blk guard close branch yes no)

include hAdds

theorem guardOp : g'.op guard = .ok {
    kind := .conditional set
    operands := vars
    regions := [yes, no]
    parent := some b } := by
  rw [hAdds.op, if_pos rfl]

theorem closeOp : g'.op close = .ok { kind := .yield, parent := some branch } := by
  rw [hAdds.op, if_neg hAdds.distinct, if_pos rfl]

theorem op_of_old (hOp : g.op x = .ok o) : g'.op x = .ok o := by
  rw [hAdds.op, if_neg, if_neg]
  · exact hOp
  · rintro rfl
    exact hAdds.newClose o hOp
  · rintro rfl
    exact hAdds.newGuard o hOp

theorem ne_branch (hBlock : g.block c = .ok blk') : c ≠ branch := by
  rintro rfl
  exact hAdds.newBranch blk' hBlock

theorem block_of_old (hBlock : g.block c = .ok blk') (hOther : c ≠ b) : g'.block c = .ok blk' := by
  rwa [hAdds.block, if_neg (hAdds.ne_branch hBlock), if_neg hOther]

theorem region_of_old {reg : Region} (hRegion : g.region s = .ok reg) : g'.region s = .ok reg := by
  rw [hAdds.region, if_neg, if_neg]
  · exact hRegion
  · rintro rfl
    exact hAdds.newNo reg hRegion
  · rintro rfl
    exact hAdds.newYes reg hRegion

end AddsGuard

/- A region with a block that holds a yield. -/
theorem run_addYieldRegion (hRun : (addYieldRegion x []).run g = .ok (b, g')) :
    ∃ o r y, g.op x = .ok o ∧ (∀ reg, g.region r ≠ .ok reg) ∧
      (∀ blk, g.block b ≠ .ok blk) ∧ (∀ o, g.op y ≠ .ok o) ∧ (∀ z, g'.op z =
        if z = x then .ok { o with regions := o.regions ++ [r] }
        else if z = y then .ok { kind := .yield, parent := some b }
        else g.op z) ∧
      (∀ c, g'.block c = if c = b then .ok { ops := [y], parent := r } else g.block c) ∧
      (∀ s, g'.region s =
        if s = r then .ok { blocks := [b], parent := some x }
        else g.region s) ∧
      g.KeepsValues g' := by
  unfold addYieldRegion at hRun
  obtain ⟨r, g₁, hRegion, hRun⟩ := run_bind_eq_ok.mp hRun
  obtain ⟨o, hOp, hFresh, hOps₁, hRegions₁, hBlocks₁, hValues₁⟩ := run_createRegion hRegion
  obtain ⟨b', g₂, hBlock, hRun⟩ := run_bind_eq_ok.mp hRun
  obtain ⟨reg, hReg, hNew, hBlocks₂, hRegions₂, hOps₂, hValues₂⟩ := run_createBlock hBlock
  obtain ⟨y, g₃, hYield, hRun⟩ := run_bind_eq_ok.mp hRun
  obtain ⟨hUnused, hSets₃⟩ := run_createOp hYield
  obtain ⟨_, g₄, hAppend, hPure⟩ := run_bind_eq_ok.mp hRun
  obtain ⟨rfl, rfl⟩ := run_pure_eq_ok.mp hPure
  obtain ⟨oy, blk, hOpy, hBlk, hSets₄⟩ := run_append hAppend
  have hSameOp₂ := op_congr hOps₂
  have hSameBlock₁ := block_congr hBlocks₁
  have hSameBlock₃ := block_congr hSets₃.blocks
  have hSameRegion₄ := region_congr (hSets₄.regions.trans hSets₃.regions)
  have hNe : y ≠ x := by
    intro hSame
    subst hSame
    apply hUnused { o with regions := o.regions ++ [r] }
    rw [hSameOp₂, hOps₁, if_pos rfl]
  rw [hRegions₁, if_pos rfl] at hReg
  cases hReg
  rw [hSets₃.op, if_pos rfl] at hOpy
  cases hOpy
  rw [hSameBlock₃, hBlocks₂, if_pos rfl] at hBlk
  cases hBlk
  refine ⟨o, r, y, hOp, hFresh, ?_, ?_, ?_, ?_, ?_,
    hValues₁.trans (hValues₂.trans (hSets₃.values.trans hSets₄.values))⟩
  · intro blk
    rw [← hSameBlock₁]
    exact hNew blk
  · intro o'
    have hNone := hUnused o'
    rwa [hSameOp₂, hOps₁, if_neg hNe] at hNone
  · intro z
    rw [hSets₄.op, hSets₃.op, hSameOp₂, hOps₁]
    grind
  · intro c
    rw [hSets₄.block, hSameBlock₃, hBlocks₂, hSameBlock₁]
    grind
  · intro s
    rw [hSameRegion₄, hRegions₂, hRegions₁]
    grind

theorem run_conditional {set : Affine.IntegerSet} {c : NewConditional}
    (hStands : Stands g anchor b blk before after)
    (hRun : (conditional (.before anchor) set vars false).run g = .ok (c, g')) :
    ∃ close yes no, AddsGuard g g' set vars b
      { blk with ops := before ++ c.op :: anchor :: after } c.op close
      c.thenBlock yes no := by
  unfold conditional create insert at hRun
  obtain ⟨x, _, hCreate, hRun⟩ := run_bind_eq_ok.mp hRun
  obtain ⟨x', g₁, hNew, hCreate⟩ := run_bind_eq_ok.mp hCreate
  obtain ⟨_, g₂, hInsert, hPure⟩ := run_bind_eq_ok.mp hCreate
  obtain ⟨rfl, rfl⟩ := run_pure_eq_ok.mp hPure
  obtain ⟨hFresh, hSets₁⟩ := run_createOp hNew
  have hNe : anchor ≠ x' := by
    intro hSame
    subst hSame
    obtain ⟨o, hOp, _⟩ := hStands.op
    exact hFresh o hOp
  have hSameBlock₁ := block_congr hSets₁.blocks
  have hStands₁ : Stands g₁ anchor b blk before after := by
    refine hStands.congr ?_ (hSameBlock₁ b)
    rw [hSets₁.op, if_neg hNe]
  obtain ⟨o, hOp, hSets₂⟩ := run_insertBefore hStands₁ hInsert
  rw [hSets₁.op, if_pos rfl] at hOp
  cases hOp
  obtain ⟨branch, g₃, hYield, hRun⟩ := run_bind_eq_ok.mp hRun
  rcases run_addYieldRegion hYield with
    ⟨o₃, yes, close, hOp₃, hNewYes, hNewBranch, hNewClose, hOps₃, hBlocks₃, hRegions₃, hValues₃⟩
  rw [hSets₂.op, if_pos rfl] at hOp₃
  cases hOp₃
  simp only [Bool.false_eq_true, if_false] at hRun
  obtain ⟨no, g₄, hRegion, hPure⟩ := run_bind_eq_ok.mp hRun
  obtain ⟨rfl, rfl⟩ := run_pure_eq_ok.mp hPure
  obtain ⟨o₄, hOp₄, hNewNo, hOps₄, hRegions₄, hBlocks₄, hValues₄⟩ := run_createRegion hRegion
  rw [hOps₃, if_pos rfl] at hOp₄
  cases hOp₄
  have hSameRegion₂ := region_congr (hSets₂.regions.trans hSets₁.regions)
  have hSameBlock₄ := block_congr hBlocks₄
  have hDistinct : close ≠ x' := by
    intro hSame
    subst hSame
    have hNone := hNewClose
      { kind := .conditional set, operands := vars, parent := some b }
    rw [hSets₂.op, if_pos rfl] at hNone
    exact hNone rfl
  have hApart : no ≠ yes := by
    intro hSame
    subst hSame
    have hNone := hNewNo { blocks := [branch], parent := some x' }
    rw [hRegions₃, if_pos rfl] at hNone
    exact hNone rfl
  refine ⟨close, yes, no, hFresh, ?_, hDistinct, ?_, ?_, ?_, hApart, ?_, ?_, ?_,
    hSets₁.values.trans (hSets₂.values.trans (hValues₃.trans hValues₄))⟩
  · intro o
    have hNone := hNewClose o
    rwa [hSets₂.op, if_neg hDistinct, hSets₁.op, if_neg hDistinct] at hNone
  · intro blk' hBlock
    by_cases hHere : branch = b
    · subst hHere
      apply hNewBranch { blk with ops := before ++ x' :: anchor :: after }
      rw [hSets₂.block, if_pos rfl]
    · apply hNewBranch blk'
      rwa [hSets₂.block, if_neg hHere, hSameBlock₁]
  · intro reg
    rw [← hSameRegion₂]
    exact hNewYes reg
  · intro reg
    have hNone := hNewNo reg
    rwa [hRegions₃, if_neg hApart, hSameRegion₂] at hNone
  · intro y
    rw [hOps₄, hOps₃, hSets₂.op, hSets₁.op]
    grind
  · intro c
    rw [hSameBlock₄, hBlocks₃, hSets₂.block, hSameBlock₁]
  · intro s
    rw [hRegions₄, hRegions₃, hSameRegion₂]
    grind

end Build

end AffineIR
