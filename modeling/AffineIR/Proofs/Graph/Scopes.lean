import AffineIR.Proofs.Graph.Ancestry
import AffineIR.Proofs.Run.Repetition

/-
  Where the values of a valid function are used.

  A value that an operation of a single block defines is used
  behind that operation in the block only, or inside what
  stands there; the argument of a single block is used inside
  the block only.

  Main result: `Graph.Unfolds.scope_of_binds`
-/

namespace AffineIR

open Answer List

variable {blk : Block} {b : BlockId} {value : Value} {r : RegionId} {reg : Region}

------
-- Lineages
------

namespace Graph

variable {g : Graph} {body : RegionId} {x y z : OpId}

/- Where an operation is listed. -/
structure Sits (g : Graph) (x : OpId) (b : BlockId) (r : RegionId) : Prop where
  op : ∃ o, g.op x = .ok o ∧ o.parent = some b
  block : ∃ blk, g.block b = .ok blk ∧ blk.parent = r ∧ x ∈ blk.ops
  region : ∃ reg, g.region r = .ok reg ∧ b ∈ reg.blocks

theorem Linked.sits {parent : Option OpId} (hLinked : g.Linked r parent)
    (hLists : g.Lists r b x) : g.Sits x b r := by
  obtain ⟨reg, hRegion, hMem⟩ := hLists.region
  obtain ⟨blk, hBlock, hIn⟩ := hLists.block
  obtain ⟨blk', hBlock', hParent⟩ := hLinked.block hRegion hMem
  cases hBlock.symm.trans hBlock'
  exact ⟨hLinked.op hLists, ⟨blk, hBlock, hParent, hIn⟩, reg, hRegion, hMem⟩

theorem Sits.lists (hSits : g.Sits x b r) : g.Lists r b x := by
  obtain ⟨blk, hBlock, _, hIn⟩ := hSits.block
  exact ⟨hSits.region, blk, hBlock, hIn⟩

theorem Sits.parentBlock (hSits : g.Sits x b r) : g.parentBlock x = .ok b := by
  obtain ⟨o, hOp, hParent⟩ := hSits.op
  unfold Graph.parentBlock
  rw [hOp]
  simp only [bind, Except.bind, hParent]
  rfl

theorem Sits.site (hSits : g.Sits x b r) : g.site x = .ok ⟨x, b, r⟩ := by
  obtain ⟨blk, hBlock, hParent, _⟩ := hSits.block
  unfold Graph.site
  rw [hSits.parentBlock]
  simp only [bind, Except.bind, hBlock, hParent]
  rfl

theorem Sits.parentRegion (hSits : g.Sits x b r) : g.parentRegion x = .ok r := by
  obtain ⟨blk, hBlock, hParent, _⟩ := hSits.block
  unfold Graph.parentRegion
  rw [hSits.parentBlock]
  simp only [bind, Except.bind, hBlock, hParent]
  rfl

theorem Sits.position (hSits : g.Sits x b r)
    (hBlock : g.block b = .ok blk) : ∃ i, g.position x = .ok i ∧ blk.ops[i]? = some x := by
  obtain ⟨blk', hBlock', _, hIn⟩ := hSits.block
  cases hBlock.symm.trans hBlock'
  cases hFound : blk.ops.idxOf? x with
  | none => exact absurd hIn (List.idxOf?_eq_none_iff.mp hFound)
  | some i =>
    refine ⟨i, ?_, ?_⟩
    · unfold Graph.position
      rw [hSits.parentBlock]
      simp only [bind, Except.bind, hBlock, hFound]
      rfl
    · obtain ⟨hLess, hEq, _⟩ := List.idxOf?_eq_some_iff.mp hFound
      rw [List.getElem?_eq_getElem hLess, hEq]

/- Where an operation of a body is, and the operation around it. -/
theorem Reached.place (hReached : g.Reached body y) (hBody : g.Linked body none)
    (hLinked : ∀ z, g.Reached body z → g.LinkedIn z) :
    ∃ b r reg, g.Sits y b r ∧ g.region r = .ok reg ∧ (r = body ∧ reg.parent = none ∨
        ∃ z, reg.parent = some z ∧ g.Reached body z ∧ g.Holder z y) := by
  cases hReached with
  | @top b x hLists =>
    obtain ⟨reg, hRegion, hParent⟩ := hBody.region
    exact ⟨b, body, reg, hBody.sits hLists, hRegion, .inl ⟨rfl, hParent⟩⟩
  | @child z x hOuter hHolder =>
    obtain ⟨o, r, b, hOp, hMem, hLists⟩ := hHolder
    have hHere := hLinked z hOuter hOp hMem
    obtain ⟨reg, hRegion, hParent⟩ := hHere.region
    exact ⟨b, r, reg, hHere.sits hLists, hRegion,
      .inr ⟨z, hParent, hOuter, o, r, b, hOp, hMem, hLists⟩⟩

/- The way up from an operation of a body stays in the body. -/
theorem Reached.rises (hReached : g.Reached body y) (hBody : g.Linked body none)
    (hLinked : ∀ z, g.Reached body z → g.LinkedIn z) :
    ∃ ls, g.Rises y ls ∧ ∀ z ∈ ls, g.Inside z y ∧ g.Reached body z := by
  induction hReached with
  | top hLists =>
    exact ⟨_, .top (hBody.parentOp? hLists), forall_mem_singleton.mpr ⟨.self, .top hLists⟩⟩
  | child hOuter hHolder ih =>
    obtain ⟨ls, hRises, hAround⟩ := ih
    refine ⟨_, .child (hHolder.parentOp? (hLinked _ hOuter)) hRises, ?_⟩
    refine forall_mem_cons.mpr ⟨⟨.self, .child hOuter hHolder⟩, fun z hMem => ?_⟩
    obtain ⟨hInside, hThere⟩ := hAround z hMem
    exact ⟨.child hInside hHolder, hThere⟩

end Graph

------
-- Uses
------

namespace Function

variable {f : Function} {x y z : OpId} {o : Operation} {v : ValueId} {i : Nat}

section

variable (hValid : f.problems = .ok [])

include hValid

theorem linked_body : f.graph.Linked f.body none :=
  (sound_body hValid).linked

/- Uses of operands are recorded. -/
theorem use_of_operand (hReached : f.graph.Reached f.body y) (hOp : f.graph.op y = .ok o)
    (hAt : o.operands[i]? = some v) :
    ∃ value, f.graph.value v = .ok value ∧ ⟨y, i⟩ ∈ value.uses := by
  have hNone := (kinds_of_reached hValid hReached).1
  unfold Validation.useProblems at hNone
  rw [hOp, ok_bind] at hNone
  obtain ⟨results, _, hNone⟩ := bind_eq_ok.mp hNone
  rw [pure_eq_ok] at hNone
  simp only [append_eq_nil_iff] at hNone
  have hNil : Validation.operandProblems f.graph y v i = [] := by
    apply flatten_eq_nil_iff.mp hNone.1
    exact mem_map.mpr ⟨(v, i), mem_zipIdx_iff_getElem?.mpr hAt, rfl⟩
  unfold Validation.operandProblems at hNil
  split at hNil
  next => cases hNil
  next value hValue =>
    rw [Validation.problemUnless_eq_nil, contains_iff_mem] at hNil
    exact ⟨value, Arena.get_eq_ok_iff.mpr hValue, hNil⟩

/- Results are defined by their operations. -/
theorem definer_of_result (hReached : f.graph.Reached f.body x) (hOp : f.graph.op x = .ok o)
    (hMem : v ∈ o.results) :
    ∃ value i, f.graph.value v = .ok value ∧ value.definer = .result x i := by
  have hNone := (kinds_of_reached hValid hReached).1
  unfold Validation.useProblems at hNone
  rw [hOp, ok_bind] at hNone
  obtain ⟨results, hResults, hNone⟩ := bind_eq_ok.mp hNone
  rw [pure_eq_ok] at hNone
  simp only [append_eq_nil_iff] at hNone
  obtain ⟨i, hAt⟩ := List.getElem?_of_mem hMem
  have hIn : (v, i) ∈ o.results.zipIdx := mem_zipIdx_iff_getElem?.mpr hAt
  have hNil := nil_of_mapM hResults hNone.2 hIn
  simp only at hNil
  unfold Validation.resultProblems at hNil
  obtain ⟨value, hValue, hNil⟩ := bind_eq_ok.mp hNil
  rw [pure_eq_ok] at hNil
  simp only [append_eq_nil_iff, Validation.problemIf_eq_nil] at hNil
  exact ⟨value, i, hValue, by simpa using hNil.1⟩

/- Operands are visible where they are used. -/
theorem visible_of_operand (hReached : f.graph.Reached f.body y) (hOp : f.graph.op y = .ok o)
    (hMem : v ∈ o.operands) :
    ∃ c, (f.graph.valueDominates v y).run (.fresh .forward) = .ok (true, c) := by
  have hNone := (kinds_of_reached hValid hReached).2.2
  unfold Validation.dominanceProblems at hNone
  rw [hOp, ok_bind] at hNone
  obtain ⟨lists, hLists, hNone⟩ := bind_eq_ok.mp hNone
  rw [pure_eq_ok] at hNone
  obtain ⟨i, hAt⟩ := List.getElem?_of_mem hMem
  have hIn : (v, i) ∈ o.operands.zipIdx := mem_zipIdx_iff_getElem?.mpr hAt
  have hNil := nil_of_mapM hLists hNone hIn
  obtain ⟨value, hValue, _⟩ := use_of_operand hValid hReached hOp hAt
  have hContains := Arena.contains_of_get? (Arena.get_eq_ok_iff.mp hValue)
  simp only [hContains, Bool.not_true, Bool.false_eq_true, if_false] at hNil
  obtain ⟨visible, hVisible, hNil⟩ := bind_eq_ok.mp hNil
  rw [pure_eq_ok, Validation.problemUnless_eq_nil] at hNil
  subst hNil
  unfold DominanceQuery.runFresh at hVisible
  rw [StateT.run'_eq, map_eq_ok] at hVisible
  obtain ⟨⟨visible, c⟩, hRun, hSame⟩ := hVisible
  simp only at hSame
  subst hSame
  exact ⟨c, hRun⟩

/- What is around an operation in a region of one block is in that block. -/
theorem inside_of_single (hReached : f.graph.Reached f.body y)
    (hLifted : f.graph.ancestorInRegion? r y = .ok (some z)) (hRegion : f.graph.region r = .ok reg)
    (hSingle : reg.blocks = [b]) : f.graph.Inside z y ∧ f.graph.Sits z b r := by
  rcases hReached.rises (linked_body hValid) fun _ => linkedIn_of_reached hValid with
    ⟨ls, hRises, hAround⟩
  obtain ⟨_, hFound, hOnly⟩ := hRises.ancestorInRegion
  cases hLifted.symm.trans hFound
  obtain ⟨hListed, hPlace⟩ := (hOnly z).mp rfl
  obtain ⟨hInside, hThere⟩ := hAround z hListed
  rcases hThere.place (linked_body hValid) fun _ => linkedIn_of_reached hValid with
    ⟨c, _, _, hSits, _⟩
  cases hSits.parentRegion.symm.trans hPlace
  obtain ⟨_, hRegion', hIn⟩ := hSits.region
  cases hRegion.symm.trans hRegion'
  rw [hSingle, mem_singleton] at hIn
  exact ⟨hInside, hIn ▸ hSits⟩

/- A result of a single block is used behind its operation. -/
theorem scope_of_result (hReached : f.graph.Reached f.body y) (hOp : f.graph.op y = .ok o)
    (hMem : v ∈ o.operands) (hValue : f.graph.value v = .ok value)
    (hDefiner : value.definer = .result x i) (hSits : f.graph.Sits x b r)
    (hRegion : f.graph.region r = .ok reg) (hSingle : reg.blocks = [b])
    (hBlock : f.graph.block b = .ok blk) :
    ∃ (z : OpId) (j k : Nat), f.graph.Inside z y ∧ blk.ops[j]? = some x ∧
      blk.ops[k]? = some z ∧ j < k := by
  obtain ⟨c, hRun⟩ := visible_of_operand hValid hReached hOp hMem
  unfold Graph.valueDominates at hRun
  rw [run_lift_bind hValue, hDefiner] at hRun
  dsimp only at hRun
  unfold Graph.properlyDominatesOr at hRun
  split at hRun
  next => cases hRun
  next hOther =>
    rw [run_lift_bind hSits.parentRegion] at hRun
    obtain ⟨lifted, hLifted, hRun⟩ := run_lift_bind_eq_ok.mp hRun
    cases lifted with
    | none => cases hRun
    | some z =>
      obtain ⟨hInside, hSits'⟩ := inside_of_single hValid hReached hLifted hRegion hSingle
      dsimp only at hRun
      split at hRun
      next => cases hRun
      next =>
        rw [run_lift_bind hSits.parentBlock, run_lift_bind hSits'.parentBlock,
          if_pos rfl] at hRun
        have hBefore : f.graph.isBefore x z = .ok true := (run_lift_eq_ok.mp hRun).1
        obtain ⟨j, hPosition, hAt⟩ := hSits.position hBlock
        obtain ⟨k, hPosition', hAt'⟩ := hSits'.position hBlock
        refine ⟨z, j, k, hInside, hAt, hAt', ?_⟩
        unfold Graph.isBefore at hBefore
        rw [hSits.parentBlock, hSits'.parentBlock, hPosition, hPosition'] at hBefore
        simpa [bind, Except.bind, pure, Except.pure] using hBefore

/- The argument of a single block is used inside the block. -/
theorem scope_of_argument (hReached : f.graph.Reached f.body y) (hOp : f.graph.op y = .ok o)
    (hMem : v ∈ o.operands) (hValue : f.graph.value v = .ok value)
    (hDefiner : value.definer = .argument b i) (hBlock : f.graph.block b = .ok blk)
    (hRegion : f.graph.region blk.parent = .ok reg)
    (hSingle : reg.blocks = [b]) : ∃ z ∈ blk.ops, f.graph.Inside z y := by
  obtain ⟨c, hRun⟩ := visible_of_operand hValid hReached hOp hMem
  unfold Graph.valueDominates at hRun
  rw [run_lift_bind hValue, hDefiner] at hRun
  dsimp only at hRun
  rw [run_lift_bind hBlock] at hRun
  obtain ⟨lifted, hLifted, hRun⟩ := run_lift_bind_eq_ok.mp hRun
  cases lifted with
  | none => cases hRun
  | some z =>
    obtain ⟨hInside, hSits⟩ := inside_of_single hValid hReached hLifted hRegion hSingle
    obtain ⟨_, hBlock', _, hListed⟩ := hSits.block
    cases hBlock.symm.trans hBlock'
    exact ⟨z, hListed, hInside⟩

end

------
-- Bindings
------

end Function

namespace Graph

variable {g : Graph} {x y : OpId} {v : ValueId}

/- A value is a result of an operation. -/
def IsResult (g : Graph) (v : ValueId) (x : OpId) : Prop :=
  ∃ val i, g.value v = .ok val ∧ val.definer = .result x i

/- A value is an argument of a block. -/
def IsArgument (g : Graph) (v : ValueId) (b : BlockId) : Prop :=
  ∃ val i, g.value v = .ok val ∧ val.definer = .argument b i

/- A block is in one region only, and that in one operation. -/
theorem Holds.unique {r' : RegionId} {blk' : Block} (hFirst : g.Holds x r b blk)
    (hSecond : g.Holds y r' b blk') : x = y := by
  have hBlock := hFirst.block
  cases hSecond.block.symm.trans hBlock
  have hRegion := hFirst.region
  rw [← hFirst.parent, hSecond.parent, hSecond.region] at hRegion
  cases hRegion
  rfl

/- A value is defined by one operation, or in a block of one. -/
theorem eq_of_definers (hFirst : g.IsResult v x ∨ ∃ r b blk, g.Holds x r b blk ∧ g.IsArgument v b)
    (hSecond : g.IsResult v y ∨ ∃ r b blk, g.Holds y r b blk ∧ g.IsArgument v b) : x = y := by
  rcases hFirst with ⟨val, i, hValue, hFirst⟩ | ⟨r, b, blk, hHolds, val, i, hValue, hFirst⟩ <;>
    rcases hSecond with
      ⟨val', i', hValue', hSecond⟩ | ⟨r', b', blk', hHolds', val', i', hValue', hSecond⟩ <;>
    cases hValue.symm.trans hValue' <;> cases hFirst.symm.trans hSecond
  · rfl
  · exact hHolds.unique hHolds'

end Graph

namespace Function

variable {f : Function} {x y : OpId} {o : Operation} {v : ValueId}

/-
  The only block of its region in a valid and tidy function,
  with operations of the function.
-/
structure Home (f : Function) (b : BlockId) (blk : Block) (outer : List OpId) : Prop where
  valid : f.problems = .ok []
  tidy : f.graph.Tidy
  block : f.graph.block b = .ok blk
  region : ∃ reg, f.graph.region blk.parent = .ok reg ∧ reg.blocks = [b]
  reached {x : OpId} (hMem : x ∈ blk.ops) : f.graph.Reached f.body x
  sits {x : OpId} (hMem : x ∈ blk.ops) : f.graph.Sits x b blk.parent
  row : f.graph.Row blk.ops outer

/- The block of an operation of a home is a home. -/
theorem Home.below {outer : List OpId} {b' : BlockId} {blk' : Block} (hHome : f.Home b blk outer)
    (hIn : x ∈ blk.ops) (hOp : f.graph.op x = .ok o) (hMem : r ∈ o.regions)
    (hHolds : f.graph.Holds x r b' blk') : f.Home b' blk' (x :: outer) where
  valid := hHome.valid
  tidy := hHome.tidy
  block := hHolds.block
  region := ⟨_, hHolds.parent ▸ hHolds.region, rfl⟩
  reached hInner := .child (hHome.reached hIn) (hHolds.holder hOp hMem hInner)
  sits hInner := by
    rw [hHolds.parent]
    exact (hHome.row.linked hIn .self hOp hMem).sits (hHolds.lists hInner)
  row := hHome.row.below hIn (hHome.tidy.nodup_ops hHolds.block) (hHolds.holder hOp hMem)

/-
  What binds a value: an operation whose result it is, or a
  loop whose variable it is.
-/
def Owns (g : Graph) (x : OpId) (v : ValueId) : Prop := ∃ o, g.op x = .ok o ∧
    (v ∈ o.results ∨ ∃ r b blk, r ∈ o.regions ∧ g.Holds x r b blk ∧ blk.args = [v])

theorem Owns.unique (hValid : f.problems = .ok []) (hTidy : f.graph.Tidy)
    (hReached : f.graph.Reached f.body x) (hReached' : f.graph.Reached f.body y)
    (hOwns : Owns f.graph x v) (hOwns' : Owns f.graph y v) : x = y := by
  have hDefined {x : OpId} (hReached : f.graph.Reached f.body x) (hOwns : Owns f.graph x v) :
      f.graph.IsResult v x ∨ ∃ r b blk, f.graph.Holds x r b blk ∧ f.graph.IsArgument v b := by
    obtain ⟨o, hOp, hResult | ⟨r, b, blk, _, hHolds, hArgs⟩⟩ := hOwns
    · exact .inl (definer_of_result hValid hReached hOp hResult)
    · obtain ⟨val, hDefined⟩ := hTidy.definer (v := v) (i := 0) hHolds.block (by rw [hArgs]; rfl)
      exact .inr ⟨r, b, blk, hHolds, val, 0, hDefined⟩
  exact Graph.eq_of_definers (hDefined hReached hOwns) (hDefined hReached' hOwns')

end Function

namespace Graph

open Prog

variable {g : Graph} {xs : List OpId} {p : Prog} {v : ValueId}

theorem mem_results_of_mem_bound {x : OpId} {o : Operation}
    (hMem : v ∈ (g.actOf x o).bound) : v ∈ o.results := by
  unfold Act.bound at hMem
  split at hMem
  · exact mem_of_mem_take hMem
  · cases hMem

/- What a program binds, one of its operations owns. -/
theorem Unfolds.owner_of_binds (hUnfolds : g.Unfolds b xs p)
    (hBinds : p.Binds v) : ∃ x ∈ p.ids, Function.Owns g x v := by
  have hLater {xs ys : List OpId} (hSub : xs ⊆ ys) (hOwner : ∃ x ∈ xs, Function.Owns g x v) :
      ∃ x ∈ ys, Function.Owns g x v :=
    hOwner.imp fun _ hBoth => ⟨hSub hBoth.1, hBoth.2⟩
  induction hUnfolds with
  | nil => cases hBinds
  | act hOp _ _ _ ih =>
    rcases hBinds with hBound | hBinds
    · exact ⟨_, mem_cons_self, _, hOp, .inl (mem_results_of_mem_bound hBound)⟩
    · exact hLater (by simp [ids]) (ih hBinds)
  | loop hOp _ _ hRegions hHolds hArgs _ _ _ ihBody ih =>
    rcases hBinds with rfl | hBinds | hBinds
    · exact ⟨_, mem_cons_self, _, hOp, .inr ⟨_, _, _, by simp [hRegions], hHolds, hArgs⟩⟩
    · exact hLater (by simp [ids]) (ihBody hBinds)
    · exact hLater (by simp [ids]) (ih hBinds)
  | cond _ _ _ _ _ _ _ ihInner ih =>
    rcases hBinds with ⟨taken, hBinds⟩ | hBinds
    · exact hLater (fun _ => mem_ids_of_branch) (ihInner taken hBinds)
    · exact hLater (fun _ hMem => by simp [ids, hMem]) (ih hBinds)

/- What a program uses is an operand of one of its operations. -/
theorem Unfolds.user_of_uses (hUnfolds : g.Unfolds b xs p)
    (hUses : p.Uses v) : ∃ x ∈ p.ids, ∃ o, g.op x = .ok o ∧ v ∈ o.operands := by
  have hLater {xs ys : List OpId} (hSub : xs ⊆ ys)
      (hUser : ∃ x ∈ xs, ∃ o, g.op x = .ok o ∧ v ∈ o.operands) :
      ∃ x ∈ ys, ∃ o, g.op x = .ok o ∧ v ∈ o.operands :=
    hUser.imp fun _ hBoth => ⟨hSub hBoth.1, hBoth.2⟩
  induction hUnfolds with
  | nil => cases hUses
  | act hOp _ _ _ ih =>
    rcases hUses with hUsed | hUses
    · exact ⟨_, mem_cons_self, _, hOp, hUsed⟩
    · exact hLater (by simp [ids]) (ih hUses)
  | loop hOp _ _ _ _ _ _ _ _ ihBody ih =>
    rcases hUses with hUsed | hUses | hUses
    · exact ⟨_, mem_cons_self, _, hOp, hUsed⟩
    · exact hLater (by simp [ids]) (ihBody hUses)
    · exact hLater (by simp [ids]) (ih hUses)
  | cond hOp _ _ _ _ _ _ ihInner ih =>
    rcases hUses with hUsed | ⟨taken, hUses⟩ | hUses
    · exact ⟨_, mem_cons_self, _, hOp, hUsed⟩
    · exact hLater (fun _ => mem_ids_of_branch) (ihInner taken hUses)
    · exact hLater (fun _ hMem => by simp [ids, hMem]) (ih hUses)

end Graph

------
-- Order in a block
------

/- In a list without repeats, later entries have greater positions. -/
theorem pairwise_idxOf {α : Type} [DecidableEq α] {xs : List α}
    (hNodup : xs.Nodup) : xs.Pairwise fun a b => xs.idxOf a < xs.idxOf b := by
  rw [pairwise_iff_getElem]
  intro i j hI hJ hLess
  rwa [hNodup.idxOf_getElem i hI, hNodup.idxOf_getElem j hJ]

theorem idxOf_of_getElem? {α : Type} [DecidableEq α] {xs : List α} {x : α} {i : Nat}
    (hNodup : xs.Nodup) (hAt : xs[i]? = some x) : xs.idxOf x = i := by
  obtain ⟨hLess, hEq⟩ := List.getElem?_eq_some_iff.mp hAt
  rw [← hEq]
  exact hNodup.idxOf_getElem i hLess

/- What is behind one of some operations of a block, or inside one. -/
def Graph.Trails (g : Graph) (ops xs : List OpId) (y : OpId) : Prop :=
  (∃ x ∈ xs, (∀ o, g.op x = .ok o → o.kind.isControl = false) ∧
    ∃ z ∈ ops, g.Inside z y ∧ ops.idxOf x < ops.idxOf z) ∨
  ∃ w ∈ xs, ∃ z, g.Holder w z ∧ g.Inside z y

theorem Graph.Trails.cons {g : Graph} {ops xs : List OpId} {y : OpId} (hTrails : g.Trails ops xs y)
    (x : OpId) : g.Trails ops (x :: xs) y := by
  rcases hTrails with ⟨w, hIn, hUse⟩ | ⟨w, hIn, hUse⟩
  · exact .inl ⟨w, mem_cons_of_mem _ hIn, hUse⟩
  · exact .inr ⟨w, mem_cons_of_mem _ hIn, hUse⟩

namespace Function

variable {f : Function} {x y : OpId} {o : Operation} {v : ValueId} {outer xs ys : List OpId}
  {p q : Prog}

section

variable (hHome : f.Home b blk outer)

include hHome

/- What is behind an operation in a block of another, or inside it. -/
theorem trails_of_holds {r : RegionId} {b' : BlockId} {blk' : Block} (hMem : x ∈ blk.ops)
    (hOp : f.graph.op x = .ok o) (hRegion : r ∈ o.regions) (hHolds : f.graph.Holds x r b' blk')
    (hInner : f.Home b' blk' (x :: outer) → f.graph.Trails blk'.ops blk'.ops y) :
    f.graph.Trails blk.ops (x :: xs) y := by
  refine .inr ⟨x, mem_cons_self, ?_⟩
  rcases hInner (hHome.below hMem hOp hRegion hHolds) with
    ⟨_, _, _, z, hIn, hInside, _⟩ | ⟨w, hIn, z, hHolder, hInside⟩
  · exact ⟨z, hHolds.holder hOp hRegion hIn, hInside⟩
  · exact ⟨w, hHolds.holder hOp hRegion hIn, (Graph.Inside.child .self hHolder).trans hInside⟩

/-
  What operations of a block bind is used behind the operation
  that binds it, or inside an operation that holds that one.
-/
theorem scope_of_binds (hUnfolds : f.graph.Unfolds b xs p) (hSub : xs ⊆ blk.ops)
    (hBinds : p.Binds v) (hReached : f.graph.Reached f.body y) (hOp : f.graph.op y = .ok o)
    (hMem : v ∈ o.operands) : f.graph.Trails blk.ops xs y := by
  induction hUnfolds generalizing blk outer with
  | nil => cases hBinds
  | @act b x xs o' p hOp' hParent hKind hRest ih =>
    obtain ⟨hIn, hSub⟩ := cons_subset.mp hSub
    rcases hBinds with hBound | hBinds
    · rcases definer_of_result hHome.valid (hHome.reached hIn) hOp'
        (Graph.mem_results_of_mem_bound hBound) with ⟨value, i, hValue, hDefiner⟩
      obtain ⟨reg, hRegion, hSingle⟩ := hHome.region
      rcases scope_of_result hHome.valid hReached hOp hMem hValue hDefiner
        (hHome.sits hIn) hRegion hSingle hHome.block with ⟨z, j, k, hInside, hAt, hAt', hLess⟩
      have hNodup := hHome.row.nodup
      refine .inl ⟨x, mem_cons_self, ?_, z, mem_of_getElem? hAt', hInside, ?_⟩
      · intro o'' hOp''
        cases hOp'.symm.trans hOp''
        exact hKind
      · rwa [idxOf_of_getElem? hNodup hAt, idxOf_of_getElem? hNodup hAt']
    · exact (ih hHome hSub hBinds).cons x
  | @loop b b' x xs o' lower upper step r blk' w body p hOp' hParent hKind
      hRegions hHolds hArgs hClosed hBody hRest ihBody ih =>
    obtain ⟨hIn, hSub⟩ := cons_subset.mp hSub
    have hRegion : r ∈ o'.regions := by simp [hRegions]
    rcases hBinds with rfl | hBinds | hBinds
    · rcases hHome.tidy.definer (v := v) (i := 0) hHolds.block
        (by rw [hArgs]; rfl) with ⟨value, hValue, hDefiner⟩
      rcases scope_of_argument hHome.valid hReached hOp hMem hValue hDefiner hHolds.block
        (hHolds.parent ▸ hHolds.region) rfl with ⟨z, hIn, hInside⟩
      exact .inr ⟨x, mem_cons_self, z, hHolds.holder hOp' hRegion hIn, hInside⟩
    · exact trails_of_holds hHome hIn hOp' hRegion hHolds
        fun hHome' => ihBody hHome' (fun _ => id) hBinds
    · exact (ih hHome hSub hBinds).cons x
  | cond hOp' hParent hKind hRegions hBranch hInner hRest ihInner ih =>
    obtain ⟨hIn, hSub⟩ := cons_subset.mp hSub
    rcases hBinds with ⟨taken, hBinds⟩ | hBinds
    · rcases (hBranch taken).nil_or_holds (hInner taken) with hNil | ⟨blk', hHolds, hOps⟩
      · rw [hNil] at hBinds
        cases hBinds
      exact trails_of_holds hHome hIn hOp' (Graph.mem_regions hRegions taken) hHolds
        fun hHome' => hOps ▸ ihInner taken hHome' (fun _ => hOps ▸ id) hBinds
    · exact (ih hHome hSub hBinds).cons _

/- An operation does not use what it binds, or what is bound in it. -/
theorem not_binds_of_operand (hIn : x ∈ blk.ops) (hUnfolds : f.graph.Unfolds b [x] p)
    (hOp : f.graph.op x = .ok o) (hMem : v ∈ o.operands) : ¬p.Binds v := by
  intro hBinds
  have hSub : [x] ⊆ blk.ops := fun y hMem => by
    rwa [mem_singleton.mp hMem]
  rcases scope_of_binds hHome hUnfolds hSub hBinds (hHome.reached hIn) hOp hMem with
    ⟨x', hMem', _, z, hListed, hInside, hLess⟩ | ⟨w, hMem', z, hHolder, hInside⟩
  · rw [mem_singleton] at hMem'
    subst hMem'
    have hSame := hHome.row.unique hListed hIn hInside .self
    subst hSame
    exact Nat.lt_irrefl _ hLess
  · rw [mem_singleton] at hMem'
    subst hMem'
    exact hHome.row.not_inside_of_holder hIn hHolder hInside

/-
  Operations of a block do not use what later ones bind, nor
  what is bound inside other loops and conditionals; and no
  two of them bind the same.
-/
theorem apart_of_unfolds (hFirst : f.graph.Unfolds b xs p) (hSecond : f.graph.Unfolds b ys q)
    (hSub : xs ⊆ blk.ops) (hSub' : ys ⊆ blk.ops)
    (hOrder : ∀ x ∈ xs, ∀ y ∈ ys, x ≠ y ∧ (blk.ops.idxOf x < blk.ops.idxOf y ∨
        ∃ o, f.graph.op y = .ok o ∧ o.kind.isControl = true)) : p.Apart q := by
  have hRow := hHome.row
  constructor
  · intro v hUses hBinds
    obtain ⟨y, hMem, o, hOp, hOperand⟩ := hFirst.user_of_uses hUses
    obtain ⟨x, hIn, hInside⟩ := hFirst.inside_of_mem_ids hMem
    have hReached := hInside.reached (hHome.reached (hSub hIn))
    rcases scope_of_binds hHome hSecond hSub' hBinds hReached hOp
      hOperand with ⟨x', hIn', hPlain, z, hListed, hInside', hLess⟩ |
        ⟨w, hIn', z, hHolder, hInside'⟩
    · have hSame := hRow.unique (hSub hIn) hListed hInside hInside'
      subst hSame
      rcases (hOrder x hIn x' hIn').2 with hMore | ⟨o', hOp', hControl⟩
      · omega
      · cases (hPlain o' hOp').symm.trans hControl
    · have hSame := hRow.unique (hSub hIn) (hSub' hIn') hInside
        ((Graph.Inside.child .self hHolder).trans hInside')
      exact (hOrder x hIn w hIn').1 hSame
  · intro v hBinds hBinds'
    obtain ⟨y, hMem, hOwns⟩ := hFirst.owner_of_binds hBinds
    obtain ⟨y', hMem', hOwns'⟩ := hSecond.owner_of_binds hBinds'
    obtain ⟨x, hIn, hInside⟩ := hFirst.inside_of_mem_ids hMem
    obtain ⟨x', hIn', hInside'⟩ := hSecond.inside_of_mem_ids hMem'
    have hSame := hOwns.unique hHome.valid hHome.tidy (hInside.reached (hHome.reached (hSub hIn)))
      (hInside'.reached (hHome.reached (hSub' hIn'))) hOwns'
    subst hSame
    exact (hOrder x hIn x' hIn').1 (hRow.unique (hSub hIn) (hSub' hIn') hInside hInside')

/- The operations of a block, in order. -/
theorem ordered_of_unfolds (hUnfolds : f.graph.Unfolds b xs p)
    (hSub : xs.Sublist blk.ops) : p.Ordered := by
  have hSplit {x : OpId} {xs : List OpId} (hSub : (x :: xs).Sublist blk.ops) : [x] ⊆ blk.ops ∧
      xs ⊆ blk.ops ∧ ∀ y ∈ xs, x ≠ y ∧ blk.ops.idxOf x < blk.ops.idxOf y := by
    have hBoth := cons_subset.mp hSub.subset
    refine ⟨cons_subset.mpr ⟨hBoth.1, nil_subset _⟩, hBoth.2, fun y hMem => ?_⟩
    have hLess := (pairwise_cons.mp ((pairwise_idxOf hHome.row.nodup).sublist hSub)).1 y hMem
    exact ⟨fun hSame => Nat.lt_irrefl _ (hSame ▸ hLess), hLess⟩
  -- the first operation and the others are apart in both directions
  have hApart {x : OpId} {xs : List OpId} {first rest : Prog} (hFirst : f.graph.Unfolds b [x] first)
      (hRest : f.graph.Unfolds b xs rest)
      (hSub : (x :: xs).Sublist blk.ops) : first.Apart rest := by
    obtain ⟨hHere, hLater, hOrder⟩ := hSplit hSub
    exact apart_of_unfolds hHome hFirst hRest hHere hLater
      (forall_mem_singleton.mpr fun y hMem => ⟨(hOrder y hMem).1, .inl (hOrder y hMem).2⟩)
  have hBack {x : OpId} {o : Operation} {xs : List OpId} {first rest : Prog}
      (hFirst : f.graph.Unfolds b [x] first) (hRest : f.graph.Unfolds b xs rest)
      (hOp : f.graph.op x = .ok o) (hControl : o.kind.isControl = true)
      (hSub : (x :: xs).Sublist blk.ops) : rest.Apart first := by
    obtain ⟨hHere, hLater, hOrder⟩ := hSplit hSub
    exact apart_of_unfolds hHome hRest hFirst hLater hHere fun y hMem =>
      forall_mem_singleton.mpr ⟨(hOrder y hMem).1.symm, .inr ⟨o, hOp, hControl⟩⟩
  induction hUnfolds with
  | nil => trivial
  | @act b x xs o p hOp hParent hKind hRest ih =>
    have hOne : f.graph.Unfolds b [x] (.act (f.graph.actOf x o) .nil) := .act hOp hParent hKind .nil
    have hLater := hApart hOne hRest hSub
    refine ⟨?_, ?_, ih hHome ((sublist_cons_self x xs).trans hSub) hApart hBack⟩
    · intro v hMem
      exact ⟨fun hBound => not_binds_of_operand hHome (hSub.subset mem_cons_self) hOne hOp hMem
        (.inl hBound), hLater.uses (.inl hMem)⟩
    · intro v hMem
      exact hLater.binds (.inl hMem)
  | @loop b b' x xs o lower upper step r blk' w body p hOp hParent hKind
      hRegions hHolds hArgs hClosed hBody hRest ihBody ih =>
    have hOne := Graph.Unfolds.loop hOp hParent hKind hRegions hHolds hArgs hClosed hBody .nil
    exact ⟨hApart hOne hRest hSub, hBack hOne hRest hOp (by simp [hKind, Kind.isControl]) hSub,
      ih hHome ((sublist_cons_self x xs).trans hSub) hApart hBack⟩
  | @cond b x xs o set r c ys branch p hOp hParent hKind hRegions hBranch hInner hRest ihInner ih =>
    have hOne := Graph.Unfolds.cond hOp hParent hKind hRegions hBranch hInner .nil
    exact ⟨hApart hOne hRest hSub, hBack hOne hRest hOp (by simp [hKind, Kind.isControl]) hSub,
      ih hHome ((sublist_cons_self x xs).trans hSub) hApart hBack⟩

end

end Function

end AffineIR
