import AffineIR.Proofs.Graph.Editing
import AffineIR.Transform.Perfection

/-
  Moving statements behind a guard.

  The edits of perfection make new operations, blocks and
  regions, and move operations; what an operation consists of
  stays the same.  Statements with results are moved in front of
  a new conditional, the others into it.

  Main declarations:
    * `Perfection.Behind`, `Perfection.run_sinkBehind`
-/

namespace AffineIR

open List

variable {o oClose : Operation} {blk blk' blk₁ blk₂ : Block} {anchor close guard x : OpId}
  {after before inner : List OpId}

------
-- Edited graphs
------

namespace Graph

/-
  Operations may have moved, blocks may list other operations,
  and new entities may be there; all else is as before.
-/
structure Edited (g g' : Graph) (moved : List OpId) (blocks : List BlockId) : Prop where
  op {x : OpId} {o : Operation} (hOp : g.op x = .ok o) (hOther : x ∉ moved) : g'.op x = .ok o
  moves {x : OpId} {o : Operation} (hOp : g.op x = .ok o) :
    ∃ q, g'.op x = .ok { o with parent := q }
  region {r : RegionId} {reg : Region} (hRegion : g.region r = .ok reg) : g'.region r = .ok reg
  block {b : BlockId} {blk : Block} (hBlock : g.block b = .ok blk) (hOther : b ∉ blocks) :
    g'.block b = .ok blk
  lists {b : BlockId} {blk : Block} (hBlock : g.block b = .ok blk) :
    ∃ ops, g'.block b = .ok { blk with ops := ops }
  values : g.KeepsValues g'

/- An operation that a block is part of. -/
def Owner (g : Graph) (b : BlockId) (x : OpId) : Prop :=
  ∃ blk reg, g.block b = .ok blk ∧ g.region blk.parent = .ok reg ∧ reg.parent = some x

variable {g g' g'' : Graph} {moved moved' : List OpId} {blocks blocks' : List BlockId}
  {b b' : BlockId} {y : OpId}

theorem Edited.refl (g : Graph) : g.Edited g [] [] where
  op hOp _ := hOp
  moves {_ o} hOp := ⟨o.parent, hOp⟩
  region hRegion := hRegion
  block hBlock _ := hBlock
  lists {_ blk} hBlock := ⟨blk.ops, hBlock⟩
  values := .of_eq rfl

theorem Edited.trans (hFirst : g.Edited g' moved blocks) (hSecond : g'.Edited g'' moved' blocks') :
    g.Edited g'' (moved ++ moved') (blocks ++ blocks') where
  op hOp hOther := by
    rw [mem_append, not_or] at hOther
    exact hSecond.op (hFirst.op hOp hOther.1) hOther.2
  moves hOp := by
    obtain ⟨q, hOp'⟩ := hFirst.moves hOp
    obtain ⟨q', hOp''⟩ := hSecond.moves hOp'
    exact ⟨q', hOp''⟩
  region hRegion := hSecond.region (hFirst.region hRegion)
  block hBlock hOther := by
    rw [mem_append, not_or] at hOther
    exact hSecond.block (hFirst.block hBlock hOther.1) hOther.2
  lists hBlock := by
    obtain ⟨ops, hBlock'⟩ := hFirst.lists hBlock
    obtain ⟨ops', hBlock''⟩ := hSecond.lists hBlock'
    exact ⟨ops', hBlock''⟩
  values := hFirst.values.trans hSecond.values

theorem Edited.sameInside (hEdited : g.Edited g' moved blocks)
    (hOwner : ∀ b ∈ blocks, ¬g.Owner b x) : g.SameInside g' x where
  ty _ := hEdited.values.resultTy? _
  region hRegion _ := hEdited.region hRegion
  block {b blk reg} hBlock hRegion hParent := hEdited.block hBlock fun hMem =>
      hOwner b hMem ⟨blk, reg, hBlock, hRegion, hParent⟩

theorem Edited.sameAt (hEdited : g.Edited g' moved blocks) (hOp : g.op x = .ok o)
    (hOther : x ∉ moved) (hOwner : ∀ b ∈ blocks, ¬g.Owner b x) : g.SameAt g' x where
  op := (hEdited.op hOp hOther).trans hOp.symm
  inside := hEdited.sameInside hOwner

theorem Edited.actOf {q : Option BlockId}
    (hEdited : g.Edited g' moved blocks) : g'.actOf x { o with parent := q } = g.actOf x o := by
  unfold Graph.actOf
  have hTy := hEdited.values.resultTy? o
  unfold resultTy? at hTy ⊢
  rw [hTy]

/- An operation in another block, with the same inside. -/
theorem Unfolds.move {p : Prog} (hUnfolds : g.Unfolds b [x] p) (hOp : g.op x = .ok o)
    (hOp' : g'.op x = .ok { o with parent := some b' }) (hInside : g.SameInside g' x)
    (hSame : ∀ y ∈ p.ids, y ≠ x → g.SameAt g' y) (hOnce : p.ids.Nodup) : g'.Unfolds b' [x] p := by
  have hAct {o₁ : Operation} (hOp₁ : g.op x = .ok o₁) :
      g.actOf x o₁ = g'.actOf x { o with parent := some b' } := by
    cases hOp.symm.trans hOp₁
    exact (hInside.actOf hOp).symm
  have hInner {ys : List OpId} (hIds : p.ids = x :: ys) (y : OpId) (hMem : y ∈ ys) :
      g.SameAt g' y := by
    rw [hIds] at hSame hOnce
    refine hSame y (mem_cons_of_mem _ hMem) ?_
    rintro rfl
    exact (nodup_cons.mp hOnce).1 hMem
  cases hUnfolds with
  | act hOp₁ hParent hKind hRest =>
    rw [hAct hOp₁]
    cases hOp.symm.trans hOp₁
    cases hRest
    exact .act hOp' rfl hKind .nil
  | @loop _ _ _ _ _ _ _ _ _ blk _ body p hOp₁ hParent hKind hRegions hHolds
      hArgs hClosed hBody hRest =>
    have hBelow (y : OpId) (hMem : y ∈ body.ids) : g.SameAt g' y :=
      hInner rfl y (mem_append_left _ hMem)
    rw [hAct hOp₁]
    cases hOp.symm.trans hOp₁
    cases hRest
    exact .loop hOp' rfl hKind hRegions (hInside.holds hHolds) hArgs
      (hClosed.congr fun y hMem => (hBelow y (hBody.mem_ids hMem)).op) (hBody.frame hBelow) .nil
  | @cond _ _ _ _ _ _ _ _ branch p hOp₁ hParent hKind hRegions hBranch hArms hRest =>
    have hBelow (taken : Bool) (y : OpId) (hMem : y ∈ (branch taken).ids) : g.SameAt g' y :=
      hInner rfl y (mem_append_left _ (Prog.mem_branches.mpr ⟨taken, hMem⟩))
    rw [hAct hOp₁]
    cases hOp.symm.trans hOp₁
    cases hRest
    exact .cond hOp' rfl hKind hRegions (fun taken => hInside.branch (hBranch taken) fun y hMem =>
      (hBelow taken y ((hArms taken).mem_ids hMem)).op)
      (fun taken => (hArms taken).frame (hBelow taken)) .nil

/- An operation has results. -/
def hasResults (g : Graph) (x : OpId) : Bool := (g.ops.get? x).any fun o => !o.results.isEmpty

theorem hasResults_of_op (hOp : g.op x = .ok o) : g.hasResults x = !o.results.isEmpty := by
  unfold hasResults
  rw [Arena.get_eq_ok_iff.mp hOp]
  rfl

end Graph

------
-- Sinking
------

namespace Perfection

open Edit

variable {g g' : Graph} {ops : List OpId} {b home branch : BlockId} {u : Unit}

/-
  Operations are moved from a block: those with results to one
  block, the others to another one.
-/
structure Sunk (g g' : Graph) (ops : List OpId) (b home branch : BlockId) : Prop where
  moved {x : OpId} {o : Operation} (hMem : x ∈ ops) (hOp : g.op x = .ok o) : g'.op x =
      .ok { o with parent := some (if o.results.isEmpty then branch else home) }
  op {x : OpId} (hOther : x ∉ ops) : g'.op x = g.op x
  left {blk : Block} (hBlock : g.block b = .ok blk) :
    g'.block b = .ok { blk with ops := blk.ops.filter (· ∉ ops) }
  block {c : BlockId} (hOther : c ≠ b) (hHome : c ≠ home) (hBranch : c ≠ branch) :
    g'.block c = g.block c
  regions : g'.regions = g.regions
  values : g.KeepsValues g'

theorem Sunk.hasResults (hSunk : Sunk g g' ops b home branch)
    (hOps : ∀ x ∈ ops, ∃ o, g.op x = .ok o) (x : OpId) : g'.hasResults x = g.hasResults x := by
  by_cases hMem : x ∈ ops
  · obtain ⟨o, hOp⟩ := hOps x hMem
    rw [Graph.hasResults_of_op (hSunk.moved hMem hOp), Graph.hasResults_of_op hOp]
  · have hSame : g'.ops.get x = g.ops.get x := hSunk.op hMem
    unfold Graph.hasResults
    unfold Arena.get at hSame
    cases hNow : g'.ops.get? x <;> cases hBefore : g.ops.get? x <;> simp_all

/- One operation is moved. -/
theorem sunk_of_moves {target : BlockId} (hOp : g.op x = .ok o) (hBlock : g.block b = .ok blk)
    (hTarget : target = if o.results.isEmpty then branch else home)
    (hMoves : Moves g g' x { o with parent := some target }
      b { blk with ops := blk.ops.filter (· ≠ x) } target blk') :
    Sunk g g' [x] b home branch where
  moved hMem hOp' := by
    rw [mem_singleton] at hMem
    subst hMem
    cases hOp.symm.trans hOp'
    rw [hMoves.op, if_pos rfl, hTarget]
  op hOther := by
    rw [mem_singleton] at hOther
    rw [hMoves.op, if_neg hOther]
  left hBlock' := by
    cases hBlock.symm.trans hBlock'
    rw [hMoves.block, if_pos rfl]
    simp only [mem_singleton]
  block hOther hNotHome hNotBranch := by
    rw [hMoves.block, if_neg hOther, if_neg]
    rw [hTarget]
    split
    · exact hNotBranch
    · exact hNotHome
  regions := hMoves.regions
  values := hMoves.values

theorem Sunk.cons {g₁ : Graph} (hFirst : Sunk g g₁ [x] b home branch)
    (hRest : Sunk g₁ g' ops b home branch)
    (hOnce : x ∉ ops) : Sunk g g' (x :: ops) b home branch where
  moved {y o} hMem hOp := by
    rcases mem_cons.mp hMem with rfl | hMem
    · rw [hRest.op hOnce]
      exact hFirst.moved (mem_singleton_self _) hOp
    · have hNe : y ∉ [x] := by
        intro hIn
        rw [mem_singleton] at hIn
        exact hOnce (hIn ▸ hMem)
      exact hRest.moved hMem ((hFirst.op hNe).trans hOp)
  op {y} hOther := by
    rw [mem_cons, not_or] at hOther
    rw [hRest.op hOther.2]
    exact hFirst.op (by simpa using hOther.1)
  left hBlock := by
    rw [hRest.left (hFirst.left hBlock)]
    simp only [filter_filter]
    congr 2
    apply filter_congr
    intro y _
    by_cases hEq : y = x <;> by_cases hIn : y ∈ ops <;> simp [hEq, hIn]
  block hOther hHome hBranch := (hRest.block hOther hHome hBranch).trans
      (hFirst.block hOther hHome hBranch)
  regions := hRest.regions.trans hFirst.regions
  values := hFirst.values.trans hRest.values

/-
  Operations have landed before a guard, those without results
  before the end of its branch.
-/
structure Landed (g g' : Graph) (ops : List OpId) (b : BlockId) (guard : OpId) (home : BlockId)
    (blk₁ : Block) (before after : List OpId) (close : OpId) (branch : BlockId) (blk₂ : Block)
    (inner : List OpId) : Prop where
  sunk : Sunk g g' ops b home branch
  atGuard : Stands g' guard home
    { blk₁ with ops := before ++ ops.filter g.hasResults ++ guard :: after }
    (before ++ ops.filter g.hasResults) after
  atClose : Stands g' close branch
    { blk₂ with ops := inner ++ ops.filter (fun x => !g.hasResults x) ++ [close] }
    (inner ++ ops.filter fun x => !g.hasResults x) []

theorem landed_nil (hGuard : Stands g guard home blk₁ before after)
    (hClose : Stands g close branch blk₂ inner []) :
    Landed g g [] b guard home blk₁ before after close branch blk₂ inner where
  sunk := by
    refine ⟨nofun, fun _ => rfl, fun {blk} hBlock => ?_, fun _ _ _ => rfl, rfl, .of_eq rfl⟩
    have hAll : blk.ops.filter (· ∉ ([] : List OpId)) = blk.ops := by simp
    rwa [hAll]
  atGuard := by
    have hEq := hGuard.ops
    simp only [filter_nil, append_nil, ← hEq]
    exact hGuard
  atClose := by
    have hEq := hClose.ops
    simp only [filter_nil, append_nil, ← hEq]
    exact hClose

/- What is left to do after the first operation was moved. -/
theorem Landed.cons {g₁ : Graph} {blk₁' blk₂' : Block} {before' inner' : List OpId}
    (hRest : Landed g₁ g' ops b guard home blk₁' before' after close branch blk₂' inner')
    (hOp : g.op x = .ok o) (hSunk : Sunk g g₁ [x] b home branch) (hOnce : x ∉ ops)
    (hBefore : before' = before ++ [x].filter g.hasResults)
    (hInner : inner' = inner ++ [x].filter fun y => !g.hasResults y)
    (hBlock₁ : ∀ xs, { blk₁' with ops := xs } = { blk₁ with ops := xs })
    (hBlock₂ : ∀ xs, { blk₂' with ops := xs } = { blk₂ with ops := xs }) :
    Landed g g' (x :: ops) b guard home blk₁ before after close branch blk₂ inner := by
  have hSame : g₁.hasResults = g.hasResults := by
    funext y
    refine hSunk.hasResults (fun z hMem => ?_) y
    rw [mem_singleton] at hMem
    exact ⟨o, hMem ▸ hOp⟩
  have hGuard := hRest.atGuard
  have hClose := hRest.atClose
  rw [hSame, hBlock₁, hBefore, append_assoc before, ← filter_append] at hGuard
  rw [hSame, hBlock₂, hInner, append_assoc inner, ← filter_append] at hClose
  exact ⟨hSunk.cons hRest.sunk hOnce, hGuard, hClose⟩

/- All operations are moved, in their order. -/
theorem run_sinkEach (hGuard : Stands g guard home blk₁ before after)
    (hClose : Stands g close branch blk₂ inner [])
    (hOps : ∀ x ∈ ops, ∃ o, g.op x = .ok o ∧ o.parent = some b) (hNodup : ops.Nodup)
    (hHome : home ≠ b) (hBranch : branch ≠ b) (hApart : home ≠ branch)
    (hRun : (ops.forM fun op => do
      if (← Edit.ask (·.op op)).results.isEmpty then
        Edit.moveBefore op close
      else
        Edit.moveBefore op guard).run g = .ok (u, g')) :
    Landed g g' ops b guard home blk₁ before after close branch blk₂ inner := by
  induction ops generalizing g blk₁ blk₂ before inner with
  | nil =>
    cases hRun
    exact landed_nil hGuard hClose
  | cons x ops ih =>
    rw [forM_eq_forM, forM_cons] at hRun
    obtain ⟨o, hOp, hParent⟩ := hOps x mem_cons_self
    obtain ⟨_, g₁, hFirst, hRest⟩ := Answer.run_bind_eq_ok.mp hRun
    obtain ⟨o', hOp', hMove⟩ := Edit.run_ask_bind.mp hFirst
    cases hOp.symm.trans hOp'
    obtain ⟨hOnce, hOthers⟩ := nodup_cons.mp hNodup
    have hHas := Graph.hasResults_of_op hOp
    have hNeGuard := hGuard.ne_of_parent hOp hParent (Ne.symm hHome)
    have hNeClose := hClose.ne_of_parent hOp hParent (Ne.symm hBranch)
    have hOps₁ (hSunk : Sunk g g₁ [x] b home branch) (y : OpId) (hMem : y ∈ ops) :
        ∃ o, g₁.op y = .ok o ∧ o.parent = some b := by
      have hOther : y ∉ [x] := fun hIn => hOnce (mem_singleton.mp hIn ▸ hMem)
      rw [hSunk.op hOther]
      exact hOps y (mem_cons_of_mem _ hMem)
    cases hEmpty : o.results.isEmpty with
    | true =>
      rw [hEmpty] at hMove hHas
      obtain ⟨blk, hBlock, hMoves⟩ := run_moveBefore hOp hParent hClose (Ne.symm hBranch) hMove
      have hSunk : Sunk g g₁ [x] b home branch :=
        sunk_of_moves hOp hBlock (by rw [hEmpty]; rfl) hMoves
      have hLater := ih (hGuard.elsewhere hMoves hNeGuard hHome hApart)
        (hClose.behind hMoves hNeClose hBranch) (hOps₁ hSunk) hOthers hRest
      exact hLater.cons hOp hSunk hOnce (by simp [hHas]) (by simp [hHas])
        (fun _ => rfl) fun _ => rfl
    | false =>
      rw [hEmpty] at hMove hHas
      obtain ⟨blk, hBlock, hMoves⟩ := run_moveBefore hOp hParent hGuard (Ne.symm hHome) hMove
      have hSunk : Sunk g g₁ [x] b home branch :=
        sunk_of_moves hOp hBlock (by rw [hEmpty]; rfl) hMoves
      have hLater := ih (hGuard.behind hMoves hNeGuard hHome)
        (hClose.elsewhere hMoves hNeClose hBranch (Ne.symm hApart)) (hOps₁ hSunk) hOthers hRest
      exact hLater.cons hOp hSunk hOnce (by simp [hHas]) (by simp [hHas])
        (fun _ => rfl) fun _ => rfl

/- The yield at the end of a block. -/
theorem yieldOf_of_stands (hClose : Stands g close branch blk inner []) (hOp : g.op close = .ok o)
    (hKind : o.kind = .yield) : g.yieldOf branch = .ok close := by
  have hLast : blk.ops.getLast? = some close := by
    rw [hClose.ops]
    simp
  unfold Graph.yieldOf Graph.kind
  rw [hClose.block]
  simp only [bind, Except.bind, hLast, hOp, pure, Except.pure, hKind, if_true]

theorem run_sink (hGuard : Stands g guard home blk₁ before after)
    (hClose : Stands g close branch blk₂ inner []) (hOp : g.op close = .ok oClose)
    (hKind : oClose.kind = .yield) (hOps : ∀ x ∈ ops, ∃ o, g.op x = .ok o ∧ o.parent = some b)
    (hNodup : ops.Nodup) (hHome : home ≠ b) (hBranch : branch ≠ b) (hApart : home ≠ branch)
    (hRun : (sink ops guard branch).run g = .ok (u, g')) :
    Landed g g' ops b guard home blk₁ before after close branch blk₂ inner := by
  unfold sink at hRun
  obtain ⟨last, hLast, hRun⟩ := Edit.run_ask_bind.mp hRun
  cases (yieldOf_of_stands hClose hOp hKind).symm.trans hLast
  exact run_sinkEach hGuard hClose hOps hNodup hHome hBranch hApart hRun

/- Operations have been moved behind a new guard. -/
structure Behind (g g' : Graph) (set : Affine.IntegerSet) (vars : List ValueId) (ops : List OpId)
    (b home : BlockId) (guard close : OpId) (branch : BlockId) (yes no : RegionId) : Prop where
  edited : g.Edited g' ops [home, b]
  newGuard (o : Operation) : g.op guard ≠ .ok o
  newClose (o : Operation) : g.op close ≠ .ok o
  newBranch (blk : Block) : g.block branch ≠ .ok blk
  distinct : close ≠ guard
  moved {x : OpId} {o : Operation} (hMem : x ∈ ops) (hOp : g.op x = .ok o) : g'.op x =
      .ok { o with parent := some (if o.results.isEmpty then branch else home) }
  left {blk : Block} (hBlock : g.block b = .ok blk) :
    g'.block b = .ok { blk with ops := blk.ops.filter (· ∉ ops) }
  guardOp : g'.op guard = .ok {
    kind := .conditional set
    operands := vars
    regions := [yes, no]
    parent := some home }
  closeOp : g'.op close = .ok { kind := .yield, parent := some branch }
  branchBlock : g'.block branch = .ok {
    ops := ops.filter (fun x => !g.hasResults x) ++ [close]
    parent := yes }
  yesRegion : g'.region yes = .ok { blocks := [branch], parent := some guard }
  noRegion : g'.region no = .ok { parent := some guard }

/- Adding a guard and moving operations behind it is an edit. -/
theorem edited_of_sunk
    {g₁ : Graph} {set : Affine.IntegerSet} {vars : List ValueId} {yes no : RegionId}
    {now : List OpId} (hAdds : Build.AddsGuard g g₁ set vars home blk₁ guard close branch yes no)
    (hSunk : Sunk g₁ g' ops b home branch) (hHome : home ≠ b) (hBlock : g.block home = .ok blk)
    (hNow : g'.block home = .ok { blk with ops := now }) : g.Edited g' ops [home, b] := by
  have hOther {d : BlockId} {blk : Block} (hBlock : g.block d = .ok blk)
      (hNotHome : d ≠ home) (hNotB : d ≠ b) : g'.block d = .ok blk :=
    (hSunk.block hNotB hNotHome (hAdds.ne_branch hBlock)).trans (hAdds.block_of_old hBlock hNotHome)
  exact {
    op hOp hOther := (hSunk.op hOther).trans (hAdds.op_of_old hOp)
    moves {x o} hOp := by
      by_cases hMem : x ∈ ops
      · exact ⟨_, hSunk.moved hMem (hAdds.op_of_old hOp)⟩
      · exact ⟨o.parent, (hSunk.op hMem).trans (hAdds.op_of_old hOp)⟩
    region {r _} hRegion :=
      (Graph.region_congr hSunk.regions r).trans (hAdds.region_of_old hRegion)
    block {d _} hBlock hNot := by
      simp only [mem_cons, not_mem_nil, or_false, not_or] at hNot
      exact hOther hBlock hNot.1 hNot.2
    lists {d old} hThere := by
      by_cases hAtHome : d = home
      · subst hAtHome
        cases hBlock.symm.trans hThere
        exact ⟨_, hNow⟩
      · by_cases hAtB : d = b
        · subst hAtB
          exact ⟨_, hSunk.left (hAdds.block_of_old hThere hAtHome)⟩
        · exact ⟨old.ops, hOther hThere hAtHome hAtB⟩
    values := hAdds.values.trans hSunk.values }

theorem run_sinkBehind {set : Affine.IntegerSet} {vars : List ValueId}
    (hAnchor : Stands g anchor home blk before after) (hBefore : ∀ x ∈ before, ∃ o, g.op x = .ok o)
    (hOps : ∀ x ∈ ops, ∃ o, g.op x = .ok o ∧ o.parent = some b) (hNodup : ops.Nodup)
    (hHome : home ≠ b) (hBlock : g.block b = .ok blk')
    (hRun : (do
      let c ← Build.conditional (.before anchor) set vars false
      sink ops c.op c.thenBlock).run g = .ok (u, g')) :
    ∃ guard close branch yes no, Behind g g' set vars ops b home guard close branch yes no ∧
        g'.block home = .ok { blk with ops :=
          before ++ (ops.filter g.hasResults ++ guard :: anchor :: after) } := by
  obtain ⟨c, g₁, hConditional, hSink⟩ := Answer.run_bind_eq_ok.mp hRun
  obtain ⟨close, yes, no, hAdds⟩ := Build.run_conditional hAnchor hConditional
  have hApart := hAdds.ne_branch hAnchor.block
  have hFresh : c.op ∉ before := by
    intro hMem
    obtain ⟨o, hOp⟩ := hBefore c.op hMem
    exact hAdds.newGuard o hOp
  have hStandsGuard : Stands g₁ c.op home
      { blk with ops := before ++ c.op :: anchor :: after } before (anchor :: after) := by
    refine ⟨⟨_, hAdds.guardOp, rfl⟩, ?_, rfl, hFresh⟩
    rw [hAdds.block, if_neg hApart, if_pos rfl]
  have hStandsClose : Stands g₁ close c.thenBlock { ops := [close], parent := yes } [] [] := by
    refine ⟨⟨_, hAdds.closeOp, rfl⟩, ?_, rfl, not_mem_nil⟩
    rw [hAdds.block, if_pos rfl]
  have hOps₁ (x : OpId) (hMem : x ∈ ops) : ∃ o, g₁.op x = .ok o ∧ o.parent = some b := by
    obtain ⟨o, hOp, hParent⟩ := hOps x hMem
    exact ⟨o, hAdds.op_of_old hOp, hParent⟩
  rcases run_sink hStandsGuard hStandsClose hAdds.closeOp rfl hOps₁ hNodup hHome
    (Ne.symm (hAdds.ne_branch hBlock)) hApart hSink with ⟨hSunk, hGuard', hClose'⟩
  have hFilter {p : Bool → Bool} :
      ops.filter (fun x => p (g₁.hasResults x)) = ops.filter fun x => p (g.hasResults x) := by
    apply filter_congr
    intro x hMem
    obtain ⟨o, hOp, _⟩ := hOps x hMem
    rw [Graph.hasResults_of_op (hAdds.op_of_old hOp), Graph.hasResults_of_op hOp]
  have hHomeBlock := hGuard'.block
  have hBranchBlock := hClose'.block
  have hKept := hFilter (p := id)
  simp only [id_eq] at hKept
  rw [hFilter (p := not)] at hBranchBlock
  rw [hKept, append_assoc] at hHomeBlock
  have hOut {x : OpId} (hNew : ∀ o, g.op x ≠ .ok o) : x ∉ ops := by
    intro hMem
    obtain ⟨o, hOp, _⟩ := hOps x hMem
    exact hNew o hOp
  have hRegion := Graph.region_congr hSunk.regions
  refine ⟨c.op, close, c.thenBlock, yes, no, ?_, hHomeBlock⟩
  exact {
    edited := edited_of_sunk hAdds hSunk hHome hAnchor.block hHomeBlock
    newGuard := hAdds.newGuard
    newClose := hAdds.newClose
    newBranch := hAdds.newBranch
    distinct := hAdds.distinct
    moved := fun hMem hOp => hSunk.moved hMem (hAdds.op_of_old hOp)
    left := fun hBlock => hSunk.left (hAdds.block_of_old hBlock (Ne.symm hHome))
    guardOp := (hSunk.op (hOut hAdds.newGuard)).trans hAdds.guardOp
    closeOp := (hSunk.op (hOut hAdds.newClose)).trans hAdds.closeOp
    branchBlock := hBranchBlock
    yesRegion := by rw [hRegion, hAdds.region, if_pos rfl]
    noRegion := by rw [hRegion, hAdds.region, if_neg hAdds.apart, if_pos rfl] }

end Perfection

end AffineIR
