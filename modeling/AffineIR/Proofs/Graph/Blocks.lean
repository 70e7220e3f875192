import AffineIR.Proofs.Graph.Nesting
import AffineIR.Proofs.Run.Trip
import Mathlib.Tactic.Choose

/-
  The programs of the blocks of a valid function.

  Loops and conditionals of a valid function consist of single
  blocks that end in a yield, so what stands in a block unfolds
  into a program.  Validation does not look for entries that
  are listed twice or not at all; functions that have none are
  called tidy.

  Main result: `Function.nodup_ids`
-/

namespace AffineIR

open Answer List Option Arena Validation

variable {blk : Block} {depth i : Nat} {r : RegionId} {o : Operation} {reg : Region}
  {inner ops xs : List OpId} {b b' : BlockId} {kind : Kind} {g : Graph}

------
-- Tidy graphs
------

namespace Arena

variable {tag : String} {α : Type} {a : Arena tag α} {h : Handle tag} {x : α}

theorem get_eq_ok_iff : a.get h = .ok x ↔ a.get? h = some x := by
  unfold get
  cases a.get? h <;> simp

theorem index_lt_of_get? (hGet : a.get? h = some x) : h.index < a.slots.size := by
  refine Nat.lt_of_not_le fun hOut => ?_
  rw [get?, Array.getElem?_eq_none hOut] at hGet
  cases hGet

theorem contains_of_get? (hGet : a.get? h = some x) : a.contains h = true := by
  unfold contains
  rw [hGet]
  rfl

theorem mem_entries_of_get (hGet : a.get h = .ok x) : (h, x) ∈ a.entries := by
  have hSome := get_eq_ok_iff.mp hGet
  unfold entries handles
  refine mem_filterMap.mpr ⟨h, ?_, by rw [hSome]; rfl⟩
  exact mem_filter.mpr ⟨mem_map.mpr ⟨h.index, mem_range.mpr (index_lt_of_get? hSome), rfl⟩,
    contains_of_get? hSome⟩

end Arena

/-
  Nothing is listed twice, blocks are listed by their regions,
  and arguments of blocks are defined as such.
-/
structure Graph.Tidy (g : Graph) : Prop where
  ops : ∀ e ∈ g.ops.entries, e.2.regions.Nodup
  regions : ∀ e ∈ g.regions.entries, e.2.blocks.Nodup
  blocks : ∀ e ∈ g.blocks.entries, e.2.ops.Nodup ∧
    (∃ reg, g.regions.get? e.2.parent = some reg ∧ e.1 ∈ reg.blocks) ∧ ∀ arg ∈ e.2.args.zipIdx,
      (g.values.get? arg.1).map Value.definer = some (.argument e.1 arg.2)

namespace Graph

variable {x : OpId}

theorem Tidy.nodup_regions (hTidy : g.Tidy) (hOp : g.op x = .ok o) : o.regions.Nodup :=
  hTidy.ops _ (mem_entries_of_get hOp)

theorem Tidy.nodup_ops (hTidy : g.Tidy) (hBlock : g.block b = .ok blk) : blk.ops.Nodup :=
  (hTidy.blocks _ (mem_entries_of_get hBlock)).1

theorem Tidy.mem_blocks (hTidy : g.Tidy) (hBlock : g.block b = .ok blk)
    (hRegion : g.region blk.parent = .ok reg) : b ∈ reg.blocks := by
  obtain ⟨reg', hSome, hMem⟩ := (hTidy.blocks _ (mem_entries_of_get hBlock)).2.1
  cases hSome.symm.trans (get_eq_ok_iff.mp hRegion)
  exact hMem

theorem Tidy.definer {v : ValueId} (hTidy : g.Tidy) (hBlock : g.block b = .ok blk)
    (hAt : blk.args[i]? = some v) :
    ∃ value, g.value v = .ok value ∧ value.definer = .argument b i := by
  have hEq := (hTidy.blocks _ (mem_entries_of_get hBlock)).2.2 (v, i)
    (mem_zipIdx_iff_getElem?.mpr hAt)
  obtain ⟨value, hSome, hDefiner⟩ := map_eq_some_iff.mp hEq
  exact ⟨value, get_eq_ok_iff.mpr hSome, hDefiner⟩

/- The kind of the last operation of a list. -/
theorem exists_of_getLast?_mapM (hLast : ops.getLast?.mapM g.kind = .ok (some kind)) :
    ∃ xs x o, ops = xs ++ [x] ∧ g.op x = .ok o ∧ o.kind = kind := by
  cases hEnd : ops.getLast? with
  | none =>
    rw [hEnd, mapM_none, pure_eq_ok] at hLast
    cases hLast
  | some x =>
    rw [hEnd, mapM_some, map_eq_ok] at hLast
    obtain ⟨kind', hKind, hSame⟩ := hLast
    cases hSame
    unfold Graph.kind at hKind
    obtain ⟨o, hOp, hKind⟩ := bind_eq_ok.mp hKind
    rw [pure_eq_ok] at hKind
    obtain ⟨xs, hOps⟩ := List.getLast?_eq_some_iff.mp hEnd
    exact ⟨xs, x, o, hOps, hOp, hKind⟩

theorem jump_of_endProblems (hNone : Validation.endProblems g none b ops = .ok []) :
    ∃ xs x o, ops = xs ++ [x] ∧ g.op x = .ok o ∧ o.kind.isJump = true := by
  unfold Validation.endProblems at hNone
  obtain ⟨last, hLast, hNone⟩ := bind_eq_ok.mp hNone
  rw [pure_eq_ok, problemUnless_eq_nil] at hNone
  cases last with
  | none => cases hNone
  | some kind =>
    obtain ⟨xs, x, o, hOps, hOp, hKind⟩ := exists_of_getLast?_mapM hLast
    refine ⟨xs, x, o, hOps, hOp, ?_⟩
    rw [hKind]
    cases kind <;> first | rfl | cases hNone

theorem yield_of_endProblems (hKind : kind.isLoop = true ∨ kind.isConditional = true)
    (hNone : Validation.endProblems g (some kind) b ops = .ok []) :
    ∃ xs x o, ops = xs ++ [x] ∧ g.op x = .ok o ∧ o.kind = .yield := by
  unfold Validation.endProblems at hNone
  obtain ⟨last, hLast, hNone⟩ := bind_eq_ok.mp hNone
  rw [pure_eq_ok, problemIf_eq_nil] at hNone
  have hYield : last = some .yield := by
    rw [← Bool.or_eq_true] at hKind
    simpa [hKind] using hNone
  subst hYield
  exact exists_of_getLast?_mapM hLast

end Graph

namespace Function

variable {f : Function} {x : OpId}

theorem kinds_of_reached (hValid : f.problems = .ok []) (hReached : f.graph.Reached f.body x) :
    Validation.useProblems f.graph x = .ok [] ∧ Validation.kindProblems f x = .ok [] ∧
      Validation.dominanceProblems f.graph x = .ok [] := by
  have hNone := checked_of_reached hValid hReached
  unfold Validation.opProblems at hNone
  obtain ⟨uses, hUses, hNone⟩ := bind_eq_ok.mp hNone
  obtain ⟨kinds, hKinds, hNone⟩ := bind_eq_ok.mp hNone
  obtain ⟨dominance, hDominance, hNone⟩ := bind_eq_ok.mp hNone
  rw [pure_eq_ok] at hNone
  simp only [append_eq_nil_iff] at hNone
  obtain ⟨⟨rfl, rfl⟩, rfl⟩ := hNone
  exact ⟨hUses, hKinds, hDominance⟩

/- A loop has one region of one block with one argument. -/
theorem shape_of_loop {lower upper : Affine.Map} {step : Int}
    (hNone : Validation.kindProblems f x = .ok []) (hOp : f.graph.op x = .ok o)
    (hKind : o.kind = .loop lower upper step) :
    0 < step ∧ ∃ r reg b blk v, o.regions = [r] ∧ f.graph.region r = .ok reg ∧ reg.blocks = [b] ∧
      f.graph.block b = .ok blk ∧ blk.args = [v] := by
  unfold Validation.kindProblems at hNone
  obtain ⟨o', hOp', hNone⟩ := bind_eq_ok.mp hNone
  cases hOp.symm.trans hOp'
  rw [hKind] at hNone
  simp only at hNone
  unfold Validation.loopProblems at hNone
  obtain ⟨n, _, hNone⟩ := bind_eq_ok.mp hNone
  obtain ⟨m, _, hNone⟩ := bind_eq_ok.mp hNone
  match hRegions : o.regions with
  | [] | _ :: _ :: _ => simp [hRegions, bind, Except.bind, pure, Except.pure] at hNone
  | [r] =>
    simp only [hRegions] at hNone
    obtain ⟨reg, hRegion, hNone⟩ := bind_eq_ok.mp hNone
    obtain ⟨single, hSingle, hNone⟩ := bind_eq_ok.mp hNone
    rw [pure_eq_ok] at hSingle
    match hBlocks : reg.blocks with
    | [] | _ :: _ :: _ => simp [← hSingle, hBlocks, bind, Except.bind, pure, Except.pure] at hNone
    | [b] =>
      rw [hBlocks] at hSingle
      subst hSingle
      simp only [length_singleton, beq_self_eq_true, Bool.not_true,
        Bool.false_eq_true, if_false] at hNone
      obtain ⟨b', hBody, hNone⟩ := bind_eq_ok.mp hNone
      obtain ⟨blk, hBlock, hNone⟩ := bind_eq_ok.mp hNone
      have hSame : b' = b := by
        unfold Graph.bodyBlock at hBody
        simp only [hOp, hRegions, hRegion, hBlocks, entryAt, bind,
          Except.bind, List.getElem?_cons_zero] at hBody
        cases hBody
        rfl
      subst hSame
      match hArgs : blk.args with
      | [] | _ :: _ :: _ =>
        simp [hArgs, bind, Except.bind, pure, Except.pure, Validation.problemUnless] at hNone
      | [v] =>
        simp only [hArgs] at hNone
        obtain ⟨ty, _, hNone⟩ := bind_eq_ok.mp hNone
        obtain ⟨indexed, _, hNone⟩ := bind_eq_ok.mp hNone
        obtain ⟨body, _, hNone⟩ := bind_eq_ok.mp hNone
        rw [pure_eq_ok] at hNone
        simp only [append_eq_nil_iff, problemIf_eq_nil] at hNone
        refine ⟨by simpa using hNone.1.2, ?_⟩
        exact ⟨r, reg, b', blk, v, rfl, hRegion, hBlocks, hBlock, hArgs⟩

/- A conditional has two regions, one of one block, one of at most one. -/
theorem shape_of_conditional {set : Affine.IntegerSet}
    (hNone : Validation.kindProblems f x = .ok []) (hOp : f.graph.op x = .ok o)
    (hKind : o.kind = .conditional set) :
    ∃ r₁ r₂ reg₁ reg₂ b, o.regions = [r₁, r₂] ∧ f.graph.region r₁ = .ok reg₁ ∧ reg₁.blocks = [b] ∧
      f.graph.region r₂ = .ok reg₂ ∧ (reg₂.blocks = [] ∨ ∃ b', reg₂.blocks = [b']) := by
  unfold Validation.kindProblems at hNone
  obtain ⟨o', hOp', hNone⟩ := bind_eq_ok.mp hNone
  cases hOp.symm.trans hOp'
  rw [hKind] at hNone
  simp only at hNone
  unfold Validation.conditionalProblems at hNone
  obtain ⟨n, _, hNone⟩ := bind_eq_ok.mp hNone
  match hRegions : o.regions with
  | [] | [_] | _ :: _ :: _ :: _ =>
    simp [hRegions, bind, Except.bind, pure, Except.pure, Validation.problemUnless] at hNone
  | [r₁, r₂] =>
    simp only [hRegions] at hNone
    obtain ⟨reg₁, hRegion₁, hNone⟩ := bind_eq_ok.mp hNone
    by_cases hSingle : reg₁.blocks.length = 1
    · rw [if_pos hSingle] at hNone
      obtain ⟨reg₂, hRegion₂, hNone⟩ := bind_eq_ok.mp hNone
      obtain ⟨shaped, hShaped, hNone⟩ := bind_eq_ok.mp hNone
      rw [pure_eq_ok] at hShaped hNone
      simp only [append_eq_nil_iff, problemUnless_eq_nil] at hNone
      rw [hNone.2, decide_eq_true_iff] at hShaped
      obtain ⟨b, hBlocks⟩ := length_eq_one_iff.mp hSingle
      refine ⟨r₁, r₂, reg₁, reg₂, b, rfl, hRegion₁, hBlocks, hRegion₂, ?_⟩
      match hOther : reg₂.blocks with
      | [] => exact .inl rfl
      | [b'] => exact .inr ⟨b', rfl⟩
      | _ :: _ :: _ =>
        rw [hOther] at hShaped
        simp at hShaped
    · rw [if_neg hSingle] at hNone
      simp [bind, Except.bind, pure, Except.pure, Validation.problemUnless] at hNone

------
-- Programs
------

theorem unfolds_of_each (hEach : ∀ x ∈ xs, ∃ p, g.Unfolds b [x] p) : ∃ p, g.Unfolds b xs p := by
  induction xs with
  | nil => exact ⟨.nil, .nil⟩
  | cons x xs ih =>
    obtain ⟨p, hFirst⟩ := hEach x mem_cons_self
    obtain ⟨q, hRest⟩ := ih fun y hMem => hEach y (mem_cons_of_mem _ hMem)
    exact ⟨p ++ q, hFirst.append hRest⟩

/- What is not last in its block is no terminator. -/
theorem isTerminator_of_front {parent : Option OpId} {y z : OpId}
    (hSound : Validation.Sound g depth r parent) (hRegion : g.region r = .ok reg)
    (hMem : b ∈ reg.blocks) (hBlock : g.block b = .ok blk) (hOps : blk.ops = xs ++ [y])
    (hIn : z ∈ xs) (hOp : g.op z = .ok o) : o.kind.isTerminator = false := by
  obtain ⟨i, hAt⟩ := List.getElem?_of_mem hIn
  have hLess := (List.getElem?_eq_some_iff.mp hAt).1
  have hAt' : blk.ops[i]? = some z := by rw [hOps, List.getElem?_append_left hLess, hAt]
  refine Bool.eq_false_iff.mpr fun hTerminator => ?_
  have hEnd := hSound.last hRegion hMem hBlock hAt' hOp hTerminator
  rw [hOps, length_append, length_singleton] at hEnd
  omega

theorem isJump_of_isTerminator (hKind : kind.isTerminator = false) : kind.isJump = false := by
  cases kind <;> first | rfl | cases hKind

/- The only block of a region of a loop or conditional. -/
theorem closed_of_sound (hSound : Validation.Sound f.graph depth r (some x))
    (hOp : f.graph.op x = .ok o) (hKind : o.kind.isLoop = true ∨ o.kind.isConditional = true)
    (hRegion : f.graph.region r = .ok reg) (hBlocks : reg.blocks = [b])
    (hBlock : f.graph.block b = .ok blk) : f.graph.Holds x r b blk ∧ f.graph.Closed blk.ops := by
  have hMem : b ∈ reg.blocks := by
    rw [hBlocks]
    exact mem_singleton_self b
  constructor
  · obtain ⟨reg', hRegion', hParent⟩ := hSound.linked.region
    obtain ⟨blk', hBlock', hLink⟩ := hSound.linked.block hRegion hMem
    cases hRegion.symm.trans hRegion'
    cases hBlock.symm.trans hBlock'
    refine ⟨?_, hBlock, hLink⟩
    rw [hRegion, ← hBlocks, ← hParent]
  · obtain ⟨kind, hParent, hEnds⟩ := hSound.ends hRegion hMem hBlock
    have hSame : kind = some o.kind := by
      simp only [mapM_some, Graph.kind, hOp, Functor.map, Except.map,
        bind, Except.bind, pure, Except.pure, Except.ok.injEq] at hParent
      exact hParent.symm
    subst hSame
    obtain ⟨xs, y, o', hOps, hLast, hYield⟩ := Graph.yield_of_endProblems hKind hEnds
    refine ⟨xs, y, o', hOps, hLast, hYield, ?_⟩
    intro z hIn
    have hLists : f.graph.Lists r b z := by
      refine ⟨⟨reg, hRegion, hMem⟩, blk, hBlock, ?_⟩
      rw [hOps]
      exact mem_append_left _ hIn
    obtain ⟨oz, hOpz, _⟩ := hSound.linked.op hLists
    exact ⟨oz, hOpz, isTerminator_of_front hSound hRegion hMem hBlock hOps hIn hOpz⟩

theorem isJump_of_closed {y : OpId} (hClosed : g.Closed ops) (hMem : y ∈ ops)
    (hOp : g.op y = .ok o) : o.kind.isJump = false := by
  obtain ⟨xs, z, oz, rfl, hOpz, hYield, hOthers⟩ := hClosed
  rcases mem_append.mp hMem with hIn | hIn
  · obtain ⟨o', hOp', hFree⟩ := hOthers y hIn
    cases hOp.symm.trans hOp'
    exact isJump_of_isTerminator hFree
  · rw [mem_singleton.mp hIn, hOpz] at hOp
    cases hOp
    rw [hYield]
    rfl

/- What is listed in a region can be unfolded. -/
def Opens (g : Graph) (r : RegionId) : Prop :=
  ∀ {b y o}, g.Lists r b y → g.op y = .ok o → o.kind.isJump = false → ∃ p, g.Unfolds b [y] p

/- The single block of a region, and its program. -/
theorem unfolds_block (hSound : Validation.Sound f.graph depth r (some x))
    (hOpens : Opens f.graph r) (hOp : f.graph.op x = .ok o)
    (hKind : o.kind.isLoop = true ∨ o.kind.isConditional = true)
    (hRegion : f.graph.region r = .ok reg) (hBlocks : reg.blocks = [b]) :
    ∃ blk p, f.graph.Holds x r b blk ∧ f.graph.Closed blk.ops ∧ f.graph.Unfolds b blk.ops p := by
  have hMem : b ∈ reg.blocks := by
    rw [hBlocks]
    exact mem_singleton_self b
  obtain ⟨blk, hBlock, _⟩ := hSound.linked.block hRegion hMem
  obtain ⟨hHolds, hClosed⟩ := closed_of_sound hSound hOp hKind hRegion hBlocks hBlock
  have hEach (y : OpId) (hIn : y ∈ blk.ops) : ∃ p, f.graph.Unfolds b [y] p := by
    have hLists : f.graph.Lists r b y := ⟨⟨reg, hRegion, hMem⟩, blk, hBlock, hIn⟩
    obtain ⟨oy, hOpy, _⟩ := hSound.linked.op hLists
    exact hOpens hLists hOpy (isJump_of_closed hClosed hIn hOpy)
  obtain ⟨p, hBody⟩ := unfolds_of_each hEach
  exact ⟨blk, p, hHolds, hClosed, hBody⟩

/- A region of at most one block, and its program. -/
theorem unfolds_branch
    (hInner : (∃ depth, Validation.Sound f.graph depth r (some x)) ∧ Opens f.graph r)
    (hOp : f.graph.op x = .ok o) (hKind : o.kind.isLoop = true ∨ o.kind.isConditional = true)
    (hRegion : f.graph.region r = .ok reg) (hBlocks : reg.blocks = [] ∨ ∃ b, reg.blocks = [b]) :
    ∃ b xs p, f.graph.Branch x r b xs ∧ f.graph.Unfolds b xs p := by
  obtain ⟨⟨depth, hSound⟩, hOpens⟩ := hInner
  rcases hBlocks with hEmpty | ⟨b, hBlocks⟩
  · obtain ⟨reg', hRegion', hLink⟩ := hSound.linked.region
    cases hRegion.symm.trans hRegion'
    exact ⟨⟨0⟩, _, _, .empty (by rw [hRegion, ← hEmpty, ← hLink]), .nil⟩
  · obtain ⟨blk, p, hHolds, hClosed, hUnfolds⟩ :=
      unfolds_block hSound hOpens hOp hKind hRegion hBlocks
    exact ⟨b, _, p, .block hHolds hClosed, hUnfolds⟩

/- An operation can be unfolded if what is in it can. -/
theorem unfolds_op (hNone : Validation.kindProblems f x = .ok []) (hOp : f.graph.op x = .ok o)
    (hParent : o.parent = some b) (hJump : o.kind.isJump = false)
    (hInner : ∀ r ∈ o.regions, (∃ depth,
      Validation.Sound f.graph depth r (some x)) ∧ Opens f.graph r) :
    ∃ p, f.graph.Unfolds b [x] p := by
  by_cases hControl : o.kind.isControl = false
  · exact ⟨_, .act hOp hParent hControl .nil⟩
  · cases hKind : o.kind with
    | loop lower upper step =>
      rcases (shape_of_loop hNone hOp hKind).2 with
        ⟨r, reg, b', blk, v, hRegions, hRegion, hBlocks, hBlock, hArgs⟩
      obtain ⟨⟨depth, hSound⟩, hOpens⟩ := hInner r (by simp [hRegions])
      rcases unfolds_block hSound hOpens hOp (by simp [hKind, Kind.isLoop])
        hRegion hBlocks with ⟨blk', body, hHolds, hClosed, hBody⟩
      have hSame := hHolds.block
      cases hBlock.symm.trans hSame
      exact ⟨_, .loop hOp hParent hKind hRegions hHolds hArgs hClosed hBody .nil⟩
    | conditional set =>
      rcases shape_of_conditional hNone hOp hKind with
        ⟨r₁, r₂, reg₁, reg₂, b₁, hRegions, hRegion₁, hBlocks₁, hRegion₂, hOther⟩
      have hArm (taken : Bool) : ∃ b ys p, f.graph.Branch x (if taken then r₁ else r₂) b ys ∧
          f.graph.Unfolds b ys p := by
        have hCond : o.kind.isLoop = true ∨ o.kind.isConditional = true := by
          simp [hKind, Kind.isConditional]
        cases taken with
        | true =>
          exact unfolds_branch (hInner r₁ (by simp [hRegions])) hOp hCond hRegion₁
            (.inr ⟨b₁, hBlocks₁⟩)
        | false => exact unfolds_branch (hInner r₂ (by simp [hRegions])) hOp hCond hRegion₂ hOther
      choose c ys branch hBranch hUnfolds using hArm
      exact ⟨_, .cond hOp hParent hKind hRegions hBranch hUnfolds .nil⟩
    | _ => simp_all [Kind.isControl, Kind.isJump]

/- Operations of a valid function that do not jump have programs. -/
theorem opens_of_sound {parent : Option OpId} (hValid : f.problems = .ok [])
    (hSound : Validation.Sound f.graph depth r parent)
    (hReached : ∀ {b x}, f.graph.Lists r b x → f.graph.Reached f.body x) : Opens f.graph r := by
  induction depth generalizing r parent with
  | zero =>
    intro b x o hLists hOp hJump
    obtain ⟨o', hOp', hParent⟩ := hSound.linked.op hLists
    cases hOp.symm.trans hOp'
    refine unfolds_op (kinds_of_reached hValid (hReached hLists)).2.1 hOp hParent hJump ?_
    intro r' hMem
    have hNone := hSound.inner hLists hOp hMem
    cases hNone
  | succ depth ih =>
    intro b x o hLists hOp hJump
    obtain ⟨o', hOp', hParent⟩ := hSound.linked.op hLists
    cases hOp.symm.trans hOp'
    refine unfolds_op (kinds_of_reached hValid (hReached hLists)).2.1 hOp hParent hJump ?_
    intro r' hMem
    have hInner := sound_of_regionProblems (hSound.inner hLists hOp hMem)
    refine ⟨⟨depth, hInner⟩, ih hInner ?_⟩
    intro b' y hLists'
    exact .child (hReached hLists) ⟨o, r', b', hOp, hMem, hLists'⟩

theorem opens_body (hValid : f.problems = .ok []) : Opens f.graph f.body :=
  opens_of_sound hValid (sound_body hValid) .top

/- The blocks of a body are courses that lead to each other. -/
theorem navigable_of_valid (hValid : f.problems = .ok []) (hTidy : f.graph.Tidy)
    (hRegion : f.graph.region f.body = .ok reg) : f.graph.Navigable reg.blocks := by
  have hSound := sound_body hValid
  constructor
  intro b hMem
  obtain ⟨blk, hBlock, _⟩ := hSound.linked.block hRegion hMem
  obtain ⟨kind, hKind, hEnds⟩ := hSound.ends hRegion hMem hBlock
  rw [mapM_none, pure_eq_ok] at hKind
  subst hKind
  obtain ⟨xs, x, o, hOps, hOp, hJumps⟩ := Graph.jump_of_endProblems hEnds
  have hLists (y : OpId) (hIn : y ∈ blk.ops) : f.graph.Lists f.body b y :=
    ⟨⟨reg, hRegion, hMem⟩, blk, hBlock, hIn⟩
  have hEach (y : OpId) (hIn : y ∈ xs) : ∃ p, f.graph.Unfolds b [y] p := by
    have hInBlock : y ∈ blk.ops := by
      rw [hOps]
      exact mem_append_left _ hIn
    obtain ⟨oy, hOpy, _⟩ := hSound.linked.op (hLists y hInBlock)
    exact opens_body hValid (hLists y hInBlock) hOpy (isJump_of_isTerminator
      (isTerminator_of_front hSound hRegion hMem hBlock hOps hIn hOpy))
  obtain ⟨p, hUnfolds⟩ := unfolds_of_each hEach
  refine ⟨xs, p, x, o, ⟨⟨blk, hBlock, hOps⟩, hUnfolds, hOp, hJumps⟩, ?_⟩
  intro s hSuccessor
  obtain ⟨target, hTarget, hParent⟩ := hSound.stays (hLists x (by simp [hOps])) hOp hSuccessor
  rw [← hParent] at hRegion
  exact hTidy.mem_blocks hTarget hRegion

end Function

------
-- Operations of programs
------

namespace Graph

variable {p : Prog} {x y : OpId}

theorem Holds.lists (hHolds : g.Holds x r b blk) (hMem : y ∈ blk.ops) : g.Lists r b y :=
  ⟨⟨_, hHolds.region, mem_singleton_self b⟩, blk, hHolds.block, hMem⟩

theorem Holds.holder (hHolds : g.Holds x r b blk) (hOp : g.op x = .ok o) (hRegion : r ∈ o.regions)
    (hMem : y ∈ blk.ops) : g.Holder x y := ⟨o, r, b, hOp, hRegion, hHolds.lists hMem⟩

theorem Branch.holder (hBranch : g.Branch x r b xs) (hOp : g.op x = .ok o)
    (hRegion : r ∈ o.regions) (hMem : y ∈ xs) : g.Holder x y := by
  cases hBranch with
  | empty => cases hMem
  | block hHolds => exact hHolds.holder hOp hRegion hMem

theorem Branch.nodup (hBranch : g.Branch x r b xs) (hTidy : g.Tidy) : xs.Nodup := by
  cases hBranch with
  | empty => exact nodup_nil
  | block hHolds => exact hTidy.nodup_ops hHolds.block

theorem Branch.mem_of_lists (hBranch : g.Branch x r b xs) (hLists : g.Lists r b' y) : y ∈ xs := by
  obtain ⟨⟨reg, hRegion, hListed⟩, blk, hBlock, hMem⟩ := hLists
  cases hBranch with
  | empty hNone =>
    cases hRegion.symm.trans hNone
    cases hListed
  | block hHolds =>
    cases hRegion.symm.trans hHolds.region
    cases mem_singleton.mp hListed
    cases hBlock.symm.trans hHolds.block
    exact hMem

theorem Tidy.ne_of_branches {r : Bool → RegionId} {here there : Bool} (hTidy : g.Tidy)
    (hOp : g.op x = .ok o) (hRegions : o.regions = [r true, r false]) (hOther : here ≠ there) :
    r here ≠ r there := by
  have hOnce := hTidy.nodup_regions hOp
  rw [hRegions] at hOnce
  cases here <;> cases there <;> simp_all [eq_comm]

/-
  A relation that goes from what is in a loop or conditional to
  the operation itself goes to the operations of a list from all
  that its program consists of.
-/
theorem Unfolds.exists_of_mem_ids {R : OpId → Prop} (hUnfolds : g.Unfolds b xs p) (hMem : y ∈ p.ids)
    (hSelf : R y)
    (hAround : ∀ ⦃x z o⦄, g.op x = .ok o → (o.kind.isLoop = true ∨ o.kind.isConditional = true) →
      g.Holder x z → R z → R x) : ∃ x ∈ xs, R x := by
  have hBelow {x : OpId} {o : Operation} {xs ys : List OpId} (hOp : g.op x = .ok o)
      (hKind : o.kind.isLoop = true ∨ o.kind.isConditional = true)
      (hHeld : ∀ {z}, z ∈ ys → g.Holder x z) (hInner : ∃ z ∈ ys, R z) : ∃ z ∈ x :: xs, R z := by
    obtain ⟨z, hIn, hInner⟩ := hInner
    exact ⟨x, mem_cons_self, hAround hOp hKind (hHeld hIn) hInner⟩
  have hLater {x : OpId} {xs : List OpId} (hInner : ∃ z ∈ xs, R z) : ∃ z ∈ x :: xs, R z :=
    hInner.imp fun z hBoth => ⟨mem_cons_of_mem _ hBoth.1, hBoth.2⟩
  induction hUnfolds with
  | nil => cases hMem
  | act _ _ _ _ ih =>
    rcases mem_cons.mp hMem with rfl | hMem
    · exact ⟨_, mem_cons_self, hSelf⟩
    · exact hLater (ih hMem)
  | loop hOp _ hKind hRegions hHolds _ _ _ _ ihBody ih =>
    rcases mem_cons.mp hMem with rfl | hMem
    · exact ⟨_, mem_cons_self, hSelf⟩
    rcases mem_append.mp hMem with hMem | hMem
    · exact hBelow hOp (.inl (by rw [hKind]; rfl)) (hHolds.holder hOp (by simp [hRegions]))
        (ihBody hMem)
    · exact hLater (ih hMem)
  | cond hOp _ hKind hRegions hBranch _ _ ihInner ih =>
    rcases mem_cons.mp hMem with rfl | hMem
    · exact ⟨_, mem_cons_self, hSelf⟩
    rcases mem_append.mp hMem with hMem | hMem
    · obtain ⟨taken, hMem⟩ := Prog.mem_branches.mp hMem
      exact hBelow hOp (.inr (by rw [hKind]; rfl))
        ((hBranch taken).holder hOp (mem_regions hRegions taken)) (ihInner taken hMem)
    · exact hLater (ih hMem)

/- What a program consists of is inside the operations it stands for. -/
theorem Unfolds.inside_of_mem_ids (hUnfolds : g.Unfolds b xs p)
    (hMem : y ∈ p.ids) : ∃ x ∈ xs, g.Inside x y :=
  hUnfolds.exists_of_mem_ids hMem .self fun _ _ _ _ _ hHolder => (Inside.child .self hHolder).trans

/- What stands in a region of an operation is inside it. -/
theorem Unfolds.inside_of_held (hUnfolds : g.Unfolds b xs p)
    (hHeld : ∀ {z}, z ∈ xs → g.Holder x z) (hMem : y ∈ p.ids) : g.Inside x y := by
  obtain ⟨z, hIn, hInside⟩ := hUnfolds.inside_of_mem_ids hMem
  exact (Inside.child .self (hHeld hIn)).trans hInside

variable {outer : List OpId}

/- Operations with the same ones around them and with links below them. -/
structure Row (g : Graph) (xs outer : List OpId) : Prop where
  nodup : xs.Nodup
  linked {x z : OpId} (hMem : x ∈ xs) (hInside : g.Inside x z) : g.LinkedIn z
  rises {x : OpId} (hMem : x ∈ xs) : g.Rises x (x :: outer)

theorem Row.sublist {ys : List OpId} (hRow : g.Row xs outer)
    (hSub : ys.Sublist xs) : g.Row ys outer where
  nodup := hRow.nodup.sublist hSub
  linked hMem := hRow.linked (hSub.subset hMem)
  rises hMem := hRow.rises (hSub.subset hMem)

/- What an operation of a row holds is a row. -/
theorem Row.below {ys : List OpId} (hRow : g.Row xs outer) (hMem : x ∈ xs) (hNodup : ys.Nodup)
    (hHeld : ∀ {z}, z ∈ ys → g.Holder x z) : g.Row ys (x :: outer) where
  nodup := hNodup
  linked hIn hInside := hRow.linked hMem ((Inside.child .self (hHeld hIn)).trans hInside)
  rises hIn := .child ((hHeld hIn).parentOp? (hRow.linked hMem .self)) (hRow.rises hMem)

theorem Row.unique {x' : OpId} (hRow : g.Row xs outer) (hMem : x ∈ xs) (hMem' : x' ∈ xs)
    (hInside : g.Inside x y) (hInside' : g.Inside x' y) : x = x' :=
  hInside.unique hInside' (fun _ => hRow.linked hMem)
    (fun _ => hRow.linked hMem') (hRow.rises hMem) (hRow.rises hMem')

/- An operation of a row is not inside what it holds. -/
theorem Row.not_inside_of_holder {z : OpId} (hRow : g.Row xs outer) (hMem : x ∈ xs)
    (hHolder : g.Holder x z) : ¬g.Inside z x := by
  intro hInside
  rcases hInside.rises (fun _ hIn => hRow.linked hMem ((Inside.child .self hHolder).trans hIn))
    (.child (hHolder.parentOp? (hRow.linked hMem .self)) (hRow.rises hMem)) with ⟨inner, hUp⟩
  have hLength := congrArg List.length (hUp.unique (hRow.rises hMem))
  simp at hLength
  omega

/- What is in a region of an operation of a row. -/
theorem Row.inside_of_mem_ids {q : Prog} {ys : List OpId} (hRow : g.Row (x :: xs) outer)
    (hHeld : ∀ {z}, z ∈ ys → g.Holder x z) (hBody : g.Unfolds b' ys q)
    (hMem : y ∈ q.ids) : g.Inside x y ∧ y ≠ x := by
  refine ⟨hBody.inside_of_held hHeld hMem, ?_⟩
  rintro rfl
  obtain ⟨z, hIn, hInside⟩ := hBody.inside_of_mem_ids hMem
  exact hRow.not_inside_of_holder mem_cons_self (hHeld hIn) hInside

/- Nothing is in two regions of an operation of a row. -/
theorem Row.not_inside_both {r₁ r₂ : RegionId} {b₁ b₂ : BlockId} {ys₁ ys₂ : List OpId}
    {z₁ z₂ : OpId} (hRow : g.Row xs outer) (hMem : x ∈ xs) (hOp : g.op x = .ok o)
    (hRegion₁ : r₁ ∈ o.regions) (hRegion₂ : r₂ ∈ o.regions) (hOther : r₁ ≠ r₂)
    (hFirst : g.Branch x r₁ b₁ ys₁) (hSecond : g.Branch x r₂ b₂ ys₂) (hMem₁ : z₁ ∈ ys₁)
    (hMem₂ : z₂ ∈ ys₂) (hInside₁ : g.Inside z₁ y) : ¬g.Inside z₂ y := by
  intro hInside₂
  have hLinked : g.LinkedIn x := hRow.linked hMem .self
  have hBelow {z z' : OpId} (hHolder : g.Holder x z) (hInside : g.Inside z z') : g.LinkedIn z' :=
    hRow.linked hMem ((Inside.child .self hHolder).trans hInside)
  have hRises {z : OpId} (hHolder : g.Holder x z) : g.Rises z (z :: x :: outer) :=
    .child (hHolder.parentOp? hLinked) (hRow.rises hMem)
  have hHolder₁ := hFirst.holder hOp hRegion₁ hMem₁
  have hHolder₂ := hSecond.holder hOp hRegion₂ hMem₂
  cases hInside₁.unique hInside₂ (fun _ => hBelow hHolder₁) (fun _ => hBelow hHolder₂)
    (hRises hHolder₁) (hRises hHolder₂)
  cases hFirst with
  | empty => cases hMem₁
  | block hHolds₁ =>
    cases hSecond with
    | empty => cases hMem₂
    | block hHolds₂ =>
      obtain ⟨oz, hOpz, hParent₁⟩ := (hLinked hOp hRegion₁).op (hHolds₁.lists hMem₁)
      obtain ⟨oz', hOpz', hParent₂⟩ := (hLinked hOp hRegion₂).op (hHolds₂.lists hMem₂)
      cases hOpz.symm.trans hOpz'
      cases hParent₁.symm.trans hParent₂
      have hBlock := hHolds₁.block
      cases hHolds₂.block.symm.trans hBlock
      exact hOther (hHolds₁.parent.symm.trans hHolds₂.parent)

/- An operation, what is in it, and the operations behind it. -/
theorem Row.nodup_ids_cons (hRow : g.Row (x :: xs) outer) (hRest : g.Unfolds b xs p)
    (hInner : ∀ y ∈ inner, g.Inside x y ∧ y ≠ x) (hNodup : inner.Nodup)
    (hOthers : p.ids.Nodup) : (x :: (inner ++ p.ids)).Nodup := by
  have hApart {y : OpId} (hInside : g.Inside x y) : y ∉ p.ids := by
    intro hMem
    obtain ⟨x', hIn, hInside'⟩ := hRest.inside_of_mem_ids hMem
    have hSame := hRow.unique mem_cons_self (mem_cons_of_mem _ hIn) hInside hInside'
    subst hSame
    exact (nodup_cons.mp hRow.nodup).1 hIn
  refine nodup_cons.mpr ⟨?_, nodup_append.mpr ⟨hNodup, hOthers, ?_⟩⟩
  · intro hMem
    rcases mem_append.mp hMem with hMem | hMem
    · exact (hInner x hMem).2 rfl
    · exact hApart .self hMem
  · intro y hMem z hMem' hSame
    subst hSame
    exact hApart (hInner y hMem).1 hMem'

/- A program of a tidy graph names each of its operations once. -/
theorem Unfolds.nodup_ids (hUnfolds : g.Unfolds b xs p) (hTidy : g.Tidy)
    (hRow : g.Row xs outer) : p.ids.Nodup := by
  induction hUnfolds generalizing outer with
  | nil => exact nodup_nil
  | @act b x xs o p hOp hParent hKind hRest ih =>
    have hNone : ∀ y ∈ ([] : List OpId), g.Inside x y ∧ y ≠ x := by simp
    exact hRow.nodup_ids_cons hRest hNone nodup_nil (ih (hRow.sublist (sublist_cons_self x xs)))
  | @loop b b' x xs o lower upper step r blk v body p hOp hParent hKind
      hRegions hHolds hArgs hClosed hBody hRest ihBody ih =>
    have hHeld {z : OpId} : z ∈ blk.ops → g.Holder x z := hHolds.holder hOp (by simp [hRegions])
    exact hRow.nodup_ids_cons hRest (fun y => hRow.inside_of_mem_ids hHeld hBody)
      (ihBody (hRow.below mem_cons_self (hTidy.nodup_ops hHolds.block) hHeld))
      (ih (hRow.sublist (sublist_cons_self x xs)))
  | @cond b x xs o set r c ys branch p hOp hParent hKind hRegions hBranch hInner hRest ihInner ih =>
    have hHead : x ∈ x :: xs := mem_cons_self
    have hRegion (taken : Bool) : r taken ∈ o.regions := mem_regions hRegions taken
    have hHeld (taken : Bool) {z : OpId} : z ∈ ys taken → g.Holder x z :=
      (hBranch taken).holder hOp (hRegion taken)
    have hNodup (taken : Bool) : (branch taken).ids.Nodup :=
      ihInner taken (hRow.below hHead ((hBranch taken).nodup hTidy) (hHeld taken))
    refine hRow.nodup_ids_cons hRest ?_ (nodup_append.mpr ⟨hNodup true, hNodup false, ?_⟩)
      (ih (hRow.sublist (sublist_cons_self x xs)))
    · intro y hMem
      obtain ⟨taken, hMem⟩ := Prog.mem_branches.mp hMem
      exact hRow.inside_of_mem_ids (hHeld taken) (hInner taken) hMem
    · rintro y hMem _ hMem' rfl
      obtain ⟨z₁, hIn₁, hInside₁⟩ := (hInner true).inside_of_mem_ids hMem
      obtain ⟨z₂, hIn₂, hInside₂⟩ := (hInner false).inside_of_mem_ids hMem'
      exact hRow.not_inside_both hHead hOp (hRegion true) (hRegion false)
        (hTidy.ne_of_branches hOp hRegions (by simp)) (hBranch true) (hBranch false) hIn₁ hIn₂
        hInside₁ hInside₂

end Graph

end AffineIR
