import AffineIR.Proofs.Graph.Visibility
import AffineIR.Proofs.Run.Bindings

/-
  Runs of valid functions find no value unbound.

  Whenever a run comes to a place, the values that are known
  there are bound: this holds where a block is entered, every
  operation keeps it, and so does every branch.

  Main result: `Function.run_ne_unbound`
-/

namespace AffineIR

open Answer List

variable {fuel k : Nat}

namespace Function

variable {f : Function} {x : OpId} {o : Operation} {b : BlockId} {blk : Block} {r : RegionId}
  {m m' : Machine}

/- A region of the function, at any depth. -/
def HasRegion (f : Function) (r : RegionId) : Prop :=
  r = f.body ∨ ∃ x o, f.graph.Reached f.body x ∧ f.graph.op x = .ok o ∧ r ∈ o.regions

/-
  Operations have no more results than their kind binds, and
  only the entry block and the blocks of loops have arguments.
-/
structure Regular (f : Function) : Prop where
  results {x : OpId} {o : Operation} (hReached : f.graph.Reached f.body x)
    (hOp : f.graph.op x = .ok o) (hOwn : o.kind.isForeign = false) :
    o.results.length ≤ if o.kind.bindsResult then 1 else 0
  args {b : BlockId} {blk : Block} (hRegion : f.HasRegion blk.parent)
    (hBlock : f.graph.block b = .ok blk) (hArgs : blk.args ≠ []) :
    f.entryBlock = .ok b ∨ ∃ x o, f.graph.op x = .ok o ∧
      o.kind.isLoop = true ∧ blk.parent ∈ o.regions

theorem HasRegion.sound (hValid : f.problems = .ok [])
    (hRegion : f.HasRegion r) : ∃ depth parent, Validation.Sound f.graph depth r parent := by
  rcases hRegion with rfl | ⟨x, o, hReached, hOp, hMem⟩
  · exact ⟨_, none, sound_body hValid⟩
  · obtain ⟨depth, hSound⟩ := sound_of_reached hValid hReached
    exact ⟨depth, some x, hSound hOp hMem⟩

theorem HasRegion.reached (hRegion : f.HasRegion r)
    (hLists : f.graph.Lists r b x) : f.graph.Reached f.body x := by
  rcases hRegion with rfl | ⟨z, o, hReached, hOp, hMem⟩
  · exact .top hLists
  · exact .child hReached ⟨o, r, b, hOp, hMem, hLists⟩

theorem lists_of_getElem? (hIntact : f.graph.Intact) (hBlock : f.graph.block b = .ok blk)
    (hAt : blk.ops[k]? = some x) : f.graph.Lists blk.parent b x :=
  (hIntact.sits_of_mem hBlock (mem_of_getElem? hAt)).lists

/- A branch is the last operation of its block. -/
theorem successors_of_branch (hValid : f.problems = .ok []) (hIntact : f.graph.Intact)
    (hRegion : f.HasRegion blk.parent) (hBlock : f.graph.block b = .ok blk)
    (hAt : blk.ops[k]? = some x) (hOp : f.graph.op x = .ok o) (hKind : o.kind.isBranch = true) :
    k + 1 = blk.ops.length ∧ f.graph.blockSuccessors b = .ok o.successors := by
  have hTerminator : o.kind.isTerminator = true := by
    cases hIs : o.kind <;> simp_all [Kind.isBranch, Kind.isTerminator, Kind.traits]
  obtain ⟨depth, parent, hSound⟩ := hRegion.sound hValid
  obtain ⟨reg, hHome, hListed⟩ := hIntact.home hBlock
  have hLast := hSound.last hHome hListed hBlock hAt hOp hTerminator
  refine ⟨hLast, ?_⟩
  have hGetLast : blk.ops.getLast? = some x := by
    rwa [List.getLast?_eq_getElem?, ← hLast]
  unfold Graph.blockSuccessors Graph.terminator? Graph.kind
  simp [hBlock, hGetLast, hOp, hTerminator, bind, Except.bind, pure, Except.pure]

/- Successors of a block are in its region. -/
theorem successor_of_mem {s : BlockId} {succs : List BlockId} (hValid : f.problems = .ok [])
    (hIntact : f.graph.Intact) (hRegion : f.HasRegion blk.parent)
    (hBlock : f.graph.block b = .ok blk) (hSuccs : f.graph.blockSuccessors b = .ok succs)
    (hMem : s ∈ succs) : ∃ next, f.graph.block s = .ok next ∧ next.parent = blk.parent := by
  unfold Graph.blockSuccessors at hSuccs
  obtain ⟨last, hLast, hSuccs⟩ := bind_eq_ok.mp hSuccs
  cases last with
  | none =>
    rw [pure_eq_ok] at hSuccs
    subst hSuccs
    cases hMem
  | some x =>
    obtain ⟨o, hOp, hSuccs⟩ := bind_eq_ok.mp hSuccs
    rw [pure_eq_ok] at hSuccs
    subst hSuccs
    unfold Graph.terminator? at hLast
    obtain ⟨blk', hBlock', hLast⟩ := bind_eq_ok.mp hLast
    cases hBlock.symm.trans hBlock'
    split at hLast
    next => cases hLast
    next y hEnd =>
      obtain ⟨kind, _, hLast⟩ := bind_eq_ok.mp hLast
      rw [pure_eq_ok] at hLast
      split at hLast
      next =>
        cases hLast
        obtain ⟨depth, parent, hSound⟩ := hRegion.sound hValid
        exact hSound.stays (hIntact.sits_of_mem hBlock (mem_of_getLast? hEnd)).lists hOp hMem
      next => cases hLast

------
-- Places
------

/- The values that are known at a place are bound. -/
def Ready (f : Function) (b : BlockId) (k : Nat) (m : Machine) : Prop :=
  ∀ v, f.graph.Known v b k → m.Binds v

/- The arguments of the blocks of a region are bound. -/
def Filled (f : Function) (r : RegionId) (m : Machine) : Prop :=
  ∀ b blk v, f.graph.block b = .ok blk → blk.parent = r → v ∈ blk.args → m.Binds v

theorem Ready.grows (hReady : f.Ready b k m) (hGrows : m.Grows m') : f.Ready b k m' :=
  fun v hKnown => hGrows v (hReady v hKnown)

theorem Filled.grows (hFilled : f.Filled r m) (hGrows : m.Grows m') : f.Filled r m' :=
  fun b blk v hBlock hParent hMem => hGrows v (hFilled b blk v hBlock hParent hMem)

/- An operation that is left with its result makes the next place ready. -/
theorem Ready.step (hIntact : f.graph.Intact) (hRegular : f.Regular)
    (hReached : f.graph.Reached f.body x) (hBlock : f.graph.block b = .ok blk)
    (hAt : blk.ops[k]? = some x) (hOp : f.graph.op x = .ok o) (hReady : f.Ready b k m)
    (hLeaves : Exec.Leaves o flow m) (hDone : o.kind.bindsResult = true → flow = .done) :
    f.Ready b (k + 1) m := by
  intro v hKnown
  rcases hKnown.step hBlock hAt with hKnown | hResult
  · exact hReady v hKnown
  · have hMem := hIntact.mem_results hOp hResult
    obtain ⟨i, hResultAt⟩ := List.getElem?_of_mem hMem
    have hCount := hRegular.results hReached hOp hLeaves.own
    have hLess := (List.getElem?_eq_some_iff.mp hResultAt).1
    split at hCount
    next hBinds =>
      have hFirst : i = 0 := by omega
      rw [hFirst] at hResultAt
      exact hLeaves.result (hDone hBinds) hBinds hResultAt
    next => omega

------
-- Blocks
------

/- How the operations of a block leave it. -/
def Departs (f : Function) (b : BlockId) (blk : Block) (flow : Flow) (m : Machine) : Prop :=
  ∀ s, flow = .branch s → f.Ready b blk.ops.length m ∧
    ∃ succs, f.graph.blockSuccessors b = .ok succs ∧ s ∈ succs

/- The operations of a block from a ready place on. -/
theorem safe_ops {enter : RegionId → Exec Flow} (hValid : f.problems = .ok [])
    (hIntact : f.graph.Intact) (hRegular : f.Regular) (hRegion : f.HasRegion blk.parent)
    (hBlock : f.graph.block b = .ok blk)
    (hEnter : ∀ {k x o r m}, blk.ops[k]? = some x → f.graph.op x = .ok o →
      o.kind.isLoop = true ∨ o.kind.isConditional = true → r ∈ o.regions → f.Ready b k m →
      (o.kind.isLoop = true → ∀ var, f.graph.inductionVar x = .ok var → m.Binds var) →
      Exec.Safe (enter r) m fun _ _ => True)
    (hReady : f.Ready b k m) :
    Exec.Safe (Exec.ops f.graph enter (blk.ops.drop k)) m (f.Departs b blk) := by
  induction hRest : blk.ops.drop k generalizing k m with
  | nil => exact .pure fun s hBranch => by cases hBranch
  | cons x rest ih =>
    have hAt : blk.ops[k]? = some x := by
      rw [← List.head?_drop, hRest]
      rfl
    have hNext : blk.ops.drop (k + 1) = rest := by
      rw [← tail_drop, hRest]
      rfl
    have hLists := lists_of_getElem? hIntact hBlock hAt
    have hReached := hRegion.reached hLists
    obtain ⟨o, hOp, _⟩ := hIntact.placed hBlock (mem_of_getElem? hAt)
    refine .bind (.tick fun m₁ hEnv => .bind ?_)
    have hReady₁ := hReady.grows (.of_env hEnv)
    refine (Exec.safe_op hOp ?_ ?_).mono fun flow m₂ hGrows hLeaves => ?_
    · intro v hMem
      exact hReady₁ v (known_of_operand hValid hIntact hReached hOp hMem hBlock hAt)
    · intro hKind r hMem m₂ hGrows hVar
      exact hEnter hAt hOp hKind hMem (hReady₁.grows hGrows) hVar
    · have hReady₂ := hReady₁.grows hGrows
      cases flow with
      | done =>
        exact ih (hReady₂.step hIntact hRegular hReached hBlock hAt hOp hLeaves fun _ => rfl) hNext
      | branch s =>
        refine .pure fun s' hSame => ?_
        cases hSame
        obtain ⟨hKind, hMem⟩ := hLeaves.branch rfl
        obtain ⟨hLast, hSuccs⟩ := successors_of_branch hValid hIntact hRegion hBlock hAt hOp hKind
        refine ⟨?_, _, hSuccs, hMem⟩
        rw [← hLast]
        refine hReady₂.step hIntact hRegular hReached hBlock hAt hOp hLeaves fun hBinds => ?_
        cases hIs : o.kind <;> simp_all [Kind.isBranch, Kind.bindsResult, Kind.isValue]
      | ret values => exact .pure fun s hBranch => by cases hBranch

/- The variable of a loop fills its region. -/
theorem filled_of_loop (hValid : f.problems = .ok []) (hIntact : f.graph.Intact)
    (hReached : f.graph.Reached f.body x) (hOp : f.graph.op x = .ok o)
    (hKind : o.kind.isLoop = true) (hMem : r ∈ o.regions)
    (hVar : ∀ var, f.graph.inductionVar x = .ok var → m.Binds var) : f.Filled r m := by
  have hLoop : ∃ lower upper step, o.kind = .loop lower upper step := by
    unfold Kind.isLoop at hKind
    split at hKind
    next lower upper step hIs => exact ⟨lower, upper, step, hIs⟩
    next => cases hKind
  obtain ⟨lower, upper, step, hIs⟩ := hLoop
  rcases shape_of_loop (kinds_of_reached hValid hReached).2.1 hOp hIs with
    ⟨_, r', reg, b', blk', var, hRegions, hRegion, hBlocks, hBlock', hArgs⟩
  rw [hRegions, mem_singleton] at hMem
  subst hMem
  intro b blk v hBlock hParent hIn
  obtain ⟨reg', hRegion', hListed⟩ := hIntact.home hBlock
  rw [hParent, hRegion] at hRegion'
  cases hRegion'
  rw [hBlocks, mem_singleton] at hListed
  subst hListed
  cases hBlock.symm.trans hBlock'
  rw [hArgs, mem_singleton] at hIn
  subst hIn
  refine hVar v ?_
  unfold Graph.inductionVar Graph.bodyBlock
  simp [hOp, hRegions, hRegion, hBlocks, hBlock, hArgs, entryAt, bind, Except.bind]

/- The body of a function is no region of an operation. -/
theorem body_notMem_regions (hIntact : f.graph.Intact) (hValid : f.problems = .ok [])
    (hOp : f.graph.op x = .ok o) : f.body ∉ o.regions := by
  intro hMem
  obtain ⟨reg, hRegion, hAround⟩ := hIntact.held hOp hMem
  obtain ⟨reg', hRegion', hNone⟩ := (linked_body hValid).region
  cases hRegion.symm.trans hRegion'
  cases hAround.symm.trans hNone

/- The regions of a conditional have nothing to fill. -/
theorem filled_of_conditional (hIntact : f.graph.Intact) (hValid : f.problems = .ok [])
    (hRegular : f.Regular) (hReached : f.graph.Reached f.body x) (hOp : f.graph.op x = .ok o)
    (hKind : o.kind.isLoop = false) (hMem : r ∈ o.regions) : f.Filled r m := by
  intro b blk v hBlock hParent hIn
  subst hParent
  rcases hRegular.args (.inr ⟨x, o, hReached, hOp, hMem⟩) hBlock
    (ne_nil_of_mem hIn) with hEntry | ⟨x', o', hOp', hLoop, hMem'⟩
  · unfold entryBlock at hEntry
    obtain ⟨body, hBody, hEntry⟩ := bind_eq_ok.mp hEntry
    obtain ⟨blk', hBlock', hParent⟩ := hIntact.listed hBody (mem_of_entryAt hEntry)
    cases hBlock.symm.trans hBlock'
    exact absurd (hParent ▸ hMem) (body_notMem_regions hIntact hValid hOp)
  · obtain ⟨reg, hRegion, hAround⟩ := hIntact.held hOp hMem
    obtain ⟨reg', hRegion', hAround'⟩ := hIntact.held hOp' hMem'
    cases hRegion.symm.trans hRegion'
    cases hAround.symm.trans hAround'
    cases hOp.symm.trans hOp'
    cases hKind.symm.trans hLoop

/- The parameters of a function fill its body. -/
theorem filled_of_params {params : List ValueId} (hValid : f.problems = .ok [])
    (hIntact : f.graph.Intact) (hRegular : f.Regular) (hParams : f.arguments = .ok params)
    (hBinds : ∀ v ∈ params, m.Binds v) : f.Filled f.body m := by
  intro b blk v hBlock hParent hIn
  rcases hRegular.args (.inl hParent) hBlock (ne_nil_of_mem hIn) with
    hEntry | ⟨x, o, hOp, _, hMem⟩
  · unfold arguments at hParams
    obtain ⟨b', hEntry', hParams⟩ := bind_eq_ok.mp hParams
    cases hEntry.symm.trans hEntry'
    obtain ⟨blk', hBlock', hParams⟩ := bind_eq_ok.mp hParams
    cases hBlock.symm.trans hBlock'
    rw [pure_eq_ok] at hParams
    rw [hParams] at hIn
    exact hBinds v hIn
  · exact absurd (hParent ▸ hMem) (body_notMem_regions hIntact hValid hOp)

/- A region is run from its first block on. -/
theorem safe_region {block : BlockId → Exec Flow} (hIntact : f.graph.Intact)
    (hFirst : ∀ {b blk reg}, f.graph.block b = .ok blk → blk.parent = r →
      f.graph.region blk.parent = .ok reg → reg.blocks.head? = some b →
      Exec.Safe (block b) m fun _ _ => True) :
    Exec.Safe (Exec.region f.graph block r) m fun _ _ => True := by
  refine .bind (.ask fun first hEntry => ?_)
  unfold Graph.entryBlock? at hEntry
  obtain ⟨reg, hRegion, hHead⟩ := bind_eq_ok.mp hEntry
  rw [pure_eq_ok] at hHead
  cases first with
  | none => exact .pure trivial
  | some b =>
    obtain ⟨blk, hBlock, rfl⟩ := hIntact.listed hRegion (mem_of_head? hHead)
    exact hFirst hBlock rfl hRegion hHead

/- A block that is entered ready, and where it leads. -/
theorem safe_blockUpTo (hValid : f.problems = .ok []) (hIntact : f.graph.Intact)
    (hRegular : f.Regular) (hRegion : f.HasRegion blk.parent) (hBlock : f.graph.block b = .ok blk)
    (hArrives : f.graph.Arrives blk.parent b) (hFilled : f.Filled blk.parent m)
    (hReady : f.Ready b 0 m) : Exec.Safe (Exec.blockUpTo f.graph fuel b) m fun _ _ => True := by
  induction fuel generalizing b blk m with
  | zero => exact .throw rfl
  | succ fuel ih =>
    refine .bind (.ask fun blk' hBlock' => .bind ?_)
    cases hBlock.symm.trans hBlock'
    refine (safe_ops (k := 0) hValid hIntact hRegular hRegion hBlock ?_
      hReady).mono fun flow m' hGrows hDeparts => ?_
    · -- an operation runs a region from its first block on
      intro k x o r m hAt hOp hKind hMem hReady hVar
      have hReached := hRegion.reached (lists_of_getElem? hIntact hBlock hAt)
      refine safe_region hIntact fun {c inner reg} hBlock' hParent hInner hFirst => ?_
      subst hParent
      obtain ⟨reg', hInner', hAround⟩ := hIntact.held hOp hMem
      cases hInner.symm.trans hInner'
      have hFilled' : f.Filled inner.parent m := by
        cases hLoop : o.kind.isLoop with
        | true => exact filled_of_loop hValid hIntact hReached hOp hLoop hMem (hVar hLoop)
        | false => exact filled_of_conditional hIntact hValid hRegular hReached hOp hLoop hMem
      refine ih (.inr ⟨x, o, hReached, hOp, hMem⟩) hBlock'
        (.entry hInner hFirst) hFilled' fun v hKnown => ?_
      rcases hKnown.enter hIntact hBlock' hInner hFirst hAround hBlock hAt with hArgument | hKnown
      · exact hFilled' c inner v hBlock' rfl (hIntact.mem_args hBlock' hArgument)
      · exact hReady v hKnown
    · cases flow with
      | done => exact .pure trivial
      | ret values => exact .pure trivial
      | branch s =>
        obtain ⟨hEnd, succs, hSuccs, hMem⟩ := hDeparts s rfl
        have hFilled' := hFilled.grows hGrows
        rcases successor_of_mem hValid hIntact hRegion hBlock hSuccs hMem with
          ⟨next, hNext, hParent⟩
        obtain ⟨reg, hHome, hListed⟩ := hIntact.home hBlock
        obtain ⟨reg', hHome', hListed'⟩ := hIntact.home hNext
        rw [hParent, hHome] at hHome'
        cases hHome'
        have hArrives' : f.graph.Arrives next.parent s := by
          rw [hParent]
          exact .step hArrives hHome hListed hSuccs hMem hListed'
        rw [← hParent] at hRegion hFilled'
        refine ih hRegion hNext hArrives' hFilled' fun v hKnown => ?_
        rcases hKnown.jump hIntact hBlock hArrives hSuccs hMem hNext hParent with hArgument | hKnown
        · exact hFilled' s next v hNext rfl (hIntact.mem_args hNext hArgument)
        · exact hEnd v hKnown

------
-- Functions
------

/- Assigning values to parameters binds them. -/
theorem safe_assigns {pairs : List (ValueId × Datum)} {Q : Unit → Machine → Prop}
    (hHere : ∀ m', m.Grows m' → (∀ v ∈ pairs.map Prod.fst, m'.Binds v) → Q () m') :
    Exec.Safe (pairs.forM fun (v, d) => Exec.assign v d) m Q := by
  induction pairs generalizing m with
  | nil => exact .pure (hHere m (.refl m) (by simp))
  | cons p pairs ih =>
    refine .bind (.assign (ih fun m' hGrows hBinds => ?_))
    refine hHere m' (fun w hOld => hGrows w ?_) ?_
    · exact (m.binds_insert p.1 w p.2).mpr (.inr hOld)
    · intro v hMem
      rcases mem_cons.mp hMem with rfl | hMem
      · exact hGrows _ ((m.binds_insert p.1 p.1 p.2).mpr (.inl rfl))
      · exact hBinds v hMem

/- A run of a function, from its parameters on. -/
theorem safe_run (hValid : f.problems = .ok []) (hIntact : f.graph.Intact) (hRegular : f.Regular)
    (args : List Datum) (m : Machine) : Exec.Safe (f.run args) m fun _ _ => True := by
  refine .bind (.ask fun params hParams => ?_)
  dsimp only
  split
  next => exact .bind (.throw rfl)
  next hSame =>
    simp only [ne_eq, Decidable.not_not] at hSame
    refine .bind (safe_assigns fun m₁ _ hBinds => ?_)
    rw [map_fst_zip (by omega)] at hBinds
    have hFilled := filled_of_params hValid hIntact hRegular hParams hBinds
    refine .bind (.get (.bind ((safe_region hIntact ?_).mono ?_)))
    · intro b blk reg hBlock hParent hRegion hFirst
      rw [← hParent] at hFilled
      refine safe_blockUpTo hValid hIntact hRegular (.inl hParent) hBlock
        (.entry hRegion hFirst) hFilled fun v hKnown => ?_
      obtain ⟨reg', hRegion', hNone⟩ := (linked_body hValid).region
      rw [← hParent, hRegion] at hRegion'
      cases hRegion'
      exact hFilled b blk v hBlock rfl (hIntact.mem_args hBlock
        (hKnown.first hIntact hBlock hRegion hFirst hNone))
    · intro flow m₂ _ _
      split
      next => exact .pure trivial
      next => exact .pure trivial

/-
  A run of a valid function on any arguments does not ask for
  a value that nothing has bound.
-/
theorem run_ne_unbound (hValid : f.problems = .ok []) (hIntact : f.graph.Intact)
    (hRegular : f.Regular) (args : List Datum) (m : Machine)
    (v : ValueId) : ((f.run args).outcome m).1 ≠ .error (.trap (.typeMismatch (.unbound v))) := by
  have hSafe := safe_run hValid hIntact hRegular args m
  unfold Exec.Safe at hSafe
  rcases hOutcome : (f.run args).outcome m with ⟨e | values, m'⟩
  · rw [hOutcome] at hSafe
    intro hSame
    cases hSame
    cases hSafe
  · intro hSame
    cases hSame

/- A check over all entities for the counts of a function. -/
def isRegular (f : Function) : Bool := (List.range f.graph.ops.slots.size).all (fun i =>
    (f.graph.ops.get? ⟨i⟩).all fun o => o.kind.isForeign ||
      o.results.length ≤ if o.kind.bindsResult then 1 else 0) &&
  (List.range f.graph.blocks.slots.size).all fun i =>
    (f.graph.blocks.get? ⟨i⟩).all fun blk => blk.args.isEmpty || f.entryBlock.toOption = some ⟨i⟩ ||
      (List.range f.graph.ops.slots.size).any fun j =>
        (f.graph.ops.get? ⟨j⟩).any fun o => o.kind.isLoop && o.regions.contains blk.parent

theorem regular_of_isRegular (hCheck : f.isRegular = true) : f.Regular := by
  unfold isRegular at hCheck
  simp only [Bool.and_eq_true, List.all_eq_true, List.mem_range] at hCheck
  obtain ⟨hOps, hBlocks⟩ := hCheck
  constructor
  · intro x o _ hOp hOwn
    have hGet := Arena.get_eq_ok_iff.mp hOp
    have hHere := hOps x.index (Arena.index_lt_of_get? hGet)
    rw [hGet] at hHere
    simpa [hOwn] using hHere
  · intro b blk _ hBlock hArgs
    have hGet := Arena.get_eq_ok_iff.mp hBlock
    have hHere := hBlocks b.index (Arena.index_lt_of_get? hGet)
    rw [hGet] at hHere
    simp only [Option.all_some, Bool.or_eq_true, List.isEmpty_iff, hArgs, false_or,
      decide_eq_true_eq, List.any_eq_true, List.mem_range] at hHere
    rcases hHere with hEntry | ⟨j, _, hLoop⟩
    · refine .inl ?_
      cases hFirst : f.entryBlock with
      | error e =>
        rw [hFirst] at hEntry
        cases hEntry
      | ok b' =>
        rw [hFirst] at hEntry
        cases hEntry
        rfl
    · rw [Option.any_eq_true] at hLoop
      obtain ⟨o, hGet, hKind⟩ := hLoop
      simp only [Bool.and_eq_true, List.contains_iff_mem] at hKind
      exact .inr ⟨⟨j⟩, o, Arena.get_eq_ok_iff.mpr hGet, hKind⟩

/-
  A function that runs a loop or not, as its argument says, and
  uses what it computed before.
-/
def forkedHistory : List Mutation := [ .createRegion none,
    .createBlock ⟨0⟩ [.i1],
    .createBlock ⟨0⟩ [],
    .createBlock ⟨0⟩ [],
    .createOp (.constant (.i32 3)) [] [.i32] [],
    .append ⟨0⟩ ⟨0⟩,
    .createOp .condBranch [⟨0⟩] [] [⟨1⟩, ⟨2⟩],
    .append ⟨0⟩ ⟨1⟩,
    .createOp (.loop (.ofConstant 0) (.ofConstant 4) 1) [] [] [],
    .append ⟨1⟩ ⟨2⟩,
    .createRegion (some ⟨2⟩),
    .createBlock ⟨1⟩ [.index],
    .createOp (.apply (.identity 1)) [⟨2⟩] [.index] [],
    .append ⟨3⟩ ⟨3⟩,
    .createOp .yield [] [] [],
    .append ⟨3⟩ ⟨4⟩,
    .createOp .branch [] [] [⟨2⟩],
    .append ⟨1⟩ ⟨5⟩,
    .createOp (.arith .addi) [⟨1⟩, ⟨1⟩] [.i32] [],
    .append ⟨2⟩ ⟨6⟩,
    .createOp .ret [⟨4⟩] [] [],
    .append ⟨2⟩ ⟨7⟩ ]

def forked : Function where
  name := "forked"
  graph :=
    match (forkedHistory.forM Mutation.apply).run {} with
    | .ok (_, g) => g
    | .error _ => {}
  body := ⟨0⟩
  resultTypes := [.i32]

theorem forked_intact : forked.graph.Intact := by
  unfold forked
  dsimp only
  split
  next hRun => exact Graph.intact_of_coherent (Graph.Grown.empty.applyAll rfl hRun).coherent
  next => exact Graph.intact_of_coherent .empty

theorem forked_problems : forked.problems = .ok [] := by
  decide +kernel

theorem forked_run_ne_unbound :
    (forked.problems = .ok [] ∧ forked.graph.Intact ∧ forked.Regular) ∧
      ∀ d m v, ((forked.run [d]).outcome m).1 ≠ .error (.trap (.typeMismatch (.unbound v))) := by
  have hRegular : forked.Regular := regular_of_isRegular (by decide +kernel)
  exact ⟨⟨forked_problems, forked_intact, hRegular⟩, fun d m v =>
    run_ne_unbound forked_problems forked_intact hRegular [d] m v⟩

end Function

end AffineIR
