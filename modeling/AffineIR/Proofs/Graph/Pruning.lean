import AffineIR.Proofs.Graph.Validity

/-
  Erasure takes away a subtree.

  An operation that is not nested in itself, in a graph whose
  links match, can be erased if none of its results is used.
  What is gone then is the operation with all that is nested in
  it, at any depth.  What is left is as it was, except that the
  block of the operation does not list it, and that values do not
  list the uses that are gone.  An operation with a result that
  is used is not erased, and nothing is changed before that is
  found out.

  Main result: `Graph.erase_prunes`
-/

namespace AffineIR

open Answer List Arena

------
-- Steps that are possible
------

/- Steps that are possible one by one are possible in a row. -/
theorem Answer.forM_of_forall
    {α σ ε : Type} {p : σ → Prop} {e : α → StateT σ (Except ε) Unit} {s : σ} (xs : List α)
    (hEach : ∀ x ∈ xs, ∀ s, p s → ∃ s', (e x).run s = .ok ((), s') ∧ p s')
    (hStart : p s) : ∃ s', (xs.forM e).run s = .ok ((), s') := by
  induction xs generalizing s with
  | nil => exact ⟨s, rfl⟩
  | cons x xs ih =>
    obtain ⟨s₁, hFirst, hNext⟩ := hEach x mem_cons_self s hStart
    obtain ⟨s', hRest⟩ := ih (fun y hMem => hEach y (mem_cons_of_mem x hMem)) hNext
    exact ⟨s', run_bind_eq_ok.mpr ⟨(), s₁, hFirst, hRest⟩⟩

namespace Edit

open AffineIR.Graph

variable {g g' : Graph} {x : OpId} {o : Operation} {vs : List ValueId}

theorem ask_bind {α β : Type} {question : Graph → Except Fault α} {k : α → Edit β} {a : α}
    (hAnswer : question g = .ok a) : (ask question >>= k).run g = (k a).run g := by
  simp only [ask, bind_assoc, StateT.run_bind, StateT.run_get, pure_bind, hAnswer]
  rfl

theorem exists_modifyOp (hOp : g.ops.get? x = some o) (k : Operation → Operation) :
    (modifyOp x k).run g = .ok ((), { g with ops := g.ops.set x (k o) }) :=
  run_bind_eq_ok.mpr ⟨g, g, rfl, run_lift_bind_eq_ok.mpr ⟨_, modify_eq_ok.mpr ⟨o, hOp, rfl⟩, rfl⟩⟩

theorem exists_modifyBlock {b : BlockId} {blk : Block} (hBlock : g.blocks.get? b = some blk)
    (k : Block → Block) :
    (modifyBlock b k).run g = .ok ((), { g with blocks := g.blocks.set b (k blk) }) :=
  run_bind_eq_ok.mpr ⟨g, g, rfl, run_lift_bind_eq_ok.mpr
    ⟨_, modify_eq_ok.mpr ⟨blk, hBlock, rfl⟩, rfl⟩⟩

theorem exists_dropUses
    (hOp : g.ops.get? x = some o) : ∃ g', (dropUses x).run g = .ok ((), g') := by
  rcases Answer.forM_of_forall (p := fun _ => True) _ (fun pair _ s _ => ⟨_, rfl, trivial⟩)
    trivial with ⟨g', hRun⟩
  unfold dropUses
  rw [ask_bind (get_eq_ok_iff.mpr hOp)]
  exact ⟨g', run_bind_eq_ok.mpr ⟨(), _, exists_modifyOp hOp _, hRun⟩⟩

theorem exists_detach (hOp : g.ops.get? x = some o)
    (hBlock : ∀ b, o.parent = some b → ∃ blk, g.blocks.get? b = some blk) :
    ∃ g', (detach x).run g = .ok ((), g') := by
  unfold detach
  rw [ask_bind (get_eq_ok_iff.mpr hOp)]
  cases hParent : o.parent with
  | none => exact ⟨g, rfl⟩
  | some b =>
    obtain ⟨blk, hBlock⟩ := hBlock b hParent
    have hList := exists_modifyBlock (g := { g with ops := g.ops.set x { o with parent := none } })
      hBlock fun blk => { blk with ops := blk.ops.filter (· ≠ x) }
    exact ⟨_, run_bind_eq_ok.mpr ⟨(), _, exists_modifyOp hOp _, hList⟩⟩

/- Storage can always be emptied. -/
theorem exists_removeStorage (x : OpId) (g : Graph) :
    ∃ g', (removeStorage x).run g = .ok ((), g') := by
  have hRegion (r : RegionId) (g : Graph) : ∃ g', (removeRegion r).run g = .ok ((), g') := by
    unfold removeRegion
    cases hGet : g.regions.get? r with
    | none => exact ⟨g, run_bind_eq_ok.mpr ⟨g, g, rfl, by rw [hGet]; rfl⟩⟩
    | some reg =>
      rcases Answer.forM_of_forall (p := fun _ => True) (e := removeBlock) reg.blocks
        (fun b _ s _ => ⟨_, rfl, trivial⟩) trivial with ⟨g', hRun⟩
      refine ⟨g', run_bind_eq_ok.mpr ⟨g, g, rfl, ?_⟩⟩
      rw [hGet]
      exact run_bind_eq_ok.mpr ⟨(), _, rfl, hRun⟩
  unfold removeStorage
  cases hGet : g.ops.get? x with
  | none => exact ⟨g, run_bind_eq_ok.mpr ⟨g, g, rfl, by rw [hGet]; rfl⟩⟩
  | some o =>
    rcases Answer.forM_of_forall (p := fun _ => True) (e := removeRegion) o.regions
      (fun r _ s _ => (hRegion r s).imp fun _ hRun => ⟨hRun, trivial⟩) trivial with ⟨g', hRun⟩
    refine ⟨g', run_bind_eq_ok.mpr ⟨g, g, rfl, ?_⟩⟩
    rw [hGet]
    exact run_bind_eq_ok.mpr ⟨(), _, rfl, hRun⟩

/- The check of the results, which changes nothing. -/
theorem run_requireUnused (hOp : g.op x = .ok o)
    (hLive : ∀ v ∈ o.results, ∃ used, g.hasUses v = .ok used) :
    (requireUnused x).run g =
      match o.results.find? (fun v => g.hasUses v = .ok true) with
      | some v => .error (.resultInUse x v)
      | none => .ok ((), g) := by
  unfold requireUnused
  rw [ask_bind hOp]
  generalize o.results = vs at hLive
  induction vs with
  | nil => rfl
  | cons v vs ih =>
    obtain ⟨used, hUses⟩ := hLive v mem_cons_self
    rw [List.find?_cons]
    cases used with
    | true =>
      simp only [hUses, decide_true]
      show ((do if ← ask (·.hasUses v) then throw (Fault.resultInUse x v)) >>= fun _ => _ :
        Edit Unit).run g = _
      rw [StateT.run_bind, ask_bind hUses]
      rfl
    | false =>
      simp only [hUses]
      show ((do if ← ask (·.hasUses v) then throw (Fault.resultInUse x v)) >>= fun _ => _ :
        Edit Unit).run g = _
      rw [StateT.run_bind, ask_bind hUses]
      exact ih fun w hMem => hLive w (mem_cons_of_mem v hMem)

end Edit

namespace Graph

variable {g : Graph} {x : OpId} {o : Operation}

theorem Intact.op_of_holder {y : OpId} (hIntact : g.Intact)
    (hHolder : g.Holder x y) : ∃ o, g.op y = .ok o := by
  obtain ⟨_, _, b, _, _, _, blk, hBlock, hMem⟩ := hHolder
  obtain ⟨o, hOp, _⟩ := hIntact.placed hBlock hMem
  exact ⟨o, hOp⟩

/-
  A walk ends where no operation is nested in itself: on the way
  in it meets each operation at most once.
-/
theorem Intact.walkFrom_of_nested {order : WalkOrder} {outer : List OpId} {depth : Nat}
    (hIntact : g.Intact) (hNested : ∀ y, g.Inside x y → ¬g.Within y y) (hOp : ∃ o, g.op x = .ok o)
    (hOuter : ∀ z ∈ outer, g.Within z x ∧ ∃ o, g.op z = .ok o) (hNodup : outer.Nodup)
    (hRoom : g.ops.slots.size < outer.length + depth) :
    ∃ ops, g.walkFrom order depth x = .ok ops := by
  induction depth generalizing x outer with
  | zero =>
    have hLength := length_le_of_nodup hNodup fun z hMem => (hOuter z hMem).2
    omega
  | succ depth ih =>
    obtain ⟨o, hOp⟩ := hOp
    refine hIntact.walkFrom_succ hOp fun y hHolder => ?_
    have hInto : g.Inside x y := .child .self hHolder
    refine @ih y (x :: outer) (fun z hInside => hNested z (hInto.trans hInside))
      (hIntact.op_of_holder hHolder) ?_ ?_ ?_
    · rintro z (_ | ⟨_, hMem⟩)
      · exact ⟨hHolder.within, o, hOp⟩
      · exact ⟨(hOuter z hMem).1.trans hInto, (hOuter z hMem).2⟩
    · exact nodup_cons.mpr ⟨fun hMem => hNested x .self (hOuter x hMem).1, hNodup⟩
    · rw [length_cons]
      omega

theorem exists_erase (hCoherent : g.Coherent) (hNested : ∀ y, g.Inside x y → ¬g.Within y y)
    (hOp : g.op x = .ok o) (hCheck : (Edit.requireUnused x).run g = .ok ((), g)) :
    ∃ g', (Edit.erase x).run g = .ok ((), g') := by
  have hIntact := intact_of_coherent hCoherent
  obtain ⟨doomed, hWalk⟩ : ∃ ops, g.walkFrom .post g.depthBound x = .ok ops :=
    hIntact.walkFrom_of_nested hNested ⟨o, hOp⟩ (forall_mem_nil _) nodup_nil (by simp [depthBound])
  have hLive : ∀ y ∈ doomed, ∃ o, g.ops.get? y = some o := by
    intro y hMem
    cases (mem_walkFrom_iff hWalk).mp hMem with
    | self => exact ⟨o, get_eq_ok_iff.mp hOp⟩
    | child _ hHolder =>
      obtain ⟨o', hOp'⟩ := hIntact.op_of_holder hHolder
      exact ⟨o', get_eq_ok_iff.mp hOp'⟩
  -- Forgetting operands keeps all operations alive.
  have hEach : ∀ y ∈ doomed, ∀ g₁ : Graph, (∀ z ∈ doomed, ∃ o, g₁.ops.get? z = some o) →
      ∃ g₂, (Edit.dropUses y).run g₁ = .ok ((), g₂) ∧
        ∀ z ∈ doomed, ∃ o, g₂.ops.get? z = some o := by
    intro y hMem g₁ hLive
    obtain ⟨o', hOp'⟩ := hLive y hMem
    obtain ⟨g₂, hRun⟩ := Edit.exists_dropUses hOp'
    refine ⟨g₂, hRun, fun z hIn => ?_⟩
    obtain ⟨o'', hOp''⟩ := hLive z hIn
    rw [(Edit.stripped_dropUses hRun).op, hOp'']
    exact ⟨_, rfl⟩
  obtain ⟨g₁, hDrop⟩ := Answer.forM_of_forall _ hEach hLive
  have hStripped := Edit.stripped_dropAll hDrop
  have hSelf := hStripped.op x
  rw [get_eq_ok_iff.mp hOp, Option.map_some,
    if_pos ((mem_walkFrom_iff hWalk).mpr .self)] at hSelf
  rcases Edit.exists_detach hSelf (fun b hParent => by
    obtain ⟨blk, hBlock, _⟩ := ((hIntact.place hOp).mp hParent).1
    rw [hStripped.blocks]
    exact ⟨blk, get_eq_ok_iff.mp hBlock⟩) with ⟨g₂, hDetach⟩
  rcases Answer.forM_of_forall (p := fun _ => True) (e := Edit.removeStorage) doomed
    (fun y _ g _ => (Edit.exists_removeStorage y g).imp fun _ hRun => ⟨hRun, trivial⟩)
    trivial with ⟨g', hRemove⟩
  exact ⟨g', run_bind_eq_ok.mpr ⟨(), g, hCheck, Edit.run_ask_bind.mpr ⟨doomed, hWalk,
    run_bind_eq_ok.mpr ⟨(), g₁, hDrop, run_bind_eq_ok.mpr ⟨(), g₂, hDetach, hRemove⟩⟩⟩⟩⟩

/-
  An operation without used results is erased, with all that is
  nested in it and nothing else.  One with a used result is not,
  and that is found out by a check that comes before any change.
-/
theorem erase_prunes (hCoherent : g.Coherent) (hNested : ∀ y, g.Inside x y → ¬g.Within y y)
    (hOp : g.op x = .ok o) :
    ((∀ v ∈ o.results, g.hasUses v = .ok false) →
      ∃ g' doomed, (Edit.erase x).run g = .ok ((), g') ∧ (∀ y, y ∈ doomed ↔ g.Inside x y) ∧
        g.Pruned g' x doomed) ∧
    ((∃ v ∈ o.results, g.hasUses v = .ok true) →
      ∃ v ∈ o.results, g.hasUses v = .ok true ∧
        (Edit.requireUnused x).run g = .error (.resultInUse x v) ∧
        (Edit.erase x).run g = .error (.resultInUse x v)) := by
  have hIntact := intact_of_coherent hCoherent
  have hLive : ∀ v ∈ o.results, ∃ used, g.hasUses v = .ok used := by
    intro v hMem
    obtain ⟨i, hAt⟩ := List.getElem?_of_mem hMem
    obtain ⟨val, hValue, _⟩ := hIntact.result hOp hAt
    exact ⟨_, bind_eq_ok.mpr ⟨val, hValue, rfl⟩⟩
  have hCheck := Edit.run_requireUnused hOp hLive
  constructor
  · intro hUnused
    have hNone : o.results.find? (fun v => g.hasUses v = .ok true) = none := by
      rw [List.find?_eq_none]
      intro v hMem
      simp [hUnused v hMem]
    rw [hNone] at hCheck
    obtain ⟨g', hRun⟩ := exists_erase hCoherent hNested hOp hCheck
    obtain ⟨doomed, hDoomed, _, _, hPruned⟩ := Edit.clipped_erase hRun
    exact ⟨g', doomed, hRun, hDoomed, hPruned hCoherent.values⟩
  · intro ⟨w, hMem, hUsed⟩
    cases hFind : o.results.find? (fun v => g.hasUses v = .ok true) with
    | none => exact absurd (List.find?_eq_none.mp hFind w hMem) (by simp [hUsed])
    | some v =>
      rw [hFind] at hCheck
      refine ⟨v, mem_of_find?_eq_some hFind, by simpa using List.find?_some hFind, hCheck, ?_⟩
      unfold Edit.erase
      rw [StateT.run_bind, hCheck]
      rfl

/- Where nested operations have higher handles, none is nested in itself. -/
theorem Intact.not_within_of_index {y : OpId} (hIntact : g.Intact)
    (hAll : (List.range g.ops.slots.size).all (fun i =>
      match g.parentOp? ⟨i⟩ with
      | .ok (some z) => z.index < i
      | _ => true) = true) : ¬g.Within y y := by
  have hHigher {z w : OpId} (hHolder : g.Holder z w) : z.index < w.index := by
    obtain ⟨o, hOp⟩ := hIntact.op_of_holder hHolder
    have hHere := all_eq_true.mp hAll w.index
      (mem_range.mpr (index_lt_of_get? (get_eq_ok_iff.mp hOp)))
    rw [hIntact.parentOp?_of_holder hHolder] at hHere
    simpa using hHere
  intro ⟨w, hHolder, hInside⟩
  have hLess : ∀ {z}, g.Inside w z → w.index ≤ z.index := fun hInside => by
    induction hInside with
    | self => exact le_rfl
    | child _ hHolder ih => exact ih.trans (hHigher hHolder).le
  exact absurd (hHigher hHolder) (Nat.not_lt.mpr (hLess hInside))

/- One operation is erased, and one whose result is used is not. -/
theorem nestedGraph_erase_prunes :
    (∃ g' doomed, (Edit.erase ⟨1⟩).run nestedGraph = .ok ((), g') ∧
        nestedGraph.Inside ⟨1⟩ ⟨3⟩ ∧ nestedGraph.Pruned g' ⟨1⟩ doomed) ∧
      ∃ v, (Edit.erase ⟨0⟩).run nestedGraph = .error (.resultInUse ⟨0⟩ v) := by
  have hCoherent := (Grown.empty.applyAll rfl run_nestedHistory).coherent
  have hNested : ∀ y, ¬nestedGraph.Within y y := fun y =>
    (intact_of_coherent hCoherent).not_within_of_index (by decide +kernel)
  have hFirst : nestedGraph.ops.view Operation.results ⟨1⟩ = some [] := by decide +kernel
  have hOther : nestedGraph.ops.view Operation.results ⟨0⟩ = some [⟨1⟩] := by decide +kernel
  have hUsed : nestedGraph.hasUses ⟨1⟩ = .ok true := by decide +kernel
  have hWalk : nestedGraph.walkOp .post ⟨1⟩ = .ok [⟨2⟩, ⟨3⟩, ⟨1⟩] := by decide +kernel
  obtain ⟨o, hOp, hNone⟩ := view_eq_some.mp hFirst
  obtain ⟨o', hOp', hSome⟩ := view_eq_some.mp hOther
  constructor
  · rcases (erase_prunes hCoherent (fun y _ => hNested y) (get_eq_ok_iff.mpr hOp)).1
      (by simp [hNone]) with ⟨g', doomed, hRun, _, hPruned⟩
    exact ⟨g', doomed, hRun, (mem_walkFrom_iff hWalk).mp (by simp), hPruned⟩
  · rcases (erase_prunes hCoherent (fun y _ => hNested y) (get_eq_ok_iff.mpr hOp')).2
      ⟨⟨1⟩, by simp [hSome], hUsed⟩ with ⟨v, _, _, _, hRun⟩
    exact ⟨v, hRun⟩

end Graph

end AffineIR
