import AffineIR.Proofs.Nest.Independence

/-
  Perfect nests.

  In a perfect nest the loops are a chain, and the body of each
  loop but the innermost one holds the next loop and a terminator
  and nothing else.  There is nothing to plan for such a nest.

  Main result: `Perfection.plan_of_perfect`
-/

namespace AffineIR

open Answer List

variable {depth : Nat} {last outer passage : OpId} {chain inner loops ops outers : List OpId}

namespace Graph

/- An operation is a loop. -/
def isLoop (g : Graph) (x : OpId) : Bool := (g.ops.get? x).any fun o => o.kind.isLoop

/- The body of a loop holds another operation and a terminator only. -/
def Encloses (g : Graph) (outer next : OpId) : Prop :=
  ∃ b blk last o, g.LoopBody outer b blk ∧ blk.ops = [next, last] ∧
    g.op last = .ok o ∧ o.kind.isTerminator = true

/- The loops of a nest are a chain, each but the last with no statements. -/
def Perfect (g : Graph) (root : OpId) : Prop := ∃ rest, (root :: rest).IsChain g.Encloses ∧
    ∀ x, x ∈ root :: rest ↔ g.Inside root x ∧ g.isLoop x = true

variable {g g' : Graph} {body : RegionId} {x y root next : OpId} {b : BlockId} {blk : Block}
  {rest : List OpId}

theorem isLoop_of_op {o : Operation} (hOp : g.op x = .ok o) : g.isLoop x = o.kind.isLoop := by
  unfold isLoop
  rw [Arena.get_eq_ok_iff.mp hOp]
  rfl

theorem isLoop_iff : g.isLoop x = true ↔ ∃ o, g.op x = .ok o ∧ o.kind.isLoop = true := by
  unfold isLoop op
  rw [Option.any_eq_true]
  simp only [Arena.get_eq_ok_iff]

theorem LoopBody.isLoop (hBody : g.LoopBody x b blk) : g.isLoop x = true := by
  obtain ⟨o, hOp, hLoop, _⟩ := hBody.op
  exact isLoop_iff.mpr ⟨o, hOp, hLoop⟩

theorem Encloses.holder (hEncloses : g.Encloses outer next) : g.Holder outer next := by
  obtain ⟨b, blk, last, o, hBody, hOps, _⟩ := hEncloses
  exact hBody.holder (by simp [hOps])

/- What is further down a chain is inside what is further up. -/
theorem inside_of_holders (hChain : (outer :: rest).IsChain g.Holder)
    (hMem : x ∈ outer :: rest) : g.Inside outer x := by
  induction rest generalizing outer with
  | nil => exact mem_singleton.mp hMem ▸ .self
  | cons next rest ih =>
    obtain ⟨hFirst, hRest⟩ := isChain_cons_cons.mp hChain
    rcases mem_cons.mp hMem with rfl | hMem
    · exact .self
    · exact (Inside.child .self hFirst).trans (ih hRest hMem)

theorem inside_of_isChain (hChain : (outer :: rest).IsChain g.Encloses)
    (hMem : x ∈ outer :: rest) : g.Inside outer x :=
  inside_of_holders (hChain.imp fun _ _ => Encloses.holder) hMem

theorem KeepsOp.isLoop (hKeeps : g.KeepsOp g' x) : g'.isLoop x = g.isLoop x := by
  rw [Bool.eq_iff_iff, isLoop_iff, isLoop_iff, hKeeps.op]

theorem KeepsNest.encloses (hKeeps : g.KeepsNest g' outer)
    (hEncloses : g.Encloses outer next) : g'.Encloses outer next := by
  obtain ⟨b, blk, last, o, hBody, hOps, hLast, hEnd⟩ := hEncloses
  have hInside : g.Inside outer last := .child .self (hBody.holder (by simp [hOps]))
  exact ⟨b, blk, last, o, (hKeeps .self).loopBody hBody, hOps,
    (hKeeps hInside).op.trans hLast, hEnd⟩

theorem KeepsNest.isChain (hKeeps : g.KeepsNest g' root) (hInside : ∀ x ∈ rest, g.Inside root x)
    (hChain : rest.IsChain g.Encloses) : rest.IsChain g'.Encloses := by
  refine hChain.imp_of_mem_imp ?_
  intro outer next hOuter _ hEncloses
  exact (hKeeps.of_inside (hInside outer hOuter)).encloses hEncloses

/- A perfect nest that is kept stays perfect. -/
theorem KeepsNest.perfect (hKeeps : g.KeepsNest g' root)
    (hPerfect : g.Perfect root) : g'.Perfect root := by
  obtain ⟨rest, hChain, hLoops⟩ := hPerfect
  refine ⟨rest, hKeeps.isChain ?_ hChain, ?_⟩
  · intro x hMem
    exact ((hLoops x).mp hMem).1
  · intro x
    rw [hLoops, hKeeps.inside_iff]
    refine and_congr_right ?_
    intro hInside
    rw [(hKeeps hInside).isLoop]

theorem LoopBody.children (hBody : g.LoopBody x b blk) : g.children x = .ok blk.ops := by
  obtain ⟨o, hOp, _, hRegions⟩ := hBody.op
  obtain ⟨reg, hRegion, hBlocks, _⟩ := hBody.region
  have hOps : g.regionOps blk.parent = .ok blk.ops := by
    unfold regionOps
    rw [hRegion, ok_bind, hBlocks]
    simp [hBody.block, bind, Except.bind, pure, Except.pure]
  unfold Graph.children
  rw [hOp, ok_bind, hRegions]
  simp [hOps, bind, Except.bind, pure, Except.pure]

/- A post-order walk ends where it starts. -/
theorem walkFrom_post (hWalk : g.walkFrom .post depth x = .ok ops) :
    ∃ front, ops = front ++ [x] ∧ ∀ y ∈ front, g.Within x y := by
  cases depth with
  | zero => cases hWalk
  | succ depth =>
    obtain ⟨below, hBelow, hRest⟩ := bind_eq_ok.mp hWalk
    obtain ⟨inner, hInner, hPure⟩ := bind_eq_ok.mp hRest
    refine ⟨inner.flatten, (pure_eq_ok.mp hPure).symm, ?_⟩
    intro y hMem
    obtain ⟨list, hList, hIn⟩ := mem_flatten.mp hMem
    obtain ⟨z, hChild, hThere⟩ := Answer.exists_of_mem_mapM hInner hList
    exact ⟨z, (mem_children_iff hBelow).mp hChild, (mem_walkFrom_iff hThere).mp hIn⟩

/- A walk of a loop around another one. -/
theorem walkFrom_of_pair (hBody : g.LoopBody outer b blk) (hOps : blk.ops = [next, last])
    (hWalk : g.walkFrom .post depth outer = .ok ops) :
    ∃ depth' first second, g.walkFrom .post depth' next = .ok first ∧
      g.walkFrom .post depth' last = .ok second ∧ ops = first ++ second ++ [outer] := by
  cases depth with
  | zero => cases hWalk
  | succ depth =>
    obtain ⟨below, hBelow, hRest⟩ := bind_eq_ok.mp hWalk
    cases hBelow.symm.trans hBody.children
    obtain ⟨inner, hInner, hPure⟩ := bind_eq_ok.mp hRest
    rw [hOps] at hInner
    obtain ⟨first, _, hFirst, hTail, rfl⟩ := mapM_cons_eq_ok.mp hInner
    obtain ⟨second, _, hSecond, hNil, rfl⟩ := mapM_cons_eq_ok.mp hTail
    cases hNil
    refine ⟨depth, first, second, hFirst, hSecond, ?_⟩
    simpa using (pure_eq_ok.mp hPure).symm

section Perfect

variable (hIntact : g.Intact) (hBody : g.Linked body none)

include hIntact hBody

/- What is beside the next loop of a chain holds no loops. -/
theorem not_isLoop_beside (hReached : g.Reached body outer) (hLoop : g.LoopBody outer b blk)
    (hOps : blk.ops = [next, last]) (hChain : (next :: rest).IsChain g.Encloses)
    (hAll : ∀ x, g.Inside outer x → g.isLoop x = true → x ∈ outer :: next :: rest)
    (hInside : g.Inside last x) : g.isLoop x = false := by
  have hHolder : g.Holder outer last := hLoop.holder (by simp [hOps])
  have hWithin : g.Within outer x := hHolder.within.trans hInside
  have hThere := hWithin.inside.reached hReached
  rw [Bool.eq_false_iff]
  intro hTrue
  rcases mem_cons.mp (hAll x hWithin.inside hTrue) with rfl | hMem
  · exact hIntact.ne_of_within hBody hThere hWithin rfl
  · have hSame : next = last := hIntact.eq_of_inside hBody hThere
      (inside_of_isChain hChain hMem) hInside (hIntact.sits_of_mem hLoop.block (by simp [hOps]))
      (hIntact.sits_of_mem hLoop.block (by simp [hOps]))
    have hNodup := hIntact.nodup_ops hLoop.block
    rw [hOps, nodup_cons, mem_singleton] at hNodup
    exact hNodup.1 hSame

/- A walk meets the loops of a perfect nest from the inside out. -/
theorem filter_isLoop_walk (hReached : g.Reached body outer)
    (hChain : (outer :: rest).IsChain g.Encloses)
    (hLoops : ∀ x, x ∈ outer :: rest ↔ g.Inside outer x ∧ g.isLoop x = true)
    (hWalk : g.walkFrom .post depth outer = .ok ops) :
    ops.filter g.isLoop = (outer :: rest).reverse := by
  have hHere : g.isLoop outer = true := ((hLoops outer).mp mem_cons_self).2
  induction rest generalizing outer depth ops with
  | nil =>
    obtain ⟨front, rfl, hFront⟩ := walkFrom_post hWalk
    have hNone : front.filter g.isLoop = [] := by
      rw [filter_eq_nil_iff]
      intro y hMem hTrue
      have hWithin := hFront y hMem
      have hSame := (hLoops y).mpr ⟨hWithin.inside, hTrue⟩
      exact hIntact.ne_of_within hBody (hWithin.inside.reached hReached) hWithin
        (mem_singleton.mp hSame).symm
    rw [filter_append, hNone, filter_cons_of_pos hHere]
    rfl
  | cons next rest ih =>
    obtain ⟨hFirst, hRest⟩ := isChain_cons_cons.mp hChain
    obtain ⟨b, blk, last, o, hLoop, hOps, _⟩ := hFirst
    have hHolder : g.Holder outer next := hLoop.holder (by simp [hOps])
    obtain ⟨depth', first, second, hWalk₁, hWalk₂, rfl⟩ := walkFrom_of_pair hLoop hOps hWalk
    have hInner : ∀ x, x ∈ next :: rest ↔ g.Inside next x ∧ g.isLoop x = true := by
      intro x
      constructor
      · intro hMem
        exact ⟨inside_of_isChain hRest hMem, ((hLoops x).mp (mem_cons_of_mem _ hMem)).2⟩
      · rintro ⟨hInside, hTrue⟩
        have hWithin : g.Within outer x := hHolder.within.trans hInside
        have hOther := hIntact.ne_of_within hBody (hWithin.inside.reached hReached) hWithin
        have hMem := (hLoops x).mpr ⟨hWithin.inside, hTrue⟩
        exact (mem_cons.mp hMem).resolve_left hOther.symm
    have hNone : second.filter g.isLoop = [] := by
      rw [filter_eq_nil_iff]
      intro y hMem
      rw [not_isLoop_beside hIntact hBody hReached hLoop hOps hRest
        (fun x hInside hTrue => (hLoops x).mpr ⟨hInside, hTrue⟩)
        ((mem_walkFrom_iff hWalk₂).mp hMem)]
      exact Bool.false_ne_true
    have hSome := ih (.child hReached hHolder) hRest hInner hWalk₁
      ((hInner next).mp mem_cons_self).2
    rw [filter_append, filter_append, hSome, hNone,
      filter_cons_of_pos hHere, append_nil, filter_nil, ← reverse_cons]

end Perfect

end Graph

namespace Perfection

variable {g : Graph} {body : RegionId} {function : String} {root : OpId}

/- Loops that are each directly in the next are found to be a chain. -/
theorem chainOf_of_isChain (hLive : ∀ x ∈ ops, ∃ o, g.op x = .ok o)
    (hChain : (chain ++ ops.filter g.isLoop).IsChain fun x y =>
      g.parentOp? x = .ok (some y)) :
    chainOf g chain ops = .ok (some (chain ++ ops.filter g.isLoop)) := by
  induction ops generalizing chain with
  | nil =>
    rw [filter_nil, append_nil]
    rfl
  | cons x ops ih =>
    obtain ⟨⟨o, hOp⟩, hRest⟩ := forall_mem_cons.mp hLive
    have hKind : g.kind x = .ok o.kind := by
      unfold Graph.kind
      rw [hOp]
      rfl
    unfold chainOf
    rw [hKind, ok_bind]
    cases hLoop : o.kind.isLoop with
    | false =>
      rw [← Graph.isLoop_of_op hOp] at hLoop
      rw [filter_cons_of_neg (by simp [hLoop])] at hChain ⊢
      exact ih hRest hChain
    | true =>
      rw [← Graph.isLoop_of_op hOp] at hLoop
      rw [filter_cons_of_pos hLoop, append_cons chain x (ops.filter g.isLoop)] at hChain ⊢
      cases hLast : chain.getLast? with
      | none =>
        rw [List.getLast?_eq_none_iff] at hLast
        subst hLast
        exact ih hRest hChain
      | some previous =>
        have hParent : g.parentOp? previous = .ok (some x) := by
          have hFront := (isChain_append.mp hChain).1
          exact (isChain_append.mp hFront).2.2 previous hLast x rfl
        simp only [hParent, ok_bind, Bool.not_true, if_true]
        exact ih hRest hChain

/- A chain that is found has all loops in it. -/
theorem eq_filter_of_chainOf
    (hChain : chainOf g chain ops = .ok (some loops)) : loops = chain ++ ops.filter g.isLoop := by
  induction ops generalizing chain with
  | nil =>
    cases hChain
    rw [filter_nil, append_nil]
  | cons x ops ih =>
    obtain ⟨kind, hKind, hChain⟩ := bind_eq_ok.mp hChain
    obtain ⟨o, hOp, hPure⟩ := bind_eq_ok.mp hKind
    cases hPure
    rw [← Graph.isLoop_of_op hOp] at hChain
    split at hChain
    next hOther =>
      rw [filter_cons_of_neg (by simpa using hOther)]
      exact ih hChain
    next hLoop =>
      rw [Bool.not_eq_true', Bool.not_eq_false] at hLoop
      rw [filter_cons_of_pos hLoop]
      split at hChain
      next hNone =>
        rw [List.getLast?_eq_none_iff.mp hNone]
        exact ih hChain
      next =>
        obtain ⟨parent, _, hChain⟩ := bind_eq_ok.mp hChain
        split at hChain
        next =>
          rw [append_cons]
          exact ih hChain
        next => cases pure_eq_ok.mp hChain

/- Nothing has to move out of a loop that holds the next one only. -/
theorem levelOf_of_encloses (hIntact : g.Intact)
    (hEncloses : g.Encloses outer passage) : levelOf g function inner passage outer = .ok none := by
  obtain ⟨b, blk, last, o, hBody, hOps, hLast, hEnd⟩ := hEncloses
  have hMem : passage ∈ blk.ops := by simp [hOps]
  obtain ⟨i, hPosition, hAt⟩ := (hIntact.sits_of_mem hBody.block hMem).position hBody.block
  have hFirst : i = 0 := (hIntact.place_unique hBody.block hAt hBody.block (by rw [hOps]; rfl)).2
  subst hFirst
  have hKind : g.kind last = .ok o.kind := by
    unfold Graph.kind
    rw [hLast]
    rfl
  have hNone : [last].filterM (fun x =>
      (return !(← g.kind x).isTerminator : Except Fault Bool)) = .ok [] := by
    rw [Answer.filterM_of_forall (q := fun _ => false)]
    · rfl
    · intro x hIn
      rw [mem_singleton.mp hIn, hKind, ok_bind, hEnd]
      rfl
  have hBlock : (do g.block (← g.bodyBlock outer)) = .ok blk := by
    rw [hBody.bodyBlock, ok_bind, hBody.block]
  refine bind_eq_ok.mpr ⟨blk, ask_eq_ok.mpr hBlock, ?_⟩
  refine bind_eq_ok.mpr ⟨0, ask_eq_ok.mpr hPosition, ?_⟩
  rw [hOps]
  refine bind_eq_ok.mpr ⟨[], rfl, bind_eq_ok.mpr ⟨[last], rfl, ?_⟩⟩
  exact bind_eq_ok.mpr ⟨[], ask_eq_ok.mpr hNone, rfl⟩

theorem levelsOf_of_isChain (hIntact : g.Intact)
    (hChain : (passage :: outers).IsChain fun x y => g.Encloses y x) :
    levelsOf g function inner passage outers = .ok [] := by
  induction outers generalizing inner passage with
  | nil => rfl
  | cons outer outers ih =>
    obtain ⟨hFirst, hRest⟩ := isChain_cons_cons.mp hChain
    unfold levelsOf
    rw [levelOf_of_encloses hIntact hFirst, ok_bind, ih hRest]
    rfl

/- There is nothing to do in a perfect nest. -/
theorem plan_of_perfect (hIntact : g.Intact) (hBody : g.Linked body none)
    (hReached : g.Reached body root)
    (hPerfect : g.Perfect root) : plan g function root = .ok [] := by
  obtain ⟨rest, hChain, hLoops⟩ := hPerfect
  obtain ⟨ls, hRises⟩ := hIntact.rises_of_reached hBody hReached
  have hWalks : ∃ ops, g.walkOp .post root = .ok ops := by
    refine hIntact.walkFrom hRises ?_
    unfold Graph.depthBound
    omega
  obtain ⟨ops, hWalk⟩ := hWalks
  have hFilter := Graph.filter_isLoop_walk hIntact hBody hReached hChain hLoops hWalk
  have hLive : ∀ x ∈ ops, ∃ o, g.op x = .ok o := by
    intro x hMem
    have hInside := (Graph.mem_walkFrom_iff hWalk).mp hMem
    exact hIntact.op_of_reached (hInside.reached hReached)
  have hInsideOut : (ops.filter g.isLoop).IsChain fun x y => g.Encloses y x := by
    rw [hFilter]
    exact isChain_reverse.mpr hChain
  have hFound : chainOf g [] ops = .ok (some (ops.filter g.isLoop)) := by
    refine chainOf_of_isChain hLive ?_
    refine hInsideOut.imp ?_
    intro next outer hEncloses
    exact hIntact.parentOp?_of_holder hEncloses.holder
  refine bind_eq_ok.mpr ⟨ops, ask_eq_ok.mpr hWalk, ?_⟩
  refine bind_eq_ok.mpr ⟨_, ask_eq_ok.mpr hFound, ?_⟩
  cases hAll : ops.filter g.isLoop with
  | nil => rfl
  | cons innermost outers =>
    rw [hAll] at hInsideOut
    exact bind_eq_ok.mpr ⟨[], levelsOf_of_isChain hIntact hInsideOut, rfl⟩

end Perfection

end AffineIR
