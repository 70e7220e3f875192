import AffineIR.Proofs.Nest.Confinement

/-
  Plans of nests that look the same.

  A plan asks about the operations of its nest, about the users
  of their results, and about what is around these.  So the plan
  of a nest that is the same in two graphs is the same as well,
  if users can be traced to the outside in both.

  Main result: `Perfection.Twins.plan`
-/

namespace AffineIR

open Answer List

variable {chain inner loops ls ops outers sunk : List OpId} {innermost outer passage z : OpId}
  {found needFirst needLast : Bool} {order : WalkOrder} {o o' : Operation} {levels : List NestLevel}
  {level : NestLevel}

namespace Answer

variable {ε α β : Type} {xs : List α}

theorem mapM_imp {p q : α → Except ε β} {ys : List β}
    (hEach : ∀ x ∈ xs, ∀ {y}, p x = .ok y → q x = .ok y)
    (hMap : xs.mapM p = .ok ys) : xs.mapM q = .ok ys := by
  induction xs generalizing ys with
  | nil => exact hMap
  | cons x xs ih =>
    obtain ⟨hHead, hTail⟩ := forall_mem_cons.mp hEach
    obtain ⟨y, rest, hFirst, hRest, rfl⟩ := mapM_cons_eq_ok.mp hMap
    exact mapM_cons_eq_ok.mpr ⟨y, rest, hHead hFirst, ih hTail hRest, rfl⟩

theorem anyM_imp {p q : α → Except ε Bool} (hEach : ∀ x ∈ xs, ∀ {y}, p x = .ok y → q x = .ok y)
    (hAny : xs.anyM p = .ok found) : xs.anyM q = .ok found := by
  induction xs with
  | nil => exact hAny
  | cons x xs ih =>
    obtain ⟨hHead, hTail⟩ := forall_mem_cons.mp hEach
    rw [anyM_cons] at hAny ⊢
    obtain ⟨here, hFirst, hRest⟩ := bind_eq_ok.mp hAny
    rw [hHead hFirst, ok_bind]
    cases here with
    | true => exact hRest
    | false => exact ih hTail hRest

theorem filterM_congr {p q : α → Except ε Bool}
    (hEach : ∀ x ∈ xs, p x = q x) : xs.filterM p = xs.filterM q := by
  have hAux (acc : List α) : xs.filterAuxM p acc = xs.filterAuxM q acc := by
    induction xs generalizing acc with
    | nil => rfl
    | cons x xs ih =>
      obtain ⟨hHead, hTail⟩ := forall_mem_cons.mp hEach
      simp only [List.filterAuxM, hHead, ih hTail]
  unfold List.filterM
  rw [hAux]

theorem bind_congr {answer : Except ε α} {k k' : α → Except ε β}
    (hRest : ∀ {a}, answer = .ok a → k a = k' a) : answer >>= k = answer >>= k' := by
  cases answer with
  | error e => rfl
  | ok a => exact hRest rfl

end Answer

namespace Graph

variable {g g' : Graph} {r : RegionId} {x y root : OpId}

theorem KeepsRegion.regionOps (hKeeps : g.KeepsRegion g' r)
    (hOps : g.regionOps r = .ok ops) : g'.regionOps r = .ok ops := by
  obtain ⟨reg, hRegion, hRest⟩ := bind_eq_ok.mp hOps
  obtain ⟨blocks, hBlocks, hPure⟩ := bind_eq_ok.mp hRest
  have hBlocks' : reg.blocks.mapM g'.block = .ok blocks := by
    refine Answer.mapM_imp ?_ hBlocks
    intro c hMem blk hBlock
    exact (hKeeps.block hRegion hMem).trans hBlock
  exact bind_eq_ok.mpr ⟨reg, hKeeps.region.trans hRegion,
    bind_eq_ok.mpr ⟨blocks, hBlocks', hPure⟩⟩

theorem KeepsOp.children (hKeeps : g.KeepsOp g' x)
    (hOps : g.children x = .ok ops) : g'.children x = .ok ops := by
  obtain ⟨o, hOp, hRest⟩ := bind_eq_ok.mp hOps
  obtain ⟨lists, hLists, hPure⟩ := bind_eq_ok.mp hRest
  have hLists' : o.regions.mapM g'.regionOps = .ok lists := by
    refine Answer.mapM_imp ?_ hLists
    intro r hMem ops hOps
    exact (hKeeps.region hOp hMem).regionOps hOps
  exact bind_eq_ok.mpr ⟨o, hKeeps.op.trans hOp,
    bind_eq_ok.mpr ⟨lists, hLists', hPure⟩⟩

/- A walk can be repeated where its nest is kept, and with more depth. -/
theorem KeepsNest.walkFrom {depth depth' : Nat} (hKeeps : g.KeepsNest g' x)
    (hDepth : depth ≤ depth')
    (hWalk : g.walkFrom order depth x = .ok ops) : g'.walkFrom order depth' x = .ok ops := by
  induction depth generalizing x depth' ops with
  | zero => cases hWalk
  | succ depth ih =>
    cases depth' with
    | zero => omega
    | succ depth' =>
      obtain ⟨below, hBelow, hRest⟩ := bind_eq_ok.mp hWalk
      obtain ⟨inner, hInner, hPure⟩ := bind_eq_ok.mp hRest
      have hInner' : below.mapM (g'.walkFrom order depth') = .ok inner := by
        refine Answer.mapM_imp ?_ hInner
        intro y hMem list hList
        have hHolder := (mem_children_iff hBelow).mp hMem
        exact ih (hKeeps.of_inside (.child .self hHolder)) (Nat.le_of_succ_le_succ hDepth) hList
      exact bind_eq_ok.mpr ⟨below, (hKeeps .self).children hBelow,
        bind_eq_ok.mpr ⟨inner, hInner', hPure⟩⟩

/- The block of a body holds what is directly in its operation. -/
theorem holder_of_body {blk : Block} (hBody : (do g.block (← g.bodyBlock x)) = .ok blk)
    (hMem : y ∈ blk.ops) : g.Holder x y := by
  obtain ⟨b, hFirst, hBlock⟩ := bind_eq_ok.mp hBody
  obtain ⟨o, hOp, hFirst⟩ := bind_eq_ok.mp hFirst
  obtain ⟨r, hHeld, hFirst⟩ := bind_eq_ok.mp hFirst
  obtain ⟨reg, hRegion, hListed⟩ := bind_eq_ok.mp hFirst
  exact ⟨o, r, b, hOp, mem_of_getElem? (entryAt_eq_ok.mp hHeld),
    ⟨reg, hRegion, mem_of_getElem? (entryAt_eq_ok.mp hListed)⟩, blk, hBlock, hMem⟩

/- An ancestor that is found, or not, tells that there is a way up. -/
theorem rises_of_lineageUpTo {n : Nat} (hRises : g.Rises z ls)
    (hKnown : z ∈ (g.lineageUpTo n x).ops ∨ (g.lineageUpTo n x).fault = none) :
    ∃ ls, g.Rises x ls := by
  have hHere {y : OpId} (hMem : z ∈ [y]) : ∃ ls, g.Rises y ls :=
    ⟨ls, mem_singleton.mp hMem ▸ hRises⟩
  induction n generalizing x with
  | zero => exact hHere (hKnown.resolve_right (by simp [lineageUpTo]))
  | succ n ih =>
    unfold lineageUpTo at hKnown
    split at hKnown
    next => exact hHere (hKnown.resolve_right (by simp))
    next s hSite =>
      obtain ⟨b, hParent, hSite⟩ := bind_eq_ok.mp hSite
      obtain ⟨blk, hBlock, hSite⟩ := bind_eq_ok.mp hSite
      cases pure_eq_ok.mp hSite
      split at hKnown
      next => exact hHere (hKnown.resolve_right (by simp))
      next reg hRegion =>
        have hUp : g.parentOp? x = .ok reg.parent := by
          refine bind_eq_ok.mpr ⟨blk.parent, ?_, ?_⟩
          · exact bind_eq_ok.mpr ⟨b, hParent, bind_eq_ok.mpr ⟨blk, hBlock, rfl⟩⟩
          · exact bind_eq_ok.mpr ⟨reg, hRegion, rfl⟩
        cases hTop : reg.parent with
        | none =>
          rw [hTop] at hUp
          exact ⟨_, .top hUp⟩
        | some p =>
          rw [hTop] at hUp hKnown
          by_cases hSame : z = x
          · exact ⟨ls, hSame ▸ hRises⟩
          · have hFurther : z ∈ (g.lineageUpTo n p).ops ∨ (g.lineageUpTo n p).fault = none := by
              simpa [Lineage.ops, hSame] using hKnown
            obtain ⟨ls', hOuter⟩ := ih hFurther
            exact ⟨_, .child hUp hOuter⟩

end Graph

namespace Perfection

/- A plan is drawn up like another one, unless that fails with a fault. -/
def Follows {α : Type} (p q : Plan α) : Prop := (∃ e, p = .error (.fault e)) ∨ q = p

namespace Follows

variable {α β : Type}

theorem bind {p q : Plan α} {k k' : α → Plan β} (hFirst : Follows p q)
    (hRest : ∀ {a}, p = .ok a → Follows (k a) (k' a)) : Follows (p >>= k) (q >>= k') := by
  rcases hFirst with ⟨e, rfl⟩ | rfl
  · exact .inl ⟨e, rfl⟩
  · cases q with
    | error e => exact .inr rfl
    | ok a => exact hRest rfl

theorem ask {p q : Except Fault α}
    (hImp : ∀ {a}, p = .ok a → q = .ok a) : Follows (Perfection.ask p) (Perfection.ask q) := by
  cases p with
  | error e => exact .inl ⟨e, rfl⟩
  | ok a =>
    rw [hImp rfl]
    exact .inr rfl

theorem forM {k k' : α → Plan Unit} {xs : List α}
    (hEach : ∀ x ∈ xs, Follows (k x) (k' x)) : Follows (xs.forM k) (xs.forM k') := by
  induction xs with
  | nil => exact .inr rfl
  | cons x xs ih =>
    obtain ⟨hHead, hTail⟩ := forall_mem_cons.mp hEach
    exact hHead.bind fun _ => ih hTail

theorem eq {p q : Plan α} (hFollows : Follows p q)
    (hSound : ∀ e, p ≠ .error (.fault e)) : q = p := by
  rcases hFollows with ⟨e, hFault⟩ | hSame
  · exact absurd hFault (hSound e)
  · exact hSame

end Follows

------
-- Twins
------

/- A nest at the top that is the same in two graphs. -/
structure Twins (g g' : Graph) (root : OpId) : Prop where
  intact : g.Intact
  intact' : g'.Intact
  keeps : g.KeepsNest g' root
  top : g.parentOp? root = .ok none
  top' : g'.parentOp? root = .ok none
  rises {x : OpId} {o o' : Operation} (hOp : g.op x = .ok o) (hOp' : g'.op x = .ok o') :
    (∃ ls, g'.Rises x ls) ↔ ∃ ls, g.Rises x ls

namespace Twins

variable {g g' : Graph} {root x : OpId} {function : String}

theorem symm (h : Twins g g' root) : Twins g' g root where
  intact := h.intact'
  intact' := h.intact
  keeps := h.keeps.symm
  top := h.top'
  top' := h.top
  rises hOp hOp' := (h.rises hOp' hOp).symm

variable (h : Twins g g' root)

include h

theorem kind (hInside : g.Inside root x) : g'.kind x = g.kind x := by
  unfold Graph.kind
  rw [(h.keeps hInside).op]

theorem parentOp? (hInside : g.Inside root x) : g'.parentOp? x = g.parentOp? x := by
  cases hInside with
  | self => rw [h.top, h.top']
  | child hOuter hHolder =>
    rw [h.intact.parentOp?_of_holder hHolder,
      h.intact'.parentOp?_of_holder ((h.keeps hOuter).holder hHolder)]

theorem walkOp (hWalk : g.walkOp order root = .ok ops) : g'.walkOp order root = .ok ops := by
  have hRoom : g'.ops.slots.size < [root].length + g'.depthBound := by
    unfold Graph.depthBound
    omega
  have hAgain : ∃ ops', g'.walkOp order root = .ok ops' := h.intact'.walkFrom (.top h.top') hRoom
  obtain ⟨ops', hWalk'⟩ := hAgain
  have hFirst := h.keeps.walkFrom (Nat.le_max_left g.depthBound g'.depthBound) hWalk
  have hSecond := Graph.KeepsNest.walkFrom (fun y _ => .refl g' y)
    (Nat.le_max_right g.depthBound g'.depthBound) hWalk'
  cases hFirst.symm.trans hSecond
  exact hWalk'

theorem chainOf (hChain : ∀ y ∈ chain, g.Inside root y)
    (hOps : ∀ y ∈ ops, g.Inside root y) : chainOf g' chain ops = chainOf g chain ops := by
  induction ops generalizing chain with
  | nil => rfl
  | cons y ops ih =>
    obtain ⟨hHere, hRest⟩ := forall_mem_cons.mp hOps
    have hOne : ∀ z ∈ [y], g.Inside root z := by
      intro z hMem
      rwa [mem_singleton.mp hMem]
    unfold Perfection.chainOf
    rw [h.kind hHere, ih hChain hRest, ih hOne hRest]
    cases hLast : chain.getLast? with
    | none => rfl
    | some previous =>
      have hBefore := hChain previous (mem_of_getLast? hLast)
      have hMore : ∀ z ∈ chain ++ [y], g.Inside root z := by
        intro z hMem
        rcases mem_append.mp hMem with hMem | hMem
        · exact hChain z hMem
        · exact hOne z hMem
      simp only [h.parentOp? hBefore, ih hMore hRest]

------
-- Levels
------

theorem firstValue (hInside : g.Inside root x) :
    firstValue g' function x = firstValue g function x := by
  unfold Perfection.firstValue
  rw [h.kind hInside]

theorem lastValue (hInside : g.Inside root x) :
    lastValue g' function x = lastValue g function x := by
  unfold Perfection.lastValue
  rw [h.kind hInside, h.firstValue hInside]

theorem valuesOf (hLoops : ∀ l ∈ loops, g.Inside root l) :
    valuesOf g' function needFirst needLast loops =
      valuesOf g function needFirst needLast loops := by
  induction loops with
  | nil => rfl
  | cons l loops ih =>
    obtain ⟨hHere, hRest⟩ := forall_mem_cons.mp hLoops
    unfold Perfection.valuesOf
    rw [h.firstValue hHere, h.lastValue hHere, ih hRest]

theorem body (hInside : g.Inside root x) :
    (do g'.block (← g'.bodyBlock x)) = (do g.block (← g.bodyBlock x)) := by
  have hKeeps := h.keeps hInside
  unfold Graph.bodyBlock
  rw [hKeeps.op]
  simp only [bind_assoc]
  refine Answer.bind_congr fun {o} hOp => Answer.bind_congr fun {r} hHeld => ?_
  have hRegion := hKeeps.region hOp (mem_of_getElem? (entryAt_eq_ok.mp hHeld))
  rw [hRegion.region]
  refine Answer.bind_congr fun {reg} hReg => Answer.bind_congr fun {b} hListed => ?_
  exact hRegion.block hReg (mem_of_getElem? (entryAt_eq_ok.mp hListed))

theorem position (hInside : g.Inside root z)
    (hHolder : g.Holder z x) : g'.position x = g.position x := by
  have hKeeps := h.keeps hInside
  have hSame := (h.keeps (.child hInside hHolder)).op
  obtain ⟨p, r, b, hOuter, hHeld, hLists⟩ := hHolder
  obtain ⟨o, hOp, hParent⟩ := (h.intact.linkedIn z hOuter hHeld).op hLists
  obtain ⟨⟨reg, hRegion, hListed⟩, _⟩ := hLists
  have hBlock := (hKeeps.region hOuter hHeld).block hRegion hListed
  unfold Graph.position Graph.parentBlock
  rw [hSame, hOp]
  simp only [ok_bind, hParent, pure, Except.pure, hBlock]

theorem levelOf (hOuter : g.Inside root outer) (hHolder : g.Holder outer passage)
    (hInner : ∀ l ∈ inner, g.Inside root l) :
    levelOf g' function inner passage outer = levelOf g function inner passage outer := by
  unfold Perfection.levelOf
  rw [h.body hOuter, h.position hOuter hHolder]
  refine Answer.bind_congr fun {blk} hBody => ?_
  refine Answer.bind_congr fun {split} _ => Answer.bind_congr fun {front} _ => ?_
  refine Answer.bind_congr fun {behind} hBehind => ?_
  have hKinds : ∀ y ∈ behind, g'.kind y = g.kind y := by
    intro y hMem
    refine h.kind (.child hOuter (Graph.holder_of_body (ask_eq_ok.mp hBody) ?_))
    exact subset_of_entriesFrom (ask_eq_ok.mp hBehind) hMem
  have hBack : (behind.filterM fun y => return !(← g'.kind y).isTerminator) =
      behind.filterM fun y => return !(← g.kind y).isTerminator := by
    refine Answer.filterM_congr ?_
    intro y hMem
    rw [hKinds y hMem]
  rw [hBack]
  simp only [h.valuesOf hInner]

theorem levelsOf
    (hLinked : (passage :: outers).IsChain fun x y =>
      g.parentOp? x = .ok (some y))
    (hOuters : ∀ l ∈ outers, g.Inside root l)
    (hInner : ∀ l ∈ inner, g.Inside root l) :
    levelsOf g' function inner passage outers = levelsOf g function inner passage outers := by
  induction outers generalizing inner passage with
  | nil => rfl
  | cons outer outers ih =>
    obtain ⟨hParent, hRest⟩ := isChain_cons_cons.mp hLinked
    obtain ⟨hOuter, hOthers⟩ := forall_mem_cons.mp hOuters
    have hMore : ∀ l ∈ inner ++ [outer], g.Inside root l := by
      intro l hMem
      rcases mem_append.mp hMem with hMem | hMem
      · exact hInner l hMem
      · rwa [mem_singleton.mp hMem]
    unfold Perfection.levelsOf
    rw [h.levelOf hOuter (h.intact.holder_of_parentOp? hParent) hInner, ih hRest hOthers hMore]

theorem isAncestor (hInside : g.Inside root z) (hOp : g.op x = .ok o) (hOp' : g'.op x = .ok o')
    (hAsk : g.isAncestor z x = .ok found) : g'.isAncestor z x = .ok found := by
  have hKnown : z ∈ (g.lineage x).ops ∨ (g.lineage x).fault = none := by
    unfold Graph.isAncestor Lineage.atTop at hAsk
    dsimp only at hAsk
    split at hAsk
    next hMem => exact .inl hMem
    next =>
      split at hAsk
      next => cases hAsk
      next hNone => exact .inr hNone
  obtain ⟨_, hOuter⟩ := hInside.rises (fun y _ => h.intact.linkedIn y) (.top h.top)
  obtain ⟨ls, hRises⟩ := Graph.rises_of_lineageUpTo hOuter hKnown
  obtain ⟨ls', hRises'⟩ := (h.rises hOp hOp').mpr ⟨ls, hRises⟩
  have hSame : z ∈ ls' ↔ z ∈ ls := by
    rw [h.intact'.mem_rises_iff hRises', h.intact.mem_rises_iff hRises]
    exact (h.keeps.of_inside hInside).inside_iff
  rw [hRises'.isAncestor, decide_eq_decide.mpr hSame, ← hRises.isAncestor, hAsk]

theorem movesAlong (hInner : g.Inside root innermost) (hSunk : ∀ s ∈ sunk, g.Inside root s)
    (hOp : g.op x = .ok o) (hOp' : g'.op x = .ok o')
    (hAsk : movesAlong g innermost sunk x = .ok found) :
    movesAlong g' innermost sunk x = .ok found := by
  obtain ⟨proper, hProper, hRest⟩ := bind_eq_ok.mp hAsk
  have hProper' : g'.isProperAncestor innermost x = .ok proper := by
    unfold Graph.isProperAncestor at hProper ⊢
    split
    next hSame => rwa [if_pos hSame] at hProper
    next hOther =>
      rw [if_neg hOther] at hProper
      exact h.isAncestor hInner hOp hOp' hProper
  refine bind_eq_ok.mpr ⟨proper, hProper', ?_⟩
  cases proper with
  | true => exact hRest
  | false =>
    refine Answer.anyM_imp ?_ hRest
    intro s hMem found hAsk
    exact h.isAncestor (hSunk s hMem) hOp hOp' hAsk

theorem checkResults (hInner : ∀ level ∈ levels, ∀ l ∈ level.inner, g.Inside root l)
    (hSunk : ∀ level ∈ levels, ∀ s ∈ level.front ++ level.back, g.Inside root s) :
    Follows (checkResults g function levels) (checkResults g' function levels) := by
  unfold Perfection.checkResults
  cases hHead : levels.head? with
  | none => exact .inr rfl
  | some level =>
    refine .bind (.inr rfl) fun {innermost} hAsk => ?_
    have hInnermost : g.Inside root innermost := hInner level (mem_of_head? hHead) innermost
        (mem_of_getElem? (entryAt_eq_ok.mp (ask_eq_ok.mp hAsk)))
    have hAll : ∀ s ∈ levels.flatMap (fun l => l.front ++ l.back), g.Inside root s := by
      intro s hMem
      obtain ⟨l, hLevel, hIn⟩ := mem_flatMap.mp hMem
      exact hSunk l hLevel s hIn
    refine Follows.forM fun s hMem => ?_
    have hKeeps := h.keeps (hAll s hMem)
    rw [hKeeps.op]
    refine .bind (.inr rfl) fun {p} hAsk => Follows.forM fun v hResult => ?_
    have hSame := hKeeps.result (ask_eq_ok.mp hAsk) hResult
    have hUsers : g'.users v = g.users v := by
      unfold Graph.users
      rw [hSame]
    rw [hUsers]
    refine .bind (.inr rfl) fun {users} hAsk => Follows.forM fun x hUser => ?_
    -- a user is there in both graphs
    obtain ⟨val, hValue, hPure⟩ := bind_eq_ok.mp (ask_eq_ok.mp hAsk)
    rw [← pure_eq_ok.mp hPure, Graph.mem_distinct] at hUser
    obtain ⟨d, hUse, rfl⟩ := mem_map.mp hUser
    obtain ⟨o, hOp, _⟩ := h.intact.use hValue hUse
    obtain ⟨o', hOp', _⟩ := h.intact'.use (hSame.trans hValue) hUse
    exact .bind (.ask (h.movesAlong hInnermost hAll hOp hOp')) fun _ => .inr rfl

end Twins

variable {g g' : Graph} {root : OpId} {function : String}

/- A level is about what is directly in its loop. -/
theorem holder_of_levelOf (hLevel : levelOf g function inner passage outer = .ok (some level)) :
    level.inner = inner ∧ ∀ s ∈ level.front ++ level.back, g.Holder outer s := by
  obtain ⟨blk, hBody, hLevel⟩ := bind_eq_ok.mp hLevel
  obtain ⟨split, _, hLevel⟩ := bind_eq_ok.mp hLevel
  obtain ⟨front, hFront, hLevel⟩ := bind_eq_ok.mp hLevel
  obtain ⟨behind, hBehind, hLevel⟩ := bind_eq_ok.mp hLevel
  obtain ⟨back, hBack, hLevel⟩ := bind_eq_ok.mp hLevel
  split at hLevel
  next => cases pure_eq_ok.mp hLevel
  next =>
    obtain ⟨values, _, hLevel⟩ := bind_eq_ok.mp hLevel
    cases pure_eq_ok.mp hLevel
    refine ⟨rfl, ?_⟩
    intro s hMem
    refine Graph.holder_of_body (ask_eq_ok.mp hBody) ?_
    rcases mem_append.mp hMem with hMem | hMem
    · exact subset_of_entriesUpTo (ask_eq_ok.mp hFront) hMem
    · exact subset_of_entriesFrom (ask_eq_ok.mp hBehind)
        (Answer.mem_of_filterM (ask_eq_ok.mp hBack) hMem)

theorem holder_of_levelsOf (hLevels : levelsOf g function inner passage outers = .ok levels)
    (hMem : level ∈ levels) :
    level.inner ⊆ inner ++ outers ∧
      ∀ s ∈ level.front ++ level.back, ∃ outer ∈ outers, g.Holder outer s := by
  induction outers generalizing inner passage levels with
  | nil =>
    cases hLevels
    cases hMem
  | cons outer outers ih =>
    obtain ⟨first, hFirst, hLevels⟩ := bind_eq_ok.mp hLevels
    obtain ⟨others, hOthers, hPure⟩ := bind_eq_ok.mp hLevels
    cases pure_eq_ok.mp hPure
    rcases mem_append.mp hMem with hMem | hMem
    · cases Option.mem_toList.mp hMem
      obtain ⟨hInner, hHolder⟩ := holder_of_levelOf hFirst
      rw [hInner]
      refine ⟨subset_append_left _ _, ?_⟩
      intro s hSunk
      exact ⟨outer, mem_cons_self, hHolder s hSunk⟩
    · obtain ⟨hInner, hHolder⟩ := ih hOthers hMem
      rw [append_assoc, singleton_append] at hInner
      refine ⟨hInner, ?_⟩
      intro s hSunk
      obtain ⟨z, hIn, hThere⟩ := hHolder s hSunk
      exact ⟨z, mem_cons_of_mem _ hIn, hThere⟩

/- Nests that are the same have the same plan. -/
theorem Twins.plan (h : Twins g g' root) :
    Follows (plan g function root) (plan g' function root) := by
  unfold Perfection.plan
  refine .bind (.ask h.walkOp) fun {ops} hAsk => ?_
  have hOps : ∀ x ∈ ops, g.Inside root x := by
    intro x hMem
    exact (Graph.mem_walkFrom_iff (ask_eq_ok.mp hAsk)).mp hMem
  rw [h.chainOf (by simp) hOps]
  refine .bind (.inr rfl) fun {chain} hAsk => ?_
  match chain with
  | none => exact .inr rfl
  | some [] => exact .inr rfl
  | some (innermost :: outers) =>
    have hChain := loopChain_of_chainOf (ask_eq_ok.mp hAsk) (List.Subset.refl _) loopChain_nil
    have hLoops : ∀ l ∈ [innermost] ++ outers, g.Inside root l :=
      fun l hMem => hOps l (hChain.loop hMem).1
    have hOuters : ∀ l ∈ outers, g.Inside root l :=
      fun l hMem => hLoops l (mem_append_right _ hMem)
    dsimp only
    rw [h.levelsOf hChain.linked hOuters fun l hMem => hLoops l (mem_append_left _ hMem)]
    refine .bind (.inr rfl) fun {levels} hLevels => ?_
    refine .bind (h.checkResults ?_ ?_) fun _ => .inr rfl
    · intro level hMem l hIn
      exact hLoops l ((holder_of_levelsOf hLevels hMem).1 hIn)
    · intro level hMem s hSunk
      obtain ⟨z, hIn, hHolder⟩ := (holder_of_levelsOf hLevels hMem).2 s hSunk
      exact .child (hOuters z hIn) hHolder

end Perfection

end AffineIR
