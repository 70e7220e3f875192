import AffineIR.Proofs.Nest.Levels

/-
  What a plan for a nest says.

  The loops of a nest that gets a plan are a ladder, and the
  levels of the plan name all statements on it.  Results of
  these statements are only used inside the innermost loop or
  by statements that are on the ladder as well.

  Main result: `Perfection.underway_of_plan`
-/

namespace AffineIR

open Answer List Graph

variable {f : Function} {levels : List NestLevel} {o p : Operation}
  {all chain inner loops ops outers sunk tops users : List OpId} {l outer passage root s x : OpId}
  {level : NestLevel} {v : ValueId} {rungs : List Rung}

------
-- Answers
------

theorem Answer.filterM_of_forall {ε α : Type} {p : α → Except ε Bool} {q : α → Bool} {xs : List α}
    (hAll : ∀ x ∈ xs, p x = .ok (q x)) : xs.filterM p = .ok (xs.filter q) := by
  have hAux (acc : List α) : xs.filterAuxM p acc = .ok ((xs.filter q).reverse ++ acc) := by
    induction xs generalizing acc with
    | nil => rfl
    | cons x xs ih =>
      obtain ⟨hHead, hTail⟩ := forall_mem_cons.mp hAll
      rw [List.filterAuxM, hHead, ok_bind, ih hTail, filter_cons]
      cases q x <;> simp
  unfold List.filterM
  rw [hAux, ok_bind]
  simp [pure, Except.pure]

theorem Answer.mem_of_filterM {ε α : Type} {test : α → Except ε Bool} {xs ys : List α} {y : α}
    (hFilter : xs.filterM test = .ok ys) (hMem : y ∈ ys) : y ∈ xs := by
  have hAux (acc : List α) {zs : List α} (hRun : xs.filterAuxM test acc = .ok zs)
      (hIn : y ∈ zs) : y ∈ acc ∨ y ∈ xs := by
    clear hFilter
    induction xs generalizing acc with
    | nil =>
      cases hRun
      exact .inl hIn
    | cons x xs ih =>
      rw [List.filterAuxM] at hRun
      obtain ⟨keep, _, hRun⟩ := bind_eq_ok.mp hRun
      rcases ih _ hRun with hThere | hThere
      · cases keep with
        | true =>
          rcases mem_cons.mp hThere with rfl | hThere
          · exact .inr mem_cons_self
          · exact .inl hThere
        | false => exact .inl hThere
      · exact .inr (mem_cons_of_mem _ hThere)
  obtain ⟨found, hRun, hPure⟩ := bind_eq_ok.mp hFilter
  cases pure_eq_ok.mp hPure
  exact (hAux [] hRun (mem_reverse.mp hMem)).resolve_left not_mem_nil

/- A search that finds something says yes about an entry. -/
theorem Answer.exists_of_anyM {ε α : Type} {p : α → Except ε Bool} {xs : List α}
    (hSome : xs.anyM p = .ok true) : ∃ x ∈ xs, p x = .ok true := by
  induction xs with
  | nil => cases pure_eq_ok.mp hSome
  | cons x xs ih =>
    rw [anyM_cons] at hSome
    obtain ⟨found, hFound, hSome⟩ := bind_eq_ok.mp hSome
    cases found with
    | true => exact ⟨x, mem_cons_self, hFound⟩
    | false =>
      obtain ⟨y, hMem, hYes⟩ := ih hSome
      exact ⟨y, mem_cons_of_mem _ hMem, hYes⟩

theorem Answer.forM_eq_ok {ε α : Type} {p : α → Except ε Unit} {xs : List α} {x : α}
    (hAll : xs.forM p = .ok ()) (hMem : x ∈ xs) : p x = .ok () := by
  induction xs with
  | nil => cases hMem
  | cons first xs ih =>
    obtain ⟨_, hFirst, hRest⟩ := bind_eq_ok.mp hAll
    rcases mem_cons.mp hMem with rfl | hMem
    · exact hFirst
    · exact ih hRest hMem

theorem Graph.mem_distinct {α : Type} [DecidableEq α] {xs : List α}
    {x : α} : x ∈ distinct xs ↔ x ∈ xs := by
  have hFold (acc : List α) :
      x ∈ xs.foldl (fun acc y => if y ∈ acc then acc else acc ++ [y]) acc ↔ x ∈ acc ∨ x ∈ xs := by
    induction xs generalizing acc with
    | nil => simp
    | cons y xs ih =>
      rw [foldl_cons, ih]
      split
      next hMem =>
        constructor
        · rintro (hIn | hIn)
          · exact .inl hIn
          · exact .inr (mem_cons_of_mem _ hIn)
        · rintro (hIn | hIn)
          · exact .inl hIn
          · rcases mem_cons.mp hIn with rfl | hIn
            · exact .inl hMem
            · exact .inr hIn
      next => simp [or_assoc]
  unfold distinct
  rw [hFold]
  simp

/- What has a value as an operand is a user of it. -/
theorem Graph.Intact.mem_users {g : Graph} (hIntact : g.Intact) (hUsers : g.users v = .ok users)
    (hOp : g.op x = .ok o) (hMem : v ∈ o.operands) : x ∈ users := by
  obtain ⟨val, hValue, hPure⟩ := bind_eq_ok.mp hUsers
  cases pure_eq_ok.mp hPure
  obtain ⟨i, hAt⟩ := List.getElem?_of_mem hMem
  obtain ⟨val', hValue', hOnce⟩ := hIntact.operand hOp hAt
  cases hValue.symm.trans hValue'
  have hUse : ⟨x, i⟩ ∈ val.uses := count_pos_iff.mp (by omega)
  exact mem_distinct.mpr (mem_map.mpr ⟨_, hUse, rfl⟩)

namespace Perfection

variable {g : Graph} {function : String}

theorem ask_eq_ok {α : Type} {answer : Except Fault α}
    {a : α} : ask answer = .ok a ↔ answer = .ok a := by
  unfold ask
  cases answer with
  | ok b => simp
  | error e => simp

/- Loops among given operations, each directly in the next. -/
structure LoopChain (g : Graph) (ops loops : List OpId) : Prop where
  loop {l : OpId} (hMem : l ∈ loops) : l ∈ ops ∧ ∃ o, g.op l = .ok o ∧ o.kind.isLoop = true
  linked : loops.IsChain fun x y => g.parentOp? x = .ok (some y)

theorem loopChain_nil : LoopChain g ops [] :=
  ⟨fun hMem => absurd hMem not_mem_nil, isChain_nil⟩

theorem loopChain_of_chainOf (hChain : chainOf g chain ops = .ok (some loops)) (hOps : ops ⊆ all)
    (hStart : LoopChain g all chain) : LoopChain g all loops := by
  induction ops generalizing chain with
  | nil =>
    cases hChain
    exact hStart
  | cons x ops ih =>
    obtain ⟨hIn, hRest⟩ := cons_subset.mp hOps
    obtain ⟨kind, hKind, hChain⟩ := bind_eq_ok.mp hChain
    obtain ⟨o, hOp, hPure⟩ := bind_eq_ok.mp hKind
    cases hPure
    split at hChain
    next => exact ih hChain hRest hStart
    next hLoop =>
      rw [Bool.not_eq_true', Bool.not_eq_false] at hLoop
      split at hChain
      next hNone =>
        refine ih hChain hRest ⟨?_, isChain_singleton x⟩
        intro l hMem
        rw [mem_singleton.mp hMem]
        exact ⟨hIn, o, hOp, hLoop⟩
      next previous hLast =>
        obtain ⟨parent, hParent, hChain⟩ := bind_eq_ok.mp hChain
        split at hChain
        next hSame =>
          refine ih hChain hRest ⟨?_, ?_⟩
          · intro l hMem
            rcases mem_append.mp hMem with hMem | hMem
            · exact hStart.loop hMem
            · rw [mem_singleton.mp hMem]
              exact ⟨hIn, o, hOp, hLoop⟩
          · refine isChain_append.mpr ⟨hStart.linked, isChain_singleton x, ?_⟩
            intro y hEnd z hHead
            rw [hLast, Option.mem_some] at hEnd
            rw [List.head?_cons, Option.mem_some] at hHead
            rw [← hEnd, ← hHead, hParent, hSame]
        next => cases pure_eq_ok.mp hChain

------
-- Levels of a plan
------

/- Values that are wanted are there for every loop. -/
theorem forall_of_valuesOf {needFirst needLast : Bool} {values : List Int × List Int}
    (hValues : valuesOf g function needFirst needLast loops = .ok values) :
    (needFirst = true → List.Forall₂ (firstValue g function · = .ok ·) loops values.1) ∧
      (needLast = true → List.Forall₂ (lastValue g function · = .ok ·) loops values.2) := by
  induction loops generalizing values with
  | nil =>
    cases hValues
    exact ⟨fun _ => .nil, fun _ => .nil⟩
  | cons l loops ih =>
    -- the first value is known when the last one is asked for
    have hRest {first last : List Int} (hFirst : needFirst = true →
          List.Forall₂ (firstValue g function · = .ok ·) [l] first) (hLast : needLast = true →
          List.Forall₂ (lastValue g function · = .ok ·) [l] last) (hTail : (do
          let rest ← valuesOf g function needFirst needLast loops
          pure (first ++ rest.1, last ++ rest.2) : Plan _) = .ok values) :
        (needFirst = true → List.Forall₂ (firstValue g function · = .ok ·) (l :: loops) values.1) ∧
          (needLast = true → List.Forall₂ (lastValue g function · = .ok ·) (l :: loops)
              values.2) := by
      obtain ⟨rest, hThere, hPure⟩ := bind_eq_ok.mp hTail
      cases pure_eq_ok.mp hPure
      obtain ⟨hFirsts, hLasts⟩ := ih hThere
      exact ⟨fun hNeed => rel_append (hFirst hNeed) (hFirsts hNeed),
        fun hNeed => rel_append (hLast hNeed) (hLasts hNeed)⟩
    unfold valuesOf at hValues
    dsimp only at hValues
    split at hValues
    next =>
      obtain ⟨first, hFirst, hValues⟩ := bind_eq_ok.mp hValues
      obtain ⟨_, hHere, rfl⟩ := map_eq_ok.mp hFirst
      split at hValues
      next =>
        obtain ⟨last, hLast, hValues⟩ := bind_eq_ok.mp hValues
        obtain ⟨_, hThere, rfl⟩ := map_eq_ok.mp hLast
        exact hRest (fun _ => .cons hHere .nil) (fun _ => .cons hThere .nil) hValues
      next hNot => exact hRest (fun _ => .cons hHere .nil) (absurd · hNot) hValues
    next hNot =>
      obtain ⟨first, hNone, hValues⟩ := bind_eq_ok.mp hValues
      cases hNone
      split at hValues
      next =>
        obtain ⟨last, hLast, hValues⟩ := bind_eq_ok.mp hValues
        obtain ⟨_, hThere, rfl⟩ := map_eq_ok.mp hLast
        exact hRest (absurd · hNot) (fun _ => .cons hThere .nil) hValues
      next hNot' => exact hRest (absurd · hNot) (absurd · hNot') hValues

/- The statements around a loop in the body of another one. -/
theorem split_of_loopBody {b : BlockId} {blk : Block} {i : Nat} (hShaped : f.Shaped)
    (hReached : f.graph.Reached f.body outer) (hBody : f.graph.LoopBody outer b blk)
    (hAt : blk.ops[i]? = some passage) (hOp : f.graph.op passage = .ok o)
    (hLoop : o.kind.isLoop = true) :
    ∃ back last p, blk.ops.drop (i + 1) = back ++ [last] ∧
      blk.ops = blk.ops.take i ++ passage :: (back ++ [last]) ∧
      f.graph.op last = .ok p ∧ p.kind = .yield := by
  obtain ⟨hLess, hHere⟩ := List.getElem?_eq_some_iff.mp hAt
  have hSplit : blk.ops = blk.ops.take i ++ passage :: blk.ops.drop (i + 1) := by
    rw [← hHere, ← drop_eq_getElem_cons hLess, take_append_drop]
  obtain ⟨init, last, p, hEnds, hLast, hYield⟩ := hBody.yield hShaped hReached
  rcases eq_nil_or_concat' (blk.ops.drop (i + 1)) with hNil | ⟨back, y, hBack⟩
  · -- the last operation would be a loop
    rw [hNil] at hSplit
    have hSame : passage = last := by
      have hEq := hSplit.symm.trans hEnds
      exact (append_singleton_inj.mp hEq).2
    subst hSame
    cases hOp.symm.trans hLast
    rw [hYield] at hLoop
    cases hLoop
  · rw [hBack] at hSplit
    have hSame : y = last := by
      have hEq := hSplit.symm.trans hEnds
      rw [← cons_append, ← append_assoc] at hEq
      exact (append_singleton_inj.mp hEq).2
    subst hSame
    exact ⟨back, y, p, hBack, hSplit, hLast, hYield⟩

/- A level of a plan is that of a rung. -/
theorem stands_of_levelOf {level : Option NestLevel} (hShaped : f.Shaped) (hIntact : f.graph.Intact)
    (hReached : f.graph.Reached f.body outer) (hOuter : f.graph.op outer = .ok p)
    (hLoop : p.kind.isLoop = true) (hHolder : f.graph.Holder outer passage)
    (hOp : f.graph.op passage = .ok o) (hPassage : o.kind.isLoop = true)
    (hLevel : levelOf f.graph function inner passage outer = .ok level) :
    ∃ r : Rung, r.outer = outer ∧ r.Stands f.graph passage ∧
      (level = none ∧ r.ops = [] ∨ ∃ l, level = some l ∧ Fits inner r l) := by
  obtain ⟨b, blk, hBody⟩ := hShaped.loopBody hIntact hReached hOuter hLoop
  have hMem := hBody.mem_of_holder hHolder
  obtain ⟨i, hPosition, hAt⟩ := (hIntact.sits_of_mem hBody.block hMem).position hBody.block
  rcases split_of_loopBody hShaped hReached hBody hAt hOp hPassage with
    ⟨back, last, y, hBehind, hSplit, hLast, hYield⟩
  have hLess := (List.getElem?_eq_some_iff.mp hAt).1
  have hOps : (do f.graph.block (← f.graph.bodyBlock outer)) = .ok blk := by
    rw [hBody.bodyBlock, ok_bind, hBody.block]
  -- only the last operation behind the loop is a terminator
  have hBack : (back ++ [last]).filterM (fun x =>
      (return !(← f.graph.kind x).isTerminator : Except Fault Bool)) = .ok back := by
    have hNodup := hIntact.nodup_ops hBody.block
    rw [hSplit] at hNodup
    have hParts : (back ++ [last]).Nodup := (nodup_cons.mp (nodup_append.mp hNodup).2.1).2
    rw [Answer.filterM_of_forall (q := (decide <| · ∈ back)),
      filter_mem_of_sublist (sublist_append_left _ _) hParts]
    intro x hIn
    rcases mem_append.mp hIn with hIn | hIn
    · have hFront : x ∈ blk.ops.dropLast := by
        rw [hSplit, ← cons_append, ← append_assoc, dropLast_concat]
        exact mem_append_right _ (mem_cons_of_mem _ hIn)
      obtain ⟨q, hHere, _⟩ := hIntact.placed hBody.block (mem_of_mem_dropLast hFront)
      have hInner := hShaped.last (hBody.covers hReached) hBody.block hFront hHere
      unfold Graph.kind
      rw [hHere]
      simp [bind, Except.bind, pure, Except.pure, hInner, hIn]
    · rw [mem_singleton.mp hIn]
      have hOut : last ∉ back := by
        intro hMem
        exact (nodup_append.mp hParts).2.2 last hMem last (mem_singleton_self last) rfl
      have hEnd : y.kind.isTerminator = true := by
        rw [hYield]
        rfl
      unfold Graph.kind
      rw [hLast]
      simp [bind, Except.bind, pure, Except.pure, hEnd, hOut]
  obtain ⟨_, hAsk, hLevel⟩ := bind_eq_ok.mp hLevel
  cases (ask_eq_ok.mp hAsk).symm.trans hOps
  obtain ⟨_, hAsk, hLevel⟩ := bind_eq_ok.mp hLevel
  cases (ask_eq_ok.mp hAsk).symm.trans hPosition
  obtain ⟨_, hAsk, hLevel⟩ := bind_eq_ok.mp hLevel
  have hFront := ask_eq_ok.mp hAsk
  unfold entriesUpTo at hFront
  cases (if_pos hLess.le).symm.trans hFront
  obtain ⟨_, hAsk, hLevel⟩ := bind_eq_ok.mp hLevel
  have hFrom := ask_eq_ok.mp hAsk
  unfold entriesFrom at hFrom
  rw [if_pos (Nat.succ_le_of_lt hLess), hBehind] at hFrom
  cases hFrom
  obtain ⟨_, hAsk, hLevel⟩ := bind_eq_ok.mp hLevel
  cases (ask_eq_ok.mp hAsk).symm.trans hBack
  refine ⟨⟨outer, blk.ops.take i, back⟩, rfl, ⟨b, blk, last, hBody, hSplit⟩, ?_⟩
  split at hLevel
  next hNone =>
    rw [Bool.and_eq_true, List.isEmpty_iff, List.isEmpty_iff] at hNone
    cases pure_eq_ok.mp hLevel
    refine .inl ⟨rfl, ?_⟩
    unfold Rung.ops
    rw [hNone.1, hNone.2]
    rfl
  next =>
    obtain ⟨values, hValues, hLevel⟩ := bind_eq_ok.mp hLevel
    cases pure_eq_ok.mp hLevel
    obtain ⟨hFirst, hLast⟩ := forall_of_valuesOf hValues
    refine .inr ⟨_, rfl, rfl, rfl, rfl, ?_, ?_⟩
    · intro hSome
      exact (hFirst (by simpa using hSome)).length_eq.symm
    · intro hSome
      exact (hLast (by simpa using hSome)).length_eq.symm

/- The levels of a plan are those of a ladder. -/
theorem scheduled_of_levelsOf (hShaped : f.Shaped) (hIntact : f.graph.Intact)
    (hLoops : ∀ l ∈ passage :: outers, f.graph.Reached f.body l ∧
      ∃ o, f.graph.op l = .ok o ∧ o.kind.isLoop = true)
    (hLinked : (passage :: outers).IsChain fun x y =>
      f.graph.parentOp? x = .ok (some y))
    (hLevels : levelsOf f.graph function inner passage outers = .ok levels) :
    ∃ rungs, rungs.map Rung.outer = outers ∧ Ladder f.graph passage rungs ∧
      Scheduled inner rungs levels := by
  induction outers generalizing inner passage levels with
  | nil =>
    cases hLevels
    exact ⟨[], rfl, .top, .done⟩
  | cons outer outers ih =>
    obtain ⟨level, hLevel, hLevels⟩ := bind_eq_ok.mp hLevels
    obtain ⟨others, hOthers, hPure⟩ := bind_eq_ok.mp hLevels
    cases pure_eq_ok.mp hPure
    obtain ⟨hParent, hRest⟩ := isChain_cons_cons.mp hLinked
    obtain ⟨⟨_, o, hOp, hLoop⟩, hOuters⟩ := forall_mem_cons.mp hLoops
    obtain ⟨hReached, p, hOuter, hLoop'⟩ := hOuters outer mem_cons_self
    obtain ⟨rungs, rfl, hLadder, hScheduled⟩ := ih hOuters hRest hOthers
    rcases stands_of_levelOf hShaped hIntact hReached hOuter hLoop'
      (hIntact.holder_of_parentOp? hParent) hOp hLoop hLevel with
      ⟨r, rfl, hStands, ⟨rfl, hNone⟩ | ⟨l, rfl, hFits⟩⟩
    · exact ⟨r :: rungs, rfl, .rung hStands hLadder, .skip hNone hScheduled⟩
    · exact ⟨r :: rungs, rfl, .rung hStands hLadder, .level hFits hScheduled⟩

/- What is to be sunk is on the ladder. -/
theorem Scheduled.mem_iff (hScheduled : Scheduled loops rungs levels) :
    s ∈ levels.flatMap (fun l => l.front ++ l.back) ↔ ∃ r ∈ rungs, s ∈ r.ops := by
  induction hScheduled with
  | done => simp
  | skip hNone _ ih => simp [ih, hNone]
  | level hFits _ ih =>
    simp only [flatMap_cons, mem_append, ih, mem_cons,
      exists_eq_or_imp, Rung.ops, hFits.front, hFits.back]

theorem Scheduled.inner_head (hScheduled : Scheduled (l :: loops) rungs (level :: levels)) :
    entryAt level.inner 0 = .ok l := by
  generalize hLoops : l :: loops = all at hScheduled
  generalize hLevels : level :: levels = every at hScheduled
  induction hScheduled generalizing loops with
  | done => cases hLevels
  | skip _ _ ih =>
    subst hLoops
    exact ih rfl hLevels
  | level hFits _ _ =>
    cases hLevels
    rw [hFits.inner, ← hLoops]
    rfl

theorem used_of_movesAlong {inner : OpId} (hShaped : f.Shaped) (hIntact : f.graph.Intact)
    (hReached : f.graph.Reached f.body x) (hAlong : movesAlong f.graph inner sunk x = .ok true) :
    f.graph.Within inner x ∨ ∃ t ∈ sunk, f.graph.Inside t x := by
  have hBody := hShaped.linked_body hIntact
  obtain ⟨proper, hProper, hAlong⟩ := bind_eq_ok.mp hAlong
  cases proper with
  | true =>
    unfold Graph.isProperAncestor at hProper
    split at hProper
    next => cases hProper
    next hOther =>
      have hInside := (hIntact.isAncestor_iff hBody hReached).mp hProper
      exact .inl (hInside.eq_or_within.resolve_left hOther)
  | false =>
    obtain ⟨t, hMem, hYes⟩ := Answer.exists_of_anyM hAlong
    exact .inr ⟨t, hMem, (hIntact.isAncestor_iff hBody hReached).mp hYes⟩

/- Results of what is sunk are used by what is inside or moves along. -/
theorem used_of_checkResults {inner : OpId} (hShaped : f.Shaped) (hIntact : f.graph.Intact)
    (hCheck : checkResults f.graph function (level :: levels) = .ok ())
    (hInner : entryAt level.inner 0 = .ok inner)
    (hSunk : s ∈ (level :: levels).flatMap fun l => l.front ++ l.back)
    (hResult : f.graph.IsResult v s) (hReached : f.graph.Reached f.body x)
    (hOp : f.graph.op x = .ok o) (hMem : v ∈ o.operands) :
    f.graph.Within inner x ∨ ∃ t ∈ (level :: levels).flatMap fun l => l.front ++ l.back,
        f.graph.Inside t x := by
  obtain ⟨inner', hAsk, hCheck⟩ := bind_eq_ok.mp hCheck
  cases (ask_eq_ok.mp hAsk).symm.trans hInner
  have hEach := Answer.forM_eq_ok hCheck hSunk
  obtain ⟨p, hAsk, hEach⟩ := bind_eq_ok.mp hEach
  have hDefiner := ask_eq_ok.mp hAsk
  have hUses := Answer.forM_eq_ok hEach (hIntact.mem_results hDefiner hResult)
  obtain ⟨users, hAsk, hUses⟩ := bind_eq_ok.mp hUses
  have hUser := Answer.forM_eq_ok hUses (hIntact.mem_users (ask_eq_ok.mp hAsk) hOp hMem)
  obtain ⟨along, hAsk, hUser⟩ := bind_eq_ok.mp hUser
  cases along with
  | true => exact used_of_movesAlong hShaped hIntact hReached (ask_eq_ok.mp hAsk)
  | false => cases hUser

/-
  A nest that gets a plan has no loops, or they are a ladder
  with the levels of the plan.
-/
theorem ladder_of_plan (hShaped : f.Shaped) (hIntact : f.graph.Intact)
    (hRoot : f.graph.Reached f.body root) (hPlan : plan f.graph function root = .ok levels) :
    ∃ ops chain, f.graph.walkOp .post root = .ok ops ∧ chainOf f.graph [] ops = .ok (some chain) ∧
      (chain = [] ∧ levels = [] ∨ ∃ inner rungs o, chain = inner :: rungs.map Rung.outer ∧
          f.graph.Reached f.body inner ∧ f.graph.op inner = .ok o ∧
          o.kind.isLoop = true ∧ Ladder f.graph inner rungs ∧ Scheduled [inner] rungs levels ∧
          checkResults f.graph function levels = .ok ()) := by
  obtain ⟨ops, hAsk, hPlan⟩ := bind_eq_ok.mp hPlan
  have hWalk := ask_eq_ok.mp hAsk
  obtain ⟨chain, hAsk, hPlan⟩ := bind_eq_ok.mp hPlan
  have hChainOf := ask_eq_ok.mp hAsk
  split at hPlan
  next => cases hPlan
  next => exact ⟨ops, [], hWalk, hChainOf, .inl ⟨rfl, (pure_eq_ok.mp hPlan).symm⟩⟩
  next inner outers =>
    obtain ⟨found, hLevels, hPlan⟩ := bind_eq_ok.mp hPlan
    obtain ⟨_, hCheck, hPure⟩ := bind_eq_ok.mp hPlan
    cases pure_eq_ok.mp hPure
    have hChain := loopChain_of_chainOf hChainOf (List.Subset.refl _) loopChain_nil
    have hLoops : ∀ l ∈ inner :: outers, f.graph.Reached f.body l ∧
        ∃ o, f.graph.op l = .ok o ∧ o.kind.isLoop = true := by
      intro l hMem
      obtain ⟨hIn, hLoop⟩ := hChain.loop hMem
      exact ⟨((mem_walkFrom_iff hWalk).mp hIn).reached hRoot, hLoop⟩
    obtain ⟨hReached, o, hOp, hLoop⟩ := hLoops inner mem_cons_self
    rcases scheduled_of_levelsOf hShaped hIntact hLoops hChain.linked hLevels with
      ⟨rungs, rfl, hLadder, hScheduled⟩
    exact ⟨ops, _, hWalk, hChainOf, .inr ⟨inner, rungs, o, rfl, hReached, hOp,
      hLoop, hLadder, hScheduled, hCheck⟩⟩

/- A plan with levels is one for a function under way. -/
theorem underway_of_plan (hCoherent : f.graph.Coherent) (hShaped : f.Shaped) (hPlain : f.Plain)
    (hCountable : f.Countable) (hRoot : f.graph.Reached f.body root)
    (hKept : ∀ x ∈ tops, f.graph.Reached f.body x)
    (hPlan : plan f.graph function root = .ok (level :: levels)) :
    ∃ inner sunk rungs, Underway f sunk tops [inner] inner inner rungs ∧
      Scheduled [inner] rungs (level :: levels) := by
  have hIntact := intact_of_coherent hCoherent
  rcases ladder_of_plan hShaped hIntact hRoot hPlan with
    ⟨_, _, _, _, ⟨_, hNone⟩ | ⟨inner, rungs, o, _, hReached, hOp, hLoop, hLadder,
      hScheduled, hCheck⟩⟩
  · cases hNone
  · refine ⟨inner, (level :: levels).flatMap fun l => l.front ++ l.back, rungs, ?_, hScheduled⟩
    exact {
      coherent := hCoherent
      shaped := hShaped
      plain := hPlain
      countable := hCountable
      reached := hReached
      kept := hKept _
      below := .self
      around := by
        intro l hMem
        rw [mem_singleton.mp hMem]
        exact ⟨.self, .self, o, hOp, hLoop⟩
      nodup := nodup_singleton inner
      passes := mem_singleton_self inner
      ladder := hLadder
      listed := fun hMem hSunk => hScheduled.mem_iff.mpr ⟨_, hMem, hSunk⟩
      located := fun hSunk => .inr (hScheduled.mem_iff.mp hSunk)
      used := used_of_checkResults hShaped hIntact hCheck hScheduled.inner_head }

end Perfection

end AffineIR
