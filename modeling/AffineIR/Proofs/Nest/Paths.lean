import AffineIR.Proofs.Nest.Chains
import AffineIR.Proofs.Run.Gates
import AffineIR.Proofs.Run.Returning
import AffineIR.Proofs.Run.Visits

/-
  Paths of loops, and the programs they lead through.

  In a graph that is intact the operations of a program are
  named once, and no loop binds its variable in its body.  A
  path of loops, each held by the one before, is a way of the
  program; the vectors of the way are those of the loops.

  Main result: `Graph.Unfolds.leads_of_path`
-/

namespace AffineIR

open Answer List Option Arena

variable {w w' : List Prog.Mark} {loops loops' moved : List OpId} {o : Operation} {c : BlockId}
  {r : RegionId} {a : Act} {blk : Block} {g' : Graph} {blocks : List BlockId}

------
-- Intact graphs
------

theorem Arena.get_of_mem_entries {tag : String} {α : Type} {a : Arena tag α} {e : Handle tag × α}
    (hMem : e ∈ a.entries) : a.get e.1 = .ok e.2 := by
  obtain ⟨h, _, hSome⟩ := mem_filterMap.mp hMem
  obtain ⟨x, hGet, rfl⟩ := map_eq_some_iff.mp hSome
  unfold Arena.get
  rw [hGet]

namespace Graph

variable {g : Graph} {body : RegionId} {b : BlockId} {x y : OpId} {v : ValueId}

theorem Intact.nodup_regions (hIntact : g.Intact) (hOp : g.op x = .ok o) : o.regions.Nodup := by
  refine nodup_iff_count_eq_one.mpr ?_
  intro r hMem
  obtain ⟨reg, hRegion, hParent⟩ := hIntact.held hOp hMem
  obtain ⟨o', hOp', hOnce⟩ := hIntact.region hRegion hParent
  cases hOp.symm.trans hOp'
  exact hOnce

theorem Intact.nodup_blocks {reg : Region} (hIntact : g.Intact)
    (hRegion : g.region r = .ok reg) : reg.blocks.Nodup := by
  refine nodup_iff_count_eq_one.mpr ?_
  intro c hMem
  obtain ⟨blk, hBlock, rfl⟩ := hIntact.listed hRegion hMem
  obtain ⟨reg', hRegion', hOnce⟩ := hIntact.block hBlock
  cases hRegion.symm.trans hRegion'
  exact hOnce

/- What is intact is tidy. -/
theorem Intact.tidy (hIntact : g.Intact) : g.Tidy where
  ops _ hMem := hIntact.nodup_regions (get_of_mem_entries hMem)
  regions _ hMem := hIntact.nodup_blocks (get_of_mem_entries hMem)
  blocks e hMem := by
    have hBlock : g.block e.1 = .ok e.2 := get_of_mem_entries hMem
    refine ⟨hIntact.nodup_ops hBlock, ?_, ?_⟩
    · obtain ⟨reg, hRegion, hListed⟩ := hIntact.home hBlock
      exact ⟨reg, get_eq_ok_iff.mp hRegion, hListed⟩
    · intro arg hArg
      rcases hIntact.argument hBlock (mem_zipIdx_iff_getElem?.mp hArg) with
        ⟨val, hValue, hDefiner⟩
      rw [get_eq_ok_iff.mp hValue, map_some, hDefiner]

/- An operation that is reached is a row. -/
theorem Intact.row (hIntact : g.Intact) (hBody : g.Linked body none)
    (hReached : g.Reached body x) : ∃ outer, g.Row [x] outer := by
  obtain ⟨ls, hRises⟩ := hIntact.rises_of_reached hBody hReached
  obtain ⟨outer, rfl⟩ := hRises.head
  refine ⟨outer, nodup_singleton x, fun _ _ => hIntact.linkedIn _, fun {y} hMem => ?_⟩
  rwa [mem_singleton.mp hMem]

theorem IsResult.unique (hFirst : g.IsResult v x) (hSecond : g.IsResult v y) : x = y :=
  eq_of_definers (.inl hFirst) (.inl hSecond)

theorem IsArgument.unique (hFirst : g.IsArgument v b) (hSecond : g.IsArgument v c) : b = c := by
  obtain ⟨val, i, hValue, hDefiner⟩ := hFirst
  obtain ⟨val', i', hValue', hDefiner'⟩ := hSecond
  cases hValue.symm.trans hValue'
  cases hDefiner.symm.trans hDefiner'
  rfl

theorem IsResult.not_isArgument (hResult : g.IsResult v x) : ¬g.IsArgument v b := by
  rintro ⟨val', i', hValue', hDefiner'⟩
  obtain ⟨val, i, hValue, hDefiner⟩ := hResult
  cases hValue.symm.trans hValue'
  cases hDefiner.symm.trans hDefiner'

/- What an operation binds is its result, or the argument of a block in it. -/
theorem Intact.cases_of_owns (hIntact : g.Intact) (hOwns : Function.Owns g x v) :
    g.IsResult v x ∨ ∃ o r c blk, g.op x = .ok o ∧ r ∈ o.regions ∧
      g.Holds x r c blk ∧ blk.args = [v] ∧ g.IsArgument v c := by
  obtain ⟨o, hOp, hMem | ⟨r, c, blk, hRegion, hHolds, hArgs⟩⟩ := hOwns
  · obtain ⟨i, hAt⟩ := List.getElem?_of_mem hMem
    obtain ⟨val, hValue, hDefiner⟩ := hIntact.result hOp hAt
    exact .inl ⟨val, i, hValue, hDefiner⟩
  · obtain ⟨val, hValue, hDefiner⟩ := hIntact.argument hHolds.block (i := 0) (by rw [hArgs]; rfl)
    exact .inr ⟨o, r, c, blk, hOp, hRegion, hHolds, hArgs, val, 0, hValue, hDefiner⟩

/- A value is bound by one operation only. -/
theorem Intact.eq_of_owns (hIntact : g.Intact) (hFirst : Function.Owns g x v)
    (hSecond : Function.Owns g y v) : x = y := by
  have hDefined {x : OpId} (hOwns : Function.Owns g x v) :
      g.IsResult v x ∨ ∃ r b blk, g.Holds x r b blk ∧ g.IsArgument v b := by
    refine (hIntact.cases_of_owns hOwns).imp_right ?_
    rintro ⟨_, r, b, blk, _, _, hHolds, _, hArgument⟩
    exact ⟨r, b, blk, hHolds, hArgument⟩
  exact eq_of_definers (hDefined hFirst) (hDefined hSecond)

------
-- Programs
------

variable {xs : List OpId} {p : Prog}

/- No loop binds its variable in its body. -/
theorem Unfolds.fresh {outer : List OpId} (hUnfolds : g.Unfolds b xs p) (hIntact : g.Intact)
    (hRow : g.Row xs outer) : p.Fresh := by
  induction hUnfolds generalizing outer with
  | nil => trivial
  | act _ _ _ _ ih => exact ih (hRow.sublist (sublist_cons_self _ _))
  | @loop b b' x xs o lower upper step r blk v body p hOp hParent hKind
      hRegions hHolds hArgs hClosed hBody hRest ihBody ih =>
    have hRegion : r ∈ o.regions := by simp [hRegions]
    have hHeld {z : OpId} : z ∈ blk.ops → g.Holder x z := hHolds.holder hOp hRegion
    refine ⟨?_, ihBody (hRow.below mem_cons_self (hIntact.nodup_ops hHolds.block) hHeld),
      ih (hRow.sublist (sublist_cons_self x xs))⟩
    intro hBinds
    obtain ⟨y, hMem, hOwns⟩ := hBody.owner_of_binds hBinds
    have hSame := hIntact.eq_of_owns hOwns ⟨o, hOp, .inr ⟨r, b', blk, hRegion, hHolds, hArgs⟩⟩
    exact (hRow.inside_of_mem_ids hHeld hBody hMem).2 hSame
  | cond hOp hParent hKind hRegions hBranch hInner hRest ihInner ih =>
    exact ⟨fun taken => ihInner taken (hRow.below mem_cons_self
      ((hBranch taken).nodup hIntact.tidy) ((hBranch taken).holder hOp (mem_regions hRegions taken))),
      ih (hRow.sublist (sublist_cons_self _ _))⟩

theorem act?_of_op (hOp : g.op x = .ok o) : g.act? x = some (g.actOf x o) := by
  unfold act?
  rw [get_eq_ok_iff.mp hOp]
  rfl

/- The actions of a program are those of its operations. -/
theorem Unfolds.act_of_leads {q : Prog} (hUnfolds : g.Unfolds b xs p) (hLeads : p.Leads w q)
    (hHead : q.head? = some a) : g.act? a.op = some a := by
  obtain ⟨_, _, hThere⟩ := Unfolds.leads hLeads hUnfolds
  obtain ⟨_, _, _, hOp, hEq⟩ := hThere.head hHead
  rw [act?_of_op hOp, ← hEq]

/- The way over the first operation of a list. -/
theorem Unfolds.leads_tail (hUnfolds : g.Unfolds b (x :: xs) p) :
    ∃ w q, p.Leads w q ∧ (∀ k ∈ w, ∃ a, k = Prog.Mark.past a) ∧ g.Unfolds b xs q := by
  cases hUnfolds with
  | act _ _ _ hRest => exact ⟨_, _, .act (.here _), forall_mem_singleton.mpr ⟨_, rfl⟩, hRest⟩
  | loop _ _ _ _ _ _ _ _ hRest => exact ⟨[], _, .loop (.here _), forall_mem_nil _, hRest⟩
  | cond _ _ _ _ _ _ hRest => exact ⟨[], _, .cond (.here _), forall_mem_nil _, hRest⟩

/- The way to an operation of a list passes the actions before it. -/
theorem Unfolds.leads_of_mem (hUnfolds : g.Unfolds b xs p) (hMem : x ∈ xs) :
    ∃ w q ys, p.Leads w q ∧ (∀ k ∈ w, ∃ a, k = Prog.Mark.past a) ∧ g.Unfolds b (x :: ys) q := by
  induction xs generalizing p with
  | nil => cases hMem
  | cons y xs ih =>
    rcases mem_cons.mp hMem with rfl | hMem
    · exact ⟨[], p, xs, .here p, forall_mem_nil _, hUnfolds⟩
    · obtain ⟨w₁, q₁, hLeads₁, hPast₁, hRest⟩ := hUnfolds.leads_tail
      obtain ⟨w₂, q₂, ys, hLeads₂, hPast₂, hThere⟩ := ih hRest hMem
      exact ⟨w₁ ++ w₂, q₂, ys, hLeads₁.trans hLeads₂,
        forall_mem_append.mpr ⟨hPast₁, hPast₂⟩, hThere⟩

/- A program for some operations has one for each of them. -/
theorem Unfolds.single (hUnfolds : g.Unfolds b xs p) (hMem : x ∈ xs) : ∃ q, g.Unfolds b [x] q := by
  obtain ⟨before, after, rfl⟩ := append_of_mem hMem
  obtain ⟨_, _, _, _, hRest⟩ := hUnfolds.of_append
  rw [← singleton_append] at hRest
  obtain ⟨q, _, _, hFirst, _⟩ := hRest.of_append
  exact ⟨q, hFirst⟩

/- The program of a loop. -/
theorem Unfolds.cases_of_loop (hUnfolds : g.Unfolds b (x :: xs) p) (hLoop : g.isLoop x = true) :
    ∃ o r c blk v body rest, g.op x = .ok o ∧ o.regions = [r] ∧
      g.Holds x r c blk ∧ blk.args = [v] ∧ g.Closed blk.ops ∧
      g.Unfolds c blk.ops body ∧ p = .loop (g.actOf x o) v body rest := by
  obtain ⟨o, hOp, hKind⟩ := isLoop_iff.mp hLoop
  cases hUnfolds with
  | act hOp' _ hPlain =>
    cases hOp.symm.trans hOp'
    cases hShape : o.kind <;> simp [hShape, Kind.isLoop, Kind.isControl] at hKind hPlain
  | cond hOp' _ hOther =>
    cases hOp.symm.trans hOp'
    rw [hOther] at hKind
    cases hKind
  | loop hOp' _ _ hRegions hHolds hArgs hClosed hBody _ =>
    exact ⟨_, _, _, _, _, _, _, hOp', hRegions, hHolds, hArgs, hClosed, hBody,
      rfl⟩

/- A loop with a program has one for its body. -/
theorem LoopBody.unfolds (hBody : g.LoopBody x c blk)
    (hUnfolds : g.Unfolds b [x] p) : g.Closed blk.ops ∧ ∃ q, g.Unfolds c blk.ops q := by
  rcases hUnfolds.cases_of_loop hBody.isLoop with
    ⟨_, _, _, _, _, body, _, hOp, hRegions, hHolds, _, hClosed, hInner, _⟩
  cases (hHolds.bodyBlock hOp hRegions).symm.trans hBody.bodyBlock
  cases hHolds.block.symm.trans hBody.block
  exact ⟨hClosed, body, hInner⟩

------
-- Paths
------

/-
  The values that the variables of loops go through, each loop
  entered with the outer variables at their values.
-/
def vectors? (g : Graph) : List OpId → Store → Option (List (List Int))
  | [], _ => some [[]]
  | l :: loops, σ =>
    (g.act? l).bind fun a =>
      (g.inductionVar l).toOption.bind fun var =>
        (a.values? σ).bind fun is => Prog.prolong is fun i => vectors? g loops (σ.count var i)

/- A way that enters the given loops, and no branches. -/
structure Follows (g : Graph) (w : List Prog.Mark) (loops : List OpId) :
    Prop where
  straight : Prog.Straight w
  rings : List.Forall₂ (g.act? · = some ·) loops (Prog.ringsOf w)
  vars : List.Forall₂ (g.inductionVar · = .ok ·) loops (Prog.varsOf w)

theorem follows_nil (hPast : ∀ k ∈ w, ∃ a, k = Prog.Mark.past a) : g.Follows w [] := by
  refine ⟨?_, ?_, ?_⟩
  · intro a taken hMem
    obtain ⟨b, hEq⟩ := hPast _ hMem
    cases hEq
  all_goals
    induction w with
    | nil => exact .nil
    | cons k w ih =>
      obtain ⟨⟨a, rfl⟩, hRest⟩ := forall_mem_cons.mp hPast
      exact ih hRest

/- Past some actions and into a loop. -/
theorem Follows.enter {l : OpId} {var : ValueId} (hFollows : g.Follows w loops)
    (hPast : ∀ k ∈ w', ∃ a, k = Prog.Mark.past a) (hAct : g.act? l = some a)
    (hVar : g.inductionVar l = .ok var) : g.Follows (w' ++ .inside a var :: w) (l :: loops) := by
  induction w' with
  | nil =>
    refine ⟨?_, .cons hAct hFollows.rings, .cons hVar hFollows.vars⟩
    intro b taken hMem
    rcases mem_cons.mp hMem with hEq | hMem
    · cases hEq
    · exact hFollows.straight b taken hMem
  | cons k w' ih =>
    obtain ⟨⟨b, rfl⟩, hRest⟩ := forall_mem_cons.mp hPast
    have hTail := ih hRest
    refine ⟨?_, hTail.rings, hTail.vars⟩
    intro c taken hMem
    rcases mem_cons.mp hMem with hEq | hMem
    · cases hEq
    · exact hTail.straight c taken hMem

theorem Follows.append (hFirst : g.Follows w loops)
    (hSecond : g.Follows w' loops') : g.Follows (w ++ w') (loops ++ loops') where
  straight a taken hMem := (mem_append.mp hMem).elim
    (hFirst.straight a taken) (hSecond.straight a taken)
  rings := by
    rw [Prog.ringsOf_append]
    exact rel_append hFirst.rings hSecond.rings
  vars := by
    rw [Prog.varsOf_append]
    exact rel_append hFirst.vars hSecond.vars

/- The vectors of a way are those of the loops that it enters. -/
theorem Follows.vectors?_eq (hFollows : g.Follows w loops)
    (σ : Store) : Prog.vectors? w σ = g.vectors? loops σ := by
  obtain ⟨hStraight, hRings, hVars⟩ := hFollows
  induction w generalizing loops σ with
  | nil =>
    cases hRings
    rfl
  | cons k w ih =>
    have hRest := Prog.straight_of_cons hStraight
    cases k with
    | past a => exact ih σ hRest hRings hVars
    | branch a taken => exact absurd mem_cons_self (hStraight a taken)
    | inside a var =>
      change List.Forall₂ _ loops (a :: Prog.ringsOf w) at hRings
      change List.Forall₂ _ loops (var :: Prog.varsOf w) at hVars
      rcases hRings with _ | ⟨hAct, hRings⟩
      rcases hVars with _ | ⟨hVar, hVars⟩
      simp only [Prog.vectors?, Graph.vectors?, hAct, hVar, Except.toOption, bind_some]
      congr 1
      funext is
      exact Prog.prolong_congr fun i _ => ih _ hRest hRings hVars

theorem Edited.inductionVar (hEdited : g.Edited g' moved blocks)
    (hVar : g.inductionVar x = .ok v) : g'.inductionVar x = .ok v := by
  obtain ⟨b, hBody, hVar⟩ := bind_eq_ok.mp hVar
  obtain ⟨blk, hBlock, hFirst⟩ := bind_eq_ok.mp hVar
  obtain ⟨ops, hBlock'⟩ := hEdited.lists hBlock
  exact bind_eq_ok.mpr ⟨b, hEdited.bodyBlock hBody,
    bind_eq_ok.mpr ⟨_, hBlock', hFirst⟩⟩

/- Loops that are the same elsewhere are followed there, too. -/
theorem Follows.of_edited (hFollows : g.Follows w loops)
    (hEdited : g.Edited g' moved blocks) : g'.Follows w loops := by
  refine ⟨hFollows.straight, hFollows.rings.imp ?_,
    hFollows.vars.imp fun _ _ => hEdited.inductionVar⟩
  intro l a hAct
  obtain ⟨o, hGet, rfl⟩ := map_eq_some_iff.mp hAct
  obtain ⟨q, hOp'⟩ := hEdited.moves (get_eq_ok_iff.mpr hGet)
  rw [act?_of_op hOp', hEdited.actOf]

/- What a way asks for, one of its loops uses and those before do not bind. -/
theorem Follows.exists_of_asks (hFollows : g.Follows w loops) (hAsks : Prog.Asks w v) :
    ∃ before l after a, loops = before ++ l :: after ∧ g.act? l = some a ∧
      v ∈ a.operands ∧ ∀ z ∈ before, g.inductionVar z ≠ .ok v := by
  obtain ⟨hStraight, hRings, hVars⟩ := hFollows
  induction w generalizing loops with
  | nil => cases hAsks
  | cons k w ih =>
    have hRest := Prog.straight_of_cons hStraight
    cases k with
    | past a => exact ih hAsks hRest hRings hVars
    | branch a taken => exact absurd mem_cons_self (hStraight a taken)
    | inside a var =>
      change List.Forall₂ _ loops (a :: Prog.ringsOf w) at hRings
      change List.Forall₂ _ loops (var :: Prog.varsOf w) at hVars
      rcases hRings with _ | ⟨hAct, hRings⟩
      rcases hVars with _ | ⟨hVar, hVars⟩
      rcases hAsks with hMem | ⟨hOther, hAsks⟩
      · exact ⟨[], _, _, a, rfl, hAct, hMem, nofun⟩
      · obtain ⟨before, l, after, b, rfl, hAct', hMem, hNone⟩ := ih hAsks hRest hRings hVars
        refine ⟨_ :: before, l, after, b, rfl, hAct', hMem, forall_mem_cons.mpr ⟨?_, hNone⟩⟩
        intro hSame
        exact hOther (Except.ok.inj (hSame.symm.trans hVar))

/- A path of loops down to an operation is a way of a program. -/
theorem Unfolds.leads_of_path (hUnfolds : g.Unfolds b xs p)
    (hPath : (loops ++ [x]).IsChain g.Holder) (hLoops : ∀ l ∈ loops, g.isLoop l = true)
    (hFirst : ∀ y ∈ (loops ++ [x]).head?, y ∈ xs) :
    ∃ w q c ys, p.Leads w q ∧ g.Follows w loops ∧ g.Unfolds c (x :: ys) q := by
  induction loops generalizing b xs p with
  | nil =>
    obtain ⟨w, q, ys, hLeads, hPast, hThere⟩ := hUnfolds.leads_of_mem (hFirst x rfl)
    exact ⟨w, q, b, ys, hLeads, follows_nil hPast, hThere⟩
  | cons l loops ih =>
    obtain ⟨hLoop, hOthers⟩ := forall_mem_cons.mp hLoops
    obtain ⟨w₁, _, ys, hLeads₁, hPast, hHere⟩ := hUnfolds.leads_of_mem (hFirst l rfl)
    rcases hHere.cases_of_loop hLoop with
      ⟨_, _, _, blk, _, _, _, hOp, hRegions, hHolds, hArgs, hClosed, hBody, rfl⟩
    obtain ⟨hNext, hPath⟩ := isChain_cons.mp hPath
    have hInner (y : OpId) (hMem : y ∈ (loops ++ [x]).head?) : y ∈ blk.ops := by
      obtain ⟨_, _, _, hOp', hIn, hLists⟩ := hNext y hMem
      cases hOp.symm.trans hOp'
      rw [hRegions, mem_singleton] at hIn
      exact (Branch.block hHolds hClosed).mem_of_lists (hIn ▸ hLists)
    obtain ⟨w₂, q, c, zs, hLeads₂, hFollows, hThere⟩ := ih hBody hPath hOthers hInner
    exact ⟨_, q, c, zs, hLeads₁.trans (.body hLeads₂), hFollows.enter hPast (act?_of_op hOp)
        (hHolds.inductionVar hOp hRegions hArgs), hThere⟩

end Graph

end AffineIR
