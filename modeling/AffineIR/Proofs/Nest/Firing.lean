import AffineIR.Proofs.Nest.Bounds
import AffineIR.Proofs.Nest.Guards
import AffineIR.Proofs.Nest.Perfecting

/-
  How often guarded statements are executed.

  The statements of a level are put behind a guard for one
  point of the loops inside.  In a run of the rewritten nest in
  which these loops have an iteration whenever they are
  entered, a statement without results is executed once for
  each iteration of the loops that were around it.  A run of
  the nest from before executes it as often, if it gets to its
  end; it may fail where the rewritten one does not.

  Main result: `Perfection.fires_of_carryOut`
-/

namespace AffineIR

open Answer List Option

variable {a : Act} {g : Graph} {l z : OpId} {level : NestLevel}

/- A loop has an iteration, and its number is a word. -/
def Graph.Busy (g : Graph) (l : OpId) (σ : Store) : Prop :=
  ∃ a is i, g.act? l = some a ∧ a.values? σ = some is ∧ i ∈ is ∧ Word.IsWord i

/- A loop from zero to a positive number has an iteration in all stores. -/
theorem Graph.busy_of_bounds {upper : Int}
    (hBounds : (g.act? l).map (fun a => (a.kind, a.operands)) =
      some (.loop (.ofConstant 0) (.ofConstant upper) 1, []))
    (hPositive : 0 < upper)
    (σ : Store) : g.Busy l σ := by
  obtain ⟨a, hAct, hPair⟩ := map_eq_some_iff.mp hBounds
  obtain ⟨hKind, hOperands⟩ := Prod.mk.inj hPair
  refine ⟨a, Act.iterationsBetween 0 upper 1, 0, hAct, ?_, ?_, by decide⟩
  · unfold Act.values?
    rw [hKind, hOperands]
    rfl
  · obtain ⟨n, rfl⟩ := Int.eq_ofNat_of_zero_le hPositive.le
    cases n with
    | zero => cases hPositive
    | succ n =>
      unfold Act.iterationsBetween
      cases hNext : Word.add? 0 1 <;> simp [Act.iterations, hNext]

/-
  A run executes an operation once for each vector, in their
  order, with the variables holding the vector.
-/
structure Exec.Fires (x : Exec Flow) (m m' : Machine) (h : OpId) (vars : List ValueId)
    (vectors : List (List Int)) : Prop where
  visits : (Exec.visits x m h).map (fun k => vars.map k.store.env) = vectors.map Prog.indexed
  count : m'.count h = m.count h + vectors.length

namespace Graph

variable {c : BlockId} {root h : OpId} {p : Prog} {m m' : Machine} {flow : Flow} {t : Trace}
  {σ : Store}

/- What the trace of its program executes, a nest executes. -/
theorem Unfolds.fires {vars : List ValueId} {vectors : List (List Int)}
    (hUnfolds : g.Unfolds c [root] p)
    (hOutcome : Exec.outcome (Exec.nest g root) m = (.ok flow, m'))
    (hRun : p.run m.store = some (t, σ)) (hAfter : m.After t σ m')
    (hVisits : (t.visits h).map (fun ρ => vars.map ρ.env) = vectors.map Prog.indexed) :
    Exec.Fires (Exec.nest g root) m m' h vars vectors where
  visits := by
    rw [← hVisits, ← (hUnfolds.traces hOutcome hRun hAfter).visits, List.map_map]
    rfl
  count := by
    have hLength := congrArg List.length hVisits
    rw [List.length_map, List.length_map, Trace.length_visits] at hLength
    rw [hAfter.counts h, hLength]

/- The actions of a trace are those of the operations. -/
theorem Unfolds.act_of_mem {xs : List OpId} {ρ σ' : Store} (hUnfolds : g.Unfolds c xs p)
    (hRun : p.run σ = some (t, σ')) (hMem : (a, ρ) ∈ t) : g.act? a.op = some a := by
  obtain ⟨w, _, q, hArrives, hHead⟩ := Prog.arrives_of_mem_run hRun hMem
  exact hUnfolds.act_of_leads hArrives.leads hHead

variable {f : Function} {x : OpId} {ups : List OpId}

/- An operation rises through what holds it, up to the top. -/
theorem Intact.rises_of_holders (hIntact : g.Intact) (hTop : g.parentOp? root = .ok none)
    (hChain : (x :: ups).IsChain (fun y z => g.Holder z y))
    (hLast : (x :: ups).getLast? = some root) : g.Rises x (x :: ups) := by
  induction ups generalizing x with
  | nil =>
    cases hLast
    exact .top hTop
  | cons z ups ih =>
    obtain ⟨hHolder, hRest⟩ := isChain_cons_cons.mp hChain
    rw [List.getLast?_cons_cons] at hLast
    exact .child (hIntact.parentOp?_of_holder hHolder) (ih hRest hLast)

/- If only loops are around an operation, these are its enclosing loops. -/
theorem enclosingLoops_of_rises (hRises : f.graph.Rises x (x :: ups))
    (hLoops : ∀ l ∈ ups, f.graph.isLoop l = true) : f.graph.enclosingLoops x = .ok ups.reverse := by
  obtain ⟨hOps, hFault⟩ := hRises.ops_lineage
  have hScope : f.graph.loopsInScope (f.graph.lineage x) ups = .ok ups := by
    clear hRises hOps
    induction ups with
    | nil =>
      unfold Graph.loopsInScope Lineage.atTop
      rw [hFault]
    | cons l ups ih =>
      obtain ⟨hLoop, hOthers⟩ := forall_mem_cons.mp hLoops
      obtain ⟨o, hOp, hKind⟩ := isLoop_iff.mp hLoop
      have hPlain : o.kind.traits.affineScope = false := by
        cases hShape : o.kind <;> simp_all [Kind.isLoop, Kind.traits]
      rw [Function.loopsInScope_cons hOp hPlain (ih hOthers), if_pos hKind]
  unfold Graph.enclosingLoops
  simp only [hOps, drop_succ_cons, drop_zero, hScope]
  rfl

end Graph

/- What two lists are to a third one, they are to each other. -/
theorem forall₂_of_forall₂
    {α β γ : Type} {P : α → β → Prop} {Q : α → γ → Prop} {xs : List α} {ys : List β} {zs : List γ}
    (hFirst : List.Forall₂ P xs ys)
    (hSecond : List.Forall₂ Q xs zs) : List.Forall₂ (fun y z => ∃ x ∈ xs, P x y ∧ Q x z) ys zs := by
  induction hFirst generalizing zs with
  | nil =>
    cases hSecond
    exact .nil
  | @cons x y xs ys hHead _ ih =>
    cases hSecond with
    | cons hHead' hTail' =>
      refine .cons ⟨x, mem_cons_self, hHead, hHead'⟩ ((ih hTail').imp ?_)
      rintro y z ⟨x', hMem, hBoth⟩
      exact ⟨x', mem_cons_of_mem _ hMem, hBoth⟩

theorem Answer.mapM_of_forall₂
    {ε α β : Type} {question : α → Except ε β} {xs : List α} {ys : List β}
    (hEach : List.Forall₂ (fun x y => question x = .ok y) xs ys) : xs.mapM question = .ok ys := by
  induction hEach with
  | nil => rfl
  | cons hHead _ ih =>
    rw [mapM_cons, hHead, ok_bind, ih]
    rfl

namespace Perfection

section Ways

variable {root inner guard x : OpId} {set : Affine.IntegerSet} {vars : List ValueId} {c : BlockId}
  {p : Prog}

/- The program of a guard, with what stands behind it. -/
theorem Caged.cases_of_unfolds {ys : List OpId} (hCaged : Caged g inner guard set vars x)
    (hUnfolds : g.Unfolds c (guard :: ys) p) :
    ∃ a branch rest b xs, p = .cond a branch rest ∧ a.kind = .conditional set ∧
      a.operands = vars ∧ g.Unfolds b xs (branch true) ∧ x ∈ xs := by
  obtain ⟨o, yes, no, hOp, hKind, hVars, hRegions, hElse⟩ := hCaged.guards
  cases hUnfolds with
  | act hOp' _ hPlain =>
    cases hOp.symm.trans hOp'
    rw [hKind] at hPlain
    cases hPlain
  | loop hOp' _ hOther =>
    cases hOp.symm.trans hOp'
    cases hKind.symm.trans hOther
  | cond hOp' _ _ hRegions' hBranch hInner _ =>
    cases hOp.symm.trans hOp'
    refine ⟨_, _, _, _, _, rfl, hKind, hVars, hInner true, ?_⟩
    obtain ⟨hYes, _⟩ := List.cons.inj (hRegions.symm.trans hRegions')
    obtain ⟨_, r, _, hOp', hMem, hLists⟩ := hCaged.holds
    cases hOp.symm.trans hOp'
    rw [hRegions, mem_pair] at hMem
    rcases hMem with rfl | rfl
    · exact (hYes ▸ hBranch true).mem_of_lists hLists
    · obtain ⟨⟨_, hRegion, hListed⟩, _⟩ := hLists
      cases hElse.symm.trans hRegion
      cases hListed

/- The way to a guarded statement, split at the point of the guard. -/
theorem Caged.leads {outer inners : List OpId} (hCaged : Caged g inner guard set vars x)
    (hUnfolds : g.Unfolds c [root] p) (hChain : (outer ++ inners).IsChain g.Holder)
    (hLoops : ∀ l ∈ outer ++ inners, g.isLoop l = true) (hTop : (outer ++ inners).head? = some root)
    (hLast : inners.getLast? = some inner) :
    ∃ w₁ w₂ a w' q b, p.Leads (w₁ ++ (w₂ ++ .branch a true :: w')) q ∧
      g.Follows w₁ outer ∧ g.Follows w₂ inners ∧ a.kind = .conditional set ∧
      a.operands = vars ∧ (∀ k ∈ w', ∃ a, k = Prog.Mark.past a) ∧ q.head? = some b ∧ b.op = x := by
  cases inners with
  | nil => cases hLast
  | cons first more =>
    have hSplit : outer ++ first :: more = (outer ++ [first]) ++ more := by simp
    have hUpper : (outer ++ [first]).IsChain g.Holder :=
      (isChain_append.mp (hSplit ▸ hChain)).1
    have hLower : ((first :: more) ++ [guard]).IsChain g.Holder := by
      refine isChain_append.mpr ⟨(isChain_append.mp hChain).2.1,
        isChain_singleton _, ?_⟩
      intro y hMem z hMem'
      cases hLast.symm.trans hMem
      cases hMem'
      exact hCaged.holder
    have hHead : ∀ y ∈ (outer ++ [first]).head?, y ∈ [root] := by
      intro y hMem
      rw [hSplit, List.head?_append_of_ne_nil _ (by simp)] at hTop
      cases hTop.symm.trans hMem
      exact mem_singleton_self _
    rcases hUnfolds.leads_of_path hUpper
      (fun l hMem => hLoops l (mem_append_left _ hMem)) hHead with
      ⟨w₁, q₁, c₁, ys, hLeads₁, hFollows₁, hThere₁⟩
    rcases hThere₁.leads_of_path hLower (fun l hMem => hLoops l (mem_append_right _ hMem))
      (fun y hMem => by cases hMem; exact mem_cons_self) with
      ⟨w₂, q₂, c₂, zs, hLeads₂, hFollows₂, hThere₂⟩
    obtain ⟨a, _, rest, d, _, rfl, hKind, hVars, hYes, hIn⟩ := hCaged.cases_of_unfolds hThere₂
    obtain ⟨w', q, _, hLeads', hPast, hHere⟩ := hYes.leads_of_mem hIn
    obtain ⟨o, _, _, hFirst, _⟩ := hHere.uncons
    exact ⟨w₁, w₂, a, w', q, _, hLeads₁.trans (hLeads₂.trans (.branch hLeads')),
      hFollows₁, hFollows₂, hKind, hVars, hPast, hFirst, rfl⟩

end Ways

------
-- Runs of the nest
------

section Runs

open Prog

/- A guard for loops on a way asks for nothing but their variables. -/
theorem asks_of_guarded {w w' : List Mark} {v : ValueId} (hVars : a.operands ⊆ varsOf w)
    (hPast : ∀ k ∈ w', ∃ a, k = Mark.past a)
    (hAsks : Asks (w ++ .branch a true :: w') v) : Asks w v := by
  have hNone : ¬Asks w' v := by
    clear hAsks
    induction w' with
    | nil => exact id
    | cons k w' ih =>
      obtain ⟨⟨b, rfl⟩, hRest⟩ := forall_mem_cons.mp hPast
      exact ih hRest
  rcases asks_append hAsks with hHere | ⟨hFree, hMem | hThere⟩
  · exact hHere
  · exact absurd (hVars hMem) hFree
  · exact absurd hThere hNone

theorem op_of_act? (hAct : g.act? l = some a) : a.op = l := by
  obtain ⟨o, _, rfl⟩ := map_eq_some_iff.mp hAct
  rfl

variable {loops : List OpId} {vars vars' : List ValueId}

/- The variables of loops are determined by the loops. -/
theorem eq_of_inductionVars (hFirst : List.Forall₂ (g.inductionVar · = .ok ·) loops vars)
    (hSecond : List.Forall₂ (g.inductionVar · = .ok ·) loops vars') : vars = vars' :=
  right_unique_forall₂'
    (fun _ _ _ hOne hOther => Except.ok.inj (hOne.symm.trans hOther)) hFirst hSecond

namespace Planned

variable {f : Function} {g' : Graph} {root inner top guard x : OpId} {rungs : List Rung}
  {levels : List NestLevel} {rest outer inners : List OpId} {set : Affine.IntegerSet}
  {point : List Int} {P : OpId → Int → Prop} {c : BlockId} {p : Prog} {t : Trace} {σ σ' : Store}

section

variable (h : Planned f root inner rungs levels)

include h

theorem head_chainDown  :
    (chainDown inner rungs).head? = some root := by
  unfold chainDown
  rw [List.head?_reverse]
  exact h.emptying.top

/-
  A guarded statement is executed once for each vector of the
  loops around those that the guard is for, if these come to
  its point.
-/
theorem visits_of_caged (hCarried : Carried f.graph g' root inner)
    (hEmptied : Emptying g' f.body root inner top rest [])
    (hWhole : top :: rest = chainDown inner rungs)
    (hSplit : chainDown inner rungs = outer ++ inners.reverse) (hInner : inners.head? = some inner)
    (hCounts : List.Forall₂ (g'.inductionVar · = .ok ·) inners vars)
    (hCaged : Caged g' inner guard set vars x)
    (hGate : ∀ {a : Act}, a.kind = .conditional set → Gate a a.operands.reverse point.reverse)
    (hPoint : List.Forall₂ P inners point) (hUnfolds : g'.Unfolds c [root] p)
    (hRun : p.run σ = some (t, σ'))
    (hComes : ∀ {a σ is c}, a.op ∈ inners → P a.op c → Meets t a σ →
      a.values? σ = some is → c ∈ is) :
    ∃ w us, g'.Follows w outer ∧ vectors? w σ = some us ∧
      (t.visits x).map (fun ρ => (varsOf w).map ρ.env) = us.map indexed := by
  have hChain : (outer ++ inners.reverse).IsChain g'.Holder := by
    rw [← hSplit, ← hWhole]
    exact hEmptied.chain.imp fun _ _ hEncloses => hEncloses.holder
  have hLoops : ∀ l ∈ outer ++ inners.reverse, g'.isLoop l = true := by
    intro l hMem
    rw [← hSplit, ← hWhole] at hMem
    obtain ⟨_, _, hBody⟩ := hEmptied.bodies hMem
    exact hBody.isLoop
  rcases hCaged.leads hUnfolds hChain hLoops (hSplit ▸ h.head_chainDown)
    (by rw [List.getLast?_reverse, hInner]) with
    ⟨w₁, w₂, a, w', q, b, hLeads, hFollows₁, hFollows₂, hKind, hVars, hPast, hHead, rfl⟩
  have hVarsOf : varsOf w₂ = vars.reverse :=
    eq_of_inductionVars hFollows₂.vars (forall₂_reverse_iff.mpr hCounts)
  have hAsked : a.operands ⊆ varsOf (w₁ ++ w₂) := by
    intro v hMem
    rw [varsOf_append, hVarsOf, ← hVars]
    exact mem_append_right _ (mem_reverse.mpr hMem)
  have hFree : ∀ v, Asks (w₁ ++ (w₂ ++ .branch a true :: w')) v → ¬p.Binds v := by
    intro v hAsks
    rw [← List.append_assoc] at hAsks
    exact h.free hCarried hUnfolds (hFollows₁.append hFollows₂)
      (hSplit ▸ prefix_rfl) (asks_of_guarded hAsked hPast hAsks)
  obtain ⟨n, hRow⟩ := hEmptied.intact.row hEmptied.linked hEmptied.reached
  have hFresh := hUnfolds.fresh hEmptied.intact hRow
  have hTours := tours_of_run hLeads hHead
    (hUnfolds.nodup_ids hEmptied.intact.tidy hRow) hFresh hFree hRun
  have hNodup : (varsOf w₂).Nodup := by
    have hAll := hLeads.nodup_varsOf hFresh
    rw [varsOf_append, varsOf_append] at hAll
    exact (nodup_append.mp (nodup_append.mp hAll).2.1).1
  have hOpens : Gate a (varsOf w₂) point.reverse := by
    rw [hVarsOf, ← hVars]
    exact hGate hKind
  rcases hTours.through hFollows₁.straight hFollows₂.straight hPast hOpens hNodup
    (forall₂_of_forall₂ hFollows₂.rings (forall₂_reverse_iff.mpr hPoint))
    (fun {b τ} hMeets is i hValues ⟨l, hMem, hAct, hHere⟩ => by
      have hSame := op_of_act? hAct
      subst hSame
      exact hComes (mem_reverse.mp hMem) hHere hMeets hValues) with
    ⟨us, hUs, hVisits⟩
  exact ⟨w₁, us, hFollows₁, hUs, hVisits⟩

/- The rewriting keeps the kinds of the loops. -/
theorem kind_of_act (hCarried : Carried f.graph g' root inner) (hMem : a.op ∈ chainDown inner rungs)
    (hAct : g'.act? a.op = some a) : f.graph.kind a.op = .ok a.kind := by
  obtain ⟨_, _, hEdited⟩ := hCarried.edited
  obtain ⟨o, hOp⟩ := h.intact.op_of_reached (h.reached_of_mem hMem)
  obtain ⟨q, hOp'⟩ := hEdited.moves hOp
  have hSame := Option.some.inj (hAct.symm.trans (Graph.act?_of_op hOp'))
  rw [congrArg Act.kind hSame]
  unfold Graph.kind
  rw [hOp]
  rfl

/- A loop that is busy wherever a run enters it has an iteration there. -/
theorem exists_of_meets {τ : Store} {is : List Int} (hCarried : Carried f.graph g' root inner)
    (hLoop : a.op ∈ chainDown inner rungs) (hUnfolds : g'.Unfolds c [root] p)
    (hRun : p.run σ = some (t, σ')) (hBusy : ∀ ρ ∈ t.visits a.op, g'.Busy a.op ρ)
    (hMeets : Meets t a τ) (hValues : a.values? τ = some is) :
    f.graph.kind a.op = .ok a.kind ∧ ∃ i ∈ is, Word.IsWord i := by
  obtain ⟨ρ, hMem, hSame⟩ := hMeets
  have hAct := hUnfolds.act_of_mem hRun hMem
  refine ⟨h.kind_of_act hCarried hLoop hAct, ?_⟩
  rcases hBusy ρ (Trace.mem_visits_iff.mpr ⟨a, hMem, rfl⟩) with
    ⟨a', is', i, hAct', hValues', hIn, hWord⟩
  cases hAct.symm.trans hAct'
  rw [Act.values?_congr hSame, hValues] at hValues'
  cases hValues'
  exact ⟨i, hIn, hWord⟩

/-
  A sunk statement without results is executed once for each
  vector of the loops around those of its level, in a run in
  which the loops of the level are busy.
-/
theorem visits_of_sunk (hCarried : Carried f.graph g' root inner)
    (hEmptied : Emptying g' f.body root inner top rest [])
    (hWhole : top :: rest = chainDown inner rungs)
    (hSplit : chainDown inner rungs = outer ++ level.inner.reverse)
    (hInner : level.inner.head? = some inner) (hPoints : Points f.graph f.name level)
    (hGuarded : Guarded g' inner level vars) (hSunk : x ∈ level.front ++ level.back)
    (hQuiet : g'.hasResults x = false) (hUnfolds : g'.Unfolds c [root] p)
    (hRun : p.run σ = some (t, σ')) (hBusy : ∀ l ∈ level.inner, ∀ ρ ∈ t.visits l, g'.Busy l ρ) :
    ∃ w us, g'.Follows w outer ∧ vectors? w σ = some us ∧
      (t.visits x).map (fun ρ => (varsOf w).map ρ.env) = us.map indexed := by
  have hComes {a : Act} {τ : Store} {is : List Int} (hMem : a.op ∈ level.inner)
      (hMeets : Meets t a τ) (hValues : a.values? τ = some is) := h.exists_of_meets hCarried
      (hSplit ▸ mem_append_right _ (mem_reverse.mpr hMem))
      hUnfolds hRun (hBusy a.op hMem) hMeets hValues
  rcases mem_append.mp hSunk with hFront | hBack
  · obtain ⟨guard, hCaged⟩ := hGuarded.front hFront hQuiet
    refine h.visits_of_caged hCarried hEmptied hWhole hSplit hInner
      hGuarded.counts hCaged gate_firstGuard
      (hPoints.first (ne_nil_of_mem hFront)) hUnfolds hRun ?_
    intro a τ is i hMem hFirst hMeets hValues
    obtain ⟨hKind, j, hIn, _⟩ := hComes hMem hMeets hValues
    exact mem_of_firstValue hKind hFirst hValues (ne_nil_of_mem hIn)
  · obtain ⟨guard, hCaged⟩ := hGuarded.back hBack hQuiet
    refine h.visits_of_caged hCarried hEmptied hWhole hSplit hInner
      hGuarded.counts hCaged gate_lastGuard
      (hPoints.last (ne_nil_of_mem hBack)) hUnfolds hRun ?_
    intro a τ is i hMem hLast hMeets hValues
    obtain ⟨hKind, j, hIn, hWord⟩ := hComes hMem hMeets hValues
    exact mem_of_lastValue hKind hLast hValues hIn hWord

/- The nest from before, with the way to a statement of one of its loops. -/
theorem way_of_holder (hValid : f.problems = .ok [])
    (hSplit : chainDown inner rungs = outer ++ inners) (hLast : outer.getLast? = some z)
    (hHolder : f.graph.Holder z x) :
    f.graph.enclosingLoops x = .ok outer ∧
      ∃ c p w, f.graph.Unfolds c [root] p ∧ f.graph.Follows w outer ∧
        ∀ {σ t σ'}, p.run σ = some (t, σ') → Tours w σ t x := by
  have hMem : ∀ l ∈ outer, l ∈ chainDown inner rungs := by
    intro l hIn
    rw [hSplit]
    exact mem_append_left _ hIn
  have hLoops : ∀ l ∈ outer, f.graph.isLoop l = true := fun l hIn => (h.loop_of_mem (hMem l hIn)).2
  have hOuter : outer ≠ [] := by
    rintro rfl
    cases hLast
  have hTop : (outer ++ [x]).head? = some root := by
    have hFirst := h.head_chainDown
    rw [hSplit, List.head?_append_of_ne_nil _ hOuter] at hFirst
    rw [List.head?_append_of_ne_nil _ hOuter, hFirst]
  have hPath : (outer ++ [x]).IsChain f.graph.Holder := by
    have hChain := h.isChain
    rw [hSplit] at hChain
    refine isChain_append.mpr ⟨(isChain_append.mp hChain).1, isChain_singleton _, ?_⟩
    intro y hIn y' hIn'
    cases hLast.symm.trans hIn
    cases hIn'
    exact hHolder
  have hReached : f.graph.Reached f.body x :=
    .child (h.reached_of_mem (hMem z (mem_of_getLast? hLast))) hHolder
  refine ⟨?_, ?_⟩
  · have hUp : (x :: outer.reverse).IsChain (fun y z => f.graph.Holder z y) := by
      have hTurned := isChain_reverse.mpr hPath
      rwa [reverse_append] at hTurned
    have hEnd : (x :: outer.reverse).getLast? = some root := by
      rw [← hTop, ← List.getLast?_reverse, reverse_append]
      rfl
    have hRises := h.intact.rises_of_holders h.top hUp hEnd
    rw [Graph.enclosingLoops_of_rises hRises
      (fun l hIn => hLoops l (mem_reverse.mp hIn)), reverse_reverse]
  · obtain ⟨c, hLists⟩ := h.emptying.listed
    have hRoot := mem_of_head? h.head_chainDown
    obtain ⟨o, hOp, hKind⟩ := Graph.isLoop_iff.mp (h.loop_of_mem hRoot).2
    have hJump : o.kind.isJump = false := by
      cases hShape : o.kind <;> simp_all [Kind.isLoop, Kind.isJump]
    obtain ⟨p, hUnfolds⟩ := Function.opens_body hValid hLists hOp hJump
    rcases hUnfolds.leads_of_path hPath hLoops (fun y hIn => by
      cases hTop.symm.trans hIn
      exact mem_singleton_self _) with
      ⟨w, q, d, ys, hLeads, hFollows, hThere⟩
    obtain ⟨_, _, _, hHead, _⟩ := hThere.uncons
    refine ⟨c, p, w, hUnfolds, hFollows, ?_⟩
    intro σ t σ' hRun
    obtain ⟨n, hRow⟩ := h.intact.row h.linked h.emptying.reached
    exact tours_of_run hLeads hHead (hUnfolds.nodup_ids h.intact.tidy hRow)
      (hUnfolds.fresh h.intact hRow)
      (fun v => h.free (.refl ..) hUnfolds hFollows ⟨inners, hSplit.symm⟩) hRun

/- The loops of a level, and the rung it is for. -/
theorem exists_of_level (hLevel : level ∈ levels) (hSunk : x ∈ level.front ++ level.back) :
    ∃ outer z, chainDown inner rungs = outer ++ level.inner.reverse ∧
      level.inner.head? = some inner ∧ outer.getLast? = some z ∧ f.graph.Holder z x := by
  obtain ⟨below, r, above, rfl, hFits⟩ := h.scheduled.exists_of_mem hLevel
  rw [hFits.front, hFits.back] at hSunk
  refine ⟨((r :: above).map Rung.outer).reverse, r.outer, ?_, ?_, ?_, ?_⟩
  · rw [hFits.inner]
    simp [chainDown]
  · rw [hFits.inner]
    rfl
  · rw [List.getLast?_reverse]
    rfl
  · obtain ⟨z, b, blk, last, hBody, hOps⟩ := h.emptying.ladder.stands (r := r) (by simp)
    refine hBody.holder ?_
    rw [hOps]
    rcases mem_append.mp hSunk with hFront | hBack
    · simp [hFront]
    · simp [hBack]

end

end Planned

end Runs

/-
  In a run of the rewritten nest that gets to its end, with an
  iteration of the loops inside whenever they are entered, a
  sunk statement without results is executed once for each
  vector of the loops that were around it, and no vector comes
  twice.  If the nest from before gets to its end as well, it
  executes the statement at the same vectors.
-/
theorem fires_of_carryOut
    {f : Function} {g' : Graph} {c : BlockId} {root x : OpId} {level : NestLevel}
    {levels : List NestLevel} {u : Unit} {m m' : Machine} {flow : Flow}
    (hCoherent : f.graph.Coherent) (hValid : f.problems = .ok [])
    (hLists : f.graph.Lists f.body c root) (hLoop : f.graph.isLoop root = true)
    (hPlan : plan f.graph f.name root = .ok levels)
    (hCarried : (carryOut levels).run f.graph = .ok (u, g')) (hLevel : level ∈ levels)
    (hSunk : x ∈ level.front ++ level.back) (hQuiet : f.graph.hasResults x = false)
    (hOutcome : Exec.outcome (Exec.nest g' root) m = (.ok flow, m'))
    (hBusy : ∀ l ∈ level.inner, ∀ k ∈ Exec.visits (Exec.nest g' root) m l, g'.Busy l k.store) :
    ∃ loops vars vectors, f.graph.enclosingLoops x = .ok loops ∧
      loops.mapM f.graph.inductionVar = .ok vars ∧
      f.graph.vectors? loops m.store = some vectors ∧ vectors.Nodup ∧
      Exec.Fires (Exec.nest g' root) m m' x vars vectors ∧
      ∀ {flow₀ m₀}, Exec.outcome (Exec.nest f.graph root) m = (.ok flow₀, m₀) →
        Exec.Fires (Exec.nest f.graph root) m m₀ x vars vectors := by
  obtain ⟨inner, rungs, hPlanned⟩ := planned_of_plan hCoherent hValid hLists hLoop hPlan
  rcases emptied_of_carryOut hPlanned.scheduled hPlanned.emptying hCarried with
    ⟨top, rest, hWhole, _, hKeeps, hEmptied, hGuards⟩
  obtain ⟨outer, z, hSplit, hInner, hLast, hHolder⟩ := hPlanned.exists_of_level hLevel hSunk
  rcases hPlanned.way_of_holder hValid hSplit hLast hHolder with
    ⟨hLoops, b, p, w, hUnfolds, hFollows, hTours⟩
  obtain ⟨b', p', hUnfolds'⟩ := hKeeps.unfolds ⟨b, p, hUnfolds⟩
  obtain ⟨t, σ, hRun, hAfter, _⟩ := hUnfolds'.run_of_nest hOutcome
  obtain ⟨_, _, hEdited⟩ := hKeeps.edited
  have hBusy' : ∀ l ∈ level.inner, ∀ ρ ∈ t.visits l, g'.Busy l ρ := by
    intro l hMem ρ hIn
    rw [← (hUnfolds'.traces hOutcome hRun hAfter).visits] at hIn
    obtain ⟨k, hThere, rfl⟩ := mem_map.mp hIn
    exact hBusy l hMem k hThere
  have hQuiet' : g'.hasResults x = false := by
    have hOuter := hPlanned.reached_of_mem
      (hSplit ▸ mem_append_left _ (mem_of_getLast? hLast))
    obtain ⟨o, hOp⟩ := hPlanned.intact.op_of_reached (.child hOuter hHolder)
    rw [hEdited.hasResults hOp, hQuiet]
  obtain ⟨_, hGuarded⟩ := hGuards level hLevel
  rcases hPlanned.visits_of_sunk hKeeps hEmptied hWhole hSplit hInner
    (points_of_plan hPlan hLevel) hGuarded hSunk hQuiet' hUnfolds' hRun hBusy' with
    ⟨w', us, hFollows', hVectors', hFired⟩
  -- both ways go through the vectors of the same loops
  have hVectors : Prog.vectors? w m.store = some us := by
    rw [(hFollows.of_edited hEdited).vectors?_eq, ← hFollows'.vectors?_eq, hVectors']
  have hVars : Prog.varsOf w' = Prog.varsOf w :=
    eq_of_inductionVars hFollows'.vars (hFollows.of_edited hEdited).vars
  rw [hVars] at hFired
  refine ⟨outer, Prog.varsOf w, us, hLoops, Answer.mapM_of_forall₂ hFollows.vars,
    hFollows.vectors?_eq _ ▸ hVectors, Prog.nodup_of_vectors? hVectors,
    hUnfolds'.fires hOutcome hRun hAfter hFired, ?_⟩
  intro flow₀ m₀ hOutcome₀
  obtain ⟨t₀, σ₀, hRun₀, hAfter₀, _⟩ := hUnfolds.run_of_nest hOutcome₀
  obtain ⟨us₀, hVectors₀, hFired₀⟩ := (hTours hRun₀).visits
  cases hVectors.symm.trans hVectors₀
  exact hUnfolds.fires hOutcome₀ hRun₀ hAfter₀ hFired₀

/- The plan for a nest, and the graph after it is carried out. -/
def carried? (f : Function) (root : OpId) : Option (List NestLevel × Graph) :=
  (plan f.graph f.name root).toOption.bind fun levels =>
    ((carryOut levels).run f.graph).toOption.map fun r => (levels, r.2)

/- A nest with statements around one loop from zero to a number. -/
theorem exists_of_carried? (f : Function) (root l : OpId) (front back : List OpId) (upper : Int)
    (test : Graph → Bool) (hPositive : 0 < upper)
    (hTest : (carried? f root).any (fun r =>
      r.1.map (fun level => (level.front, level.back, level.inner)) = [(front, back, [l])] ∧
        (r.2.act? l).map (fun a => (a.kind, a.operands)) =
          some (.loop (.ofConstant 0) (.ofConstant upper) 1, []) ∧ test r.2 = true) = true) :
    ∃ g' level, plan f.graph f.name root = .ok [level] ∧
      (carryOut [level]).run f.graph = .ok ((), g') ∧ level.front = front ∧
      level.back = back ∧ (∀ l ∈ level.inner, ∀ σ, g'.Busy l σ) ∧ test g' = true := by
  obtain ⟨⟨levels, g'⟩, hSome, hParts⟩ := (any_eq_true _ _).mp hTest
  obtain ⟨hLevels, hBounds, hTrue⟩ := of_decide_eq_true hParts
  obtain ⟨_, hPlan, hRest⟩ := bind_eq_some_iff.mp hSome
  obtain ⟨_, hRun, hPair⟩ := map_eq_some_iff.mp hRest
  cases hPair
  obtain ⟨level, rfl, hLevel⟩ := map_eq_singleton_iff.mp hLevels
  simp only [Prod.mk.injEq] at hLevel
  obtain ⟨hFront, hBack, hInner⟩ := hLevel
  refine ⟨_, level, eq_ok_of_toOption hPlan, eq_ok_of_toOption hRun,
    hFront, hBack, ?_, hTrue⟩
  rw [hInner]
  exact forall_mem_singleton.mpr (Graph.busy_of_bounds hBounds hPositive)

/- A loop with an upper bound that grows with the loop around, and statements in it. -/
def staircaseHistory : List Mutation := [ .createRegion none,
    .createBlock ⟨0⟩ [.memref [2] .index],
    .createLoop 2,
    .append ⟨0⟩ ⟨0⟩,
    .createRegion (some ⟨0⟩),
    .createBlock ⟨1⟩ [.index],
    .createOp (.loop (.ofConstant 0) ⟨1, 0, [.add (.dim 0) (.constant 1)]⟩ 1) [⟨1⟩] [] [],
    .append ⟨1⟩ ⟨1⟩,
    .createRegion (some ⟨1⟩),
    .createBlock ⟨2⟩ [.index],
    .createOp .store [⟨2⟩, ⟨0⟩, ⟨1⟩] [] [],
    .append ⟨2⟩ ⟨2⟩,
    .createLoop 2,
    .append ⟨2⟩ ⟨3⟩,
    .createRegion (some ⟨3⟩),
    .createBlock ⟨3⟩ [.index],
    .createOp .store [⟨3⟩, ⟨0⟩, ⟨3⟩] [] [],
    .append ⟨3⟩ ⟨4⟩,
    .createOp .yield [] [] [],
    .append ⟨3⟩ ⟨5⟩,
    .createOp .store [⟨1⟩, ⟨0⟩, ⟨2⟩] [] [],
    .append ⟨2⟩ ⟨6⟩,
    .createOp .yield [] [] [],
    .append ⟨2⟩ ⟨7⟩,
    .createOp .yield [] [] [],
    .append ⟨1⟩ ⟨8⟩,
    .createOp .ret [] [] [],
    .append ⟨0⟩ ⟨9⟩ ]

def staircase : Function where
  name := "staircase"
  graph := .ofHistory staircaseHistory
  body := ⟨0⟩
  resultTypes := []

theorem staircase_coherent : staircase.graph.Coherent := by
  unfold staircase
  dsimp only
  exact Graph.coherent_ofHistory staircaseHistory rfl

def staircaseMachine : Machine :=
  { buffers := #[⟨[2], #[.index 0, .index 0], false⟩],
    env := ⟨#[some (.buffer 0)]⟩ }

theorem staircase_fires_of_carryOut :
    (staircase.graph.Coherent ∧ staircase.problems = .ok [] ∧
      staircase.graph.isLoop ⟨0⟩ = true ∧ staircase.graph.hasResults ⟨6⟩ = false ∧
      ∃ c, staircase.graph.Lists staircase.body c ⟨0⟩) ∧
    ∃ levels g' level m', plan staircase.graph "staircase" ⟨0⟩ = .ok levels ∧
      (carryOut levels).run staircase.graph = .ok ((), g') ∧
      level ∈ levels ∧ ⟨6⟩ ∈ level.front ++ level.back ∧
      Exec.outcome (Exec.nest g' ⟨0⟩) staircaseMachine = (.ok .done, m') ∧
      (∀ l ∈ level.inner, ∀ σ, g'.Busy l σ) ∧
      Exec.Fires (Exec.nest g' ⟨0⟩) staircaseMachine m' ⟨6⟩ [⟨1⟩, ⟨2⟩]
        [[0, 0], [1, 0], [1, 1]] := by
  have hValid : staircase.problems = .ok [] := by decide +kernel
  have hLoop : staircase.graph.isLoop ⟨0⟩ = true := by decide +kernel
  have hQuiet : staircase.graph.hasResults ⟨6⟩ = false := by decide +kernel
  have hOps : staircase.graph.regionOps staircase.body = .ok [⟨0⟩, ⟨9⟩] := by decide +kernel
  have hLoops : staircase.graph.enclosingLoops ⟨6⟩ = .ok [⟨0⟩, ⟨1⟩] := by decide +kernel
  have hVars : [⟨0⟩, ⟨1⟩].mapM staircase.graph.inductionVar = .ok [⟨1⟩, ⟨2⟩] := by decide +kernel
  have hVectors : staircase.graph.vectors? [⟨0⟩, ⟨1⟩] staircaseMachine.store =
      some [[0, 0], [1, 0], [1, 1]] := by
    decide +kernel
  obtain ⟨c, hLists⟩ := (Graph.mem_regionOps_iff hOps).mp mem_cons_self
  rcases exists_of_carried? staircase ⟨0⟩ ⟨3⟩ [⟨2⟩] [⟨6⟩] 2
    (fun g' => (Exec.outcome (Exec.nest g' ⟨0⟩) staircaseMachine).1 = .ok .done)
    (by decide) (by decide +kernel) with ⟨g', level, hPlan, hCarried, hFront, hBack, hBusy, hDone⟩
  have hSunk : ⟨6⟩ ∈ level.front ++ level.back := by simp [hFront, hBack]
  have hOutcome : Exec.outcome (Exec.nest g' ⟨0⟩) staircaseMachine = (.ok .done, _) :=
    Prod.ext (of_decide_eq_true hDone) rfl
  rcases fires_of_carryOut staircase_coherent hValid hLists hLoop hPlan hCarried
    (mem_singleton_self _) hSunk hQuiet hOutcome (fun l hMem k _ => hBusy l hMem k.store) with
    ⟨loops, vars, vectors, hLoops', hVars', hVectors', _, hFires, _⟩
  cases hLoops.symm.trans hLoops'
  cases hVars.symm.trans hVars'
  cases hVectors.symm.trans hVectors'
  exact ⟨⟨staircase_coherent, hValid, hLoop, hQuiet, c, hLists⟩, _, g', level, _, hPlan,
    hCarried, mem_singleton_self _, hSunk, hOutcome, hBusy, hFires⟩

/-
  A load in front of a loop that writes the element it reads.
  The element gives the place of another store, so that the
  load matters for whether that store is in bounds.
-/
def rereadHistory : List Mutation := [ .createRegion none,
    .createBlock ⟨0⟩ [.memref [1] .index, .memref [2] .index, .index],
    .createLoop 1,
    .append ⟨0⟩ ⟨0⟩,
    .createRegion (some ⟨0⟩),
    .createBlock ⟨1⟩ [.index],
    .createOp (.affineLoad (.ofConstant 0)) [⟨0⟩] [.index] [],
    .append ⟨1⟩ ⟨1⟩,
    .createLoop 2,
    .append ⟨1⟩ ⟨2⟩,
    .createRegion (some ⟨2⟩),
    .createBlock ⟨2⟩ [.index],
    .createOp (.affineStore (.ofConstant 0)) [⟨2⟩, ⟨0⟩] [] [],
    .append ⟨2⟩ ⟨3⟩,
    .createOp (.affineStore ⟨2, 0, [.add (.dim 0) (.dim 1)]⟩) [⟨2⟩, ⟨1⟩, ⟨4⟩, ⟨5⟩] [] [],
    .append ⟨2⟩ ⟨4⟩,
    .createOp .yield [] [] [],
    .append ⟨2⟩ ⟨5⟩,
    .createOp (.affineStore (.ofConstant 0)) [⟨2⟩, ⟨0⟩] [] [],
    .append ⟨1⟩ ⟨6⟩,
    .createOp .yield [] [] [],
    .append ⟨1⟩ ⟨7⟩,
    .createOp .ret [] [] [],
    .append ⟨0⟩ ⟨8⟩ ]

def reread : Function where
  name := "reread"
  graph := .ofHistory rereadHistory
  body := ⟨0⟩
  resultTypes := []

theorem reread_coherent : reread.graph.Coherent := by
  unfold reread
  dsimp only
  exact Graph.coherent_ofHistory rereadHistory rfl

def rereadMachine : Machine :=
  { buffers := #[⟨[1], #[.index 1], false⟩, ⟨[2], #[.index 0, .index 0], false⟩],
    env := ⟨#[some (.buffer 0), some (.buffer 1), some (.scalar (.index 0))]⟩ }

/-
  The rewritten nest loads again in each iteration, and gets to
  its end.  The nest from before has loaded an index that is
  out of bounds in the second iteration, and never comes to the
  statement behind the loop.
-/
theorem reread_count_of_carryOut :
    (reread.graph.Coherent ∧ reread.problems = .ok [] ∧
      reread.graph.isLoop ⟨0⟩ = true ∧ reread.graph.hasResults ⟨6⟩ = false ∧
      ∃ c, reread.graph.Lists reread.body c ⟨0⟩) ∧
    ∃ levels g' level, plan reread.graph "reread" ⟨0⟩ = .ok levels ∧
      (carryOut levels).run reread.graph = .ok ((), g') ∧
      level ∈ levels ∧ ⟨6⟩ ∈ level.front ++ level.back ∧ (∀ l ∈ level.inner, ∀ σ, g'.Busy l σ) ∧
      (Exec.outcome (Exec.nest g' ⟨0⟩) rereadMachine).1 = .ok .done ∧
      (Exec.outcome (Exec.nest g' ⟨0⟩) rereadMachine).2.count ⟨6⟩ = 1 ∧
      (Exec.outcome (Exec.nest reread.graph ⟨0⟩) rereadMachine).1 =
        .error (.trap (.outOfBounds 1 [2])) ∧
      (Exec.outcome (Exec.nest reread.graph ⟨0⟩) rereadMachine).2.count ⟨6⟩ = 0 := by
  have hOps : reread.graph.regionOps reread.body = .ok [⟨0⟩, ⟨8⟩] := by decide +kernel
  rcases exists_of_carried? reread ⟨0⟩ ⟨2⟩ [⟨1⟩] [⟨6⟩] 2
    (fun g' => (Exec.outcome (Exec.nest g' ⟨0⟩) rereadMachine).1 = .ok .done ∧
      (Exec.outcome (Exec.nest g' ⟨0⟩) rereadMachine).2.count ⟨6⟩ = 1)
    (by decide) (by decide +kernel) with ⟨g', level, hPlan, hCarried, hFront, hBack, hBusy, hRun⟩
  obtain ⟨hDone, hCount⟩ := of_decide_eq_true hRun
  exact ⟨⟨reread_coherent, by decide +kernel, by decide +kernel, by decide +kernel,
    (Graph.mem_regionOps_iff hOps).mp mem_cons_self⟩, _, g', level, hPlan,
    hCarried, mem_singleton_self _, by simp [hFront, hBack], hBusy, hDone, hCount,
    by decide +kernel, by decide +kernel⟩

end Perfection

end AffineIR
