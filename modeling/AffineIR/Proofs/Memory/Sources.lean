import AffineIR.Proofs.Flow.Regions
import AffineIR.Proofs.Graph.Upkeep
import AffineIR.Transform.Forwarding

/-
  Where a load takes its value from.

  Forwarding gives a load the value of a store or the result
  of another load.  Both are accesses to the same element that
  dominate the load, with no write to the element in between:
  they supply the load.

  Main declarations:
    * `Forward.TakesStored.supplies`, `Forward.TakesLoaded.supplies`
-/

namespace AffineIR

open Answer List

variable {answer : Bool} {acc all candidates rest users : List OpId} {loaded memref v : ValueId}
  {u : Unit} {c h op start store user : OpId}

------
-- Questions about the state
------

namespace Forward

variable {α : Type} {s s' : ForwardState}

/- What questions leave as it is. -/
structure Kept (s s' : ForwardState) : Prop where
  graph : s'.graph = s.graph
  direction : s'.dom.direction = s.dom.direction
  stats : s'.stats = s.stats
  pending : s'.pending = s.pending
  current : s.dom.Current s.graph → s'.dom.Current s.graph

theorem Kept.refl (s : ForwardState) : Kept s s := ⟨rfl, rfl, rfl, rfl, id⟩

theorem Kept.trans {s₁ s₂ s₃ : ForwardState} (hFirst : Kept s₁ s₂)
    (hSecond : Kept s₂ s₃) : Kept s₁ s₃ :=
  ⟨hSecond.graph.trans hFirst.graph, hSecond.direction.trans hFirst.direction,
    hSecond.stats.trans hFirst.stats, hSecond.pending.trans hFirst.pending, fun hCurrent =>
      hFirst.graph ▸ hSecond.current (hFirst.graph ▸ hFirst.current hCurrent)⟩

theorem run_ask {question : Graph → Except Fault α} {a : α}
    (hRun : (ask question).run s = .ok (a, s')) : question s.graph = .ok a ∧ s = s' := by
  obtain ⟨_, _, hGet, hRun⟩ := run_bind_eq_ok.mp hRun
  cases hGet
  obtain ⟨hAnswer, rfl⟩ := run_lift_eq_ok.mp hRun
  exact ⟨hAnswer, rfl⟩

theorem run_ask_bind {β : Type} {question : Graph → Except Fault α} {k : α → Forward β} {b : β}
    (hRun : (ask question >>= k).run s = .ok (b, s')) :
    ∃ a, question s.graph = .ok a ∧ (k a).run s = .ok (b, s') := by
  obtain ⟨a, _, hAsk, hRun⟩ := run_bind_eq_ok.mp hRun
  obtain ⟨hAnswer, rfl⟩ := run_ask hAsk
  exact ⟨a, hAnswer, hRun⟩

theorem run_askDom {q : Graph → DominanceQuery α} {a : α} (hSteady : (q s.graph).Steady s.graph)
    (hRun : (askDom q).run s = .ok (a, s')) :
    ∃ c, (q s.graph).run s.dom = .ok (a, c) ∧ Kept s s' := by
  obtain ⟨_, _, hGet, hRun⟩ := run_bind_eq_ok.mp hRun
  cases hGet
  obtain ⟨⟨a', c⟩, _, hLift, hRun⟩ := run_bind_eq_ok.mp hRun
  obtain ⟨hAnswer, rfl⟩ := run_lift_eq_ok.mp hLift
  obtain ⟨_, _, hSet, hRun⟩ := run_bind_eq_ok.mp hRun
  obtain ⟨rfl, rfl⟩ := run_pure_eq_ok.mp hRun
  cases hSet
  obtain ⟨hDirection, hHolds⟩ := hSteady.keeps hAnswer
  exact ⟨c, hAnswer, rfl, hDirection, rfl, rfl, fun hCurrent =>
    DominanceCache.current_iff.mpr (hHolds _ (DominanceCache.current_iff.mp hCurrent))⟩

/- A question leaves the state as it is, and its answer has a property. -/
def Yields (s : ForwardState) (q : Forward α) (P : α → Prop) : Prop :=
  ∀ a s', q.run s = .ok (a, s') → Kept s s' ∧ P a

section Rules

variable {β : Type} {a : α} {P : α → Prop} {q : Forward α} {k : β → Forward α}

theorem Yields.pure (hAnswer : P a) : Yields s (pure a) P := by
  intro a s' hRun
  obtain ⟨rfl, rfl⟩ := run_pure_eq_ok.mp hRun
  exact ⟨.refl s, hAnswer⟩

/- A check that may settle the question. -/
theorem Yields.guard {c : Prop} [Decidable c] (hSettled : P a)
    (hRest : ¬c → Yields s q P) : Yields s (if c then Pure.pure a else q) P := by
  by_cases hCheck : c
  · rw [if_pos hCheck]
    exact .pure hSettled
  · rw [if_neg hCheck]
    exact hRest hCheck

theorem Yields.ask {question : Graph → Except Fault β}
    (hRest : ∀ b, question s.graph = .ok b → Yields s (k b) P) :
    Yields s (ask question >>= k) P := by
  intro a s' hRun
  obtain ⟨b, hAnswer, hRun⟩ := run_ask_bind hRun
  exact hRest b hAnswer a s' hRun

theorem Yields.askDom {question : Graph → DominanceQuery β}
    (hSteady : (question s.graph).Steady s.graph)
    (hRest : ∀ b c s₁, (question s.graph).run s.dom = .ok (b, c) → Kept s s₁ →
      Yields s₁ (k b) P) : Yields s (askDom question >>= k) P := by
  intro a s' hRun
  obtain ⟨b, s₁, hAsk, hRun⟩ := run_bind_eq_ok.mp hRun
  obtain ⟨c, hAnswer, hKept⟩ := run_askDom hSteady hAsk
  obtain ⟨hKept', hHolds⟩ := hRest b c s₁ hAnswer hKept a s' hRun
  exact ⟨hKept.trans hKept', hHolds⟩

theorem Yields.isPending {k : Bool → Forward α} {x : OpId}
    (hRest : ∀ pending, Yields s (k pending) P) : Yields s (isPending x >>= k) P := by
  intro a s' hRun
  obtain ⟨_, _, hAsk, hRun⟩ := run_bind_eq_ok.mp hRun
  cases hAsk
  exact hRest _ a s' hRun

end Rules

end Forward

------
-- Supplying operations
------

/-
  An access to the element of a load that dominates it, with
  no write to the element in between.
-/
structure Graph.Supplies (g : Graph) (source load : OpId) : Prop where
  same : ∃ access target, g.access? source = .ok (some access) ∧
    g.access? load = .ok (some target) ∧ access.sameElement target = true
  dominates : ∃ c c' : DominanceCache, c.direction = .forward ∧
    (g.dominates source load).run c = .ok (true, c')
  quiet : g.hasEffectBetween .write source load = .ok false

namespace Forward

variable {s s' : ForwardState} {target : Access} {load : OpId}

theorem Yields.accessesElement {k : Bool → Forward α} {P : α → Prop}
    (hRest : ∀ same, (same = true → ∃ access, s.graph.access? h = .ok (some access) ∧
      access.sameElement target = true) → Yields s (k same) P) :
    Yields s (accessesElement target h >>= k) P := by
  unfold Forward.accessesElement
  rw [bind_assoc]
  refine .ask fun access hAccess => ?_
  cases access with
  | none =>
    rw [pure_bind]
    exact hRest false nofun
  | some access =>
    rw [pure_bind]
    exact hRest _ fun hSame => ⟨access, hAccess, hSame⟩

/- A store that reaches a load from a point. -/
structure Reaches (s : ForwardState) (target : Access) (load store start : OpId) : Prop where
  point : startPoint s.graph store load = .ok start
  isStore : ∃ kind, s.graph.kind store = .ok kind ∧ kind.isAffineStore = true
  supplies (hAccess : s.graph.access? load = .ok (some target))
    (hDirection : s.dom.direction = .forward) (hOwn : start = store) : s.graph.Supplies store load

theorem Reaches.kept (hReaches : Reaches s' target load store start)
    (hKept : Kept s s') : Reaches s target load store start := by
  obtain ⟨hPoint, hStore, hSupplies⟩ := hReaches
  rw [hKept.graph] at hPoint hStore hSupplies
  exact ⟨hPoint, hStore, fun hAccess hDirection =>
    hSupplies hAccess (hKept.direction.trans hDirection)⟩

theorem yields_reachingPoint :
    Yields s (reachingPoint? target load store) fun answer =>
      ∀ start, answer = some start → Reaches s target load store start := by
  unfold reachingPoint?
  refine .ask fun kind hKind => .guard nofun fun hStore =>
    .accessesElement fun same hElement => .guard nofun fun hSame => .ask fun point hPoint =>
    .askDom (.dominates _ _ _) fun above c s₁ hAbove hKept => .guard nofun fun hTrue =>
    .ask fun found hQuiet => .guard nofun fun hNone => .pure fun start hStart => ?_
  cases hStart
  rw [Bool.not_eq_true, Bool.not_eq_false'] at hStore hSame hTrue
  rw [Bool.not_eq_true] at hNone
  subst hTrue hNone
  obtain ⟨access, hSource, hEqual⟩ := hElement hSame
  rw [hKept.graph] at hQuiet
  refine ⟨hPoint, ⟨kind, hKind, hStore⟩, fun hAccess hDirection hOwn => ?_⟩
  subst hOwn
  exact ⟨⟨access, target, hSource, hAccess, hEqual⟩, ⟨s.dom, c, hDirection, hAbove⟩, hQuiet⟩

/- The stores that are found reach the load from their points. -/
theorem run_reachingStores {stores : List (OpId × OpId)}
    (hRun : (reachingStores target load users).run s = .ok (stores, s')) :
    Kept s s' ∧ ∀ e ∈ stores, Reaches s target load e.1 e.2 := by
  induction users generalizing s s' stores with
  | nil =>
    obtain ⟨rfl, rfl⟩ := run_pure_eq_ok.mp hRun
    exact ⟨.refl s, nofun⟩
  | cons user users ih =>
    obtain ⟨start, s₁, hFirst, hRun⟩ := run_bind_eq_ok.mp hRun
    obtain ⟨hKept, hPoint⟩ := yields_reachingPoint _ _ hFirst
    obtain ⟨others, s₂, hRest, hRun⟩ := run_bind_eq_ok.mp hRun
    obtain ⟨hKept', hOthers⟩ := ih hRest
    have hOthers := fun e hMem => (hOthers e hMem).kept hKept
    cases start with
    | none =>
      obtain ⟨rfl, rfl⟩ := run_pure_eq_ok.mp hRun
      exact ⟨hKept.trans hKept', hOthers⟩
    | some point =>
      obtain ⟨rfl, rfl⟩ := run_pure_eq_ok.mp hRun
      exact ⟨hKept.trans hKept', forall_mem_cons.mpr ⟨hPoint point rfl, hOthers⟩⟩

/- What holds of a load whose result another one can take. -/
structure Reusable (s : ForwardState) (target : Access) (load user : OpId) : Prop where
  other : user ≠ load
  supplies (hAccess : s.graph.access? load = .ok (some target))
    (hDirection : s.dom.direction = .forward) : s.graph.Supplies user load
  isLoad : ∃ kind, s.graph.kind user = .ok kind ∧ kind.isAffineLoad = true
  /- Dominance was asked for after other questions. -/
  asked : ∃ s₁ c, Kept s s₁ ∧ (s.graph.dominates user load).run s₁.dom = .ok (true, c)

theorem Reusable.kept (hReusable : Reusable s' target load user)
    (hKept : Kept s s') : Reusable s target load user := by
  obtain ⟨hOther, hSupplies, hLoad, s₁, c, hKept', hRun⟩ := hReusable
  rw [hKept.graph] at hSupplies hLoad hRun
  exact ⟨hOther, fun hAccess hDirection => hSupplies hAccess (hKept.direction.trans hDirection),
    hLoad, s₁, c, hKept.trans hKept', hRun⟩

/- A load that another one can take its result from supplies it. -/
theorem yields_canReuse :
    Yields s (canReuse target loaded load user) fun answer =>
      answer = true → Reusable s target load user := by
  unfold canReuse
  refine .guard nofun fun hOther => .ask fun kind hKind => .guard nofun fun hLoad =>
    .isPending fun pending => .guard nofun fun _ =>
    .accessesElement fun same hElement => .guard nofun fun hSame =>
    .ask fun userTy _ => .ask fun loadedTy _ => .guard nofun fun _ =>
    .askDom (.dominates _ _ _) fun above c s₁ hAbove hKept => .guard nofun fun hTrue =>
    .ask fun found hQuiet => .pure fun hNone => ?_
  rw [Bool.not_eq_true, Bool.not_eq_false'] at hLoad hSame hTrue
  rw [Bool.not_eq_true'] at hNone
  subst hTrue hNone
  obtain ⟨access, hSource, hEqual⟩ := hElement hSame
  rw [hKept.graph] at hQuiet
  refine ⟨hOther, fun hAccess hDirection => ?_, ⟨kind, hKind, hLoad⟩, s, c, .refl s, hAbove⟩
  exact ⟨⟨access, target, hSource, hAccess, hEqual⟩, ⟨s.dom, c, hDirection, hAbove⟩, hQuiet⟩

/- Loads that are picked out as reusable supply the load. -/
theorem run_filterAux
    (hRun : (users.filterAuxM (canReuse target loaded load) acc).run s = .ok (candidates, s')) :
    Kept s s' ∧ ∀ user ∈ candidates, user ∈ acc ∨ Reusable s target load user := by
  induction users generalizing s s' acc with
  | nil =>
    obtain ⟨rfl, rfl⟩ := run_pure_eq_ok.mp hRun
    exact ⟨.refl s, fun user hMem => .inl hMem⟩
  | cons first users ih =>
    obtain ⟨answer, s₁, hFirst, hRun⟩ := run_bind_eq_ok.mp hRun
    obtain ⟨hKept, hReuse⟩ := yields_canReuse _ _ hFirst
    obtain ⟨hKept', hOthers⟩ := ih hRun
    refine ⟨hKept.trans hKept', fun user hMem => ?_⟩
    rcases hOthers user hMem with hIn | hReusable
    · cases answer with
      | false => exact .inl hIn
      | true =>
        rcases mem_cons.mp hIn with rfl | hIn
        · exact .inr (hReuse rfl)
        · exact .inl hIn
    · exact .inr (hReusable.kept hKept)

theorem run_filter
    (hRun : (users.filterM (canReuse target loaded load)).run s = .ok (candidates, s')) :
    Kept s s' ∧ ∀ user ∈ candidates, Reusable s target load user := by
  obtain ⟨found, s₁, hFilter, hRun⟩ := run_bind_eq_ok.mp hRun
  obtain ⟨rfl, rfl⟩ := run_pure_eq_ok.mp hRun
  obtain ⟨hKept, hFound⟩ := run_filterAux hFilter
  refine ⟨hKept, fun user hMem => ?_⟩
  exact (hFound user (mem_reverse.mp hMem)).resolve_left nofun

theorem run_allDominated
    (hRun : (all.allM fun d => askDom fun g => g.dominates c d).run s =
      .ok (answer, s')) : Kept s s' := by
  induction all generalizing s with
  | nil =>
    obtain ⟨_, rfl⟩ := run_pure_eq_ok.mp hRun
    exact .refl s
  | cons d all ih =>
    obtain ⟨above, s₁, hAsk, hRun⟩ := run_bind_eq_ok.mp hRun
    obtain ⟨_, _, hKept⟩ := run_askDom (.dominates _ _ _) hAsk
    cases above with
    | true => exact hKept.trans (ih hRun)
    | false =>
      obtain ⟨_, rfl⟩ := run_pure_eq_ok.mp hRun
      exact hKept

/- The operation that dominates all is one of them. -/
theorem run_firstDominator {chosen : Option OpId}
    (hRun : (firstDominator all rest).run s = .ok (chosen, s')) :
    Kept s s' ∧ ∀ c, chosen = some c → c ∈ rest := by
  induction rest generalizing s with
  | nil =>
    obtain ⟨rfl, rfl⟩ := run_pure_eq_ok.mp hRun
    exact ⟨.refl s, nofun⟩
  | cons first rest ih =>
    obtain ⟨above, s₁, hAll, hRun⟩ := run_bind_eq_ok.mp hRun
    have hKept := run_allDominated hAll
    split at hRun
    next =>
      obtain ⟨rfl, rfl⟩ := run_pure_eq_ok.mp hRun
      refine ⟨hKept, fun c hSame => ?_⟩
      cases hSame
      exact mem_cons_self
    next =>
      obtain ⟨hKept', hChosen⟩ := ih hRun
      exact ⟨hKept.trans hKept', fun c hSame => mem_cons_of_mem _ (hChosen c hSame)⟩

------
-- Taken values
------

/- The value of the one store that reaches a load, from its own point. -/
def TakesStored (s : ForwardState) (load : OpId) (v : ValueId) : Prop := ∃ target users store s' o,
    s.graph.access? load = .ok (some target) ∧ s.graph.users target.memref = .ok users ∧
    (reachingStores target load users).run s = .ok ([(store, store)], s') ∧
    s.graph.op store = .ok o ∧ o.stored? = some v

/- The result of the load that is chosen to stand for a load. -/
def TakesLoaded (s : ForwardState) (load : OpId) (v : ValueId) : Prop :=
  ∃ target loaded users candidates chosen s₁ s₂, s.graph.access? load = .ok (some target) ∧
    s.graph.result load = .ok loaded ∧ s.graph.users target.memref = .ok users ∧
    (users.filterM (canReuse target loaded load)).run s = .ok (candidates, s₁) ∧
    (firstDominator candidates candidates).run s₁ = .ok (some chosen, s₂) ∧
    s.graph.result chosen = .ok v

theorem run_edit {α : Type} {e : Edit α} {a : α} (hRun : (edit e).run s = .ok (a, s')) :
    e.run s.graph = .ok (a, s'.graph) ∧ s' = { s with graph := s'.graph } := by
  obtain ⟨_, _, hGet, hRun⟩ := run_bind_eq_ok.mp hRun
  cases hGet
  obtain ⟨⟨a', g⟩, _, hLift, hRun⟩ := run_bind_eq_ok.mp hRun
  obtain ⟨hEdit, rfl⟩ := run_lift_eq_ok.mp hLift
  obtain ⟨_, _, hSet, hRun⟩ := run_bind_eq_ok.mp hRun
  obtain ⟨rfl, rfl⟩ := run_pure_eq_ok.mp hRun
  cases hSet
  exact ⟨hEdit, rfl⟩

/- Notes about the work leave the graph alone. -/
theorem graph_of_modify {change : ForwardState → ForwardState}
    (hSame : ∀ s, (change s).graph = s.graph)
    (hRun : (modify change : Forward Unit).run s = .ok (u, s')) : s'.graph = s.graph := by
  cases hRun
  exact hSame s

theorem graph_of_recheck (hRun : (recheck memref).run s = .ok (u, s')) : s'.graph = s.graph := by
  refine graph_of_modify (fun s => ?_) hRun
  split
  next => rfl
  next => rfl

theorem graph_of_scheduleErase
    (hRun : (scheduleErase op).run s = .ok (u, s')) : s'.graph = s.graph := by
  refine graph_of_modify (fun s => ?_) hRun
  split
  next => rfl
  next => rfl

/- A load is left alone, or the one store that reaches it is used. -/
theorem cases_of_forwardStore {out : Outcome}
    (hRun : (forwardStore load).run s = .ok (out, s')) :
    out = .unchanged ∧ Kept s s' ∨
    ∃ target users store start s₁ o v loaded, s.graph.access? load = .ok (some target) ∧
      s.graph.users target.memref = .ok users ∧
      (reachingStores target load users).run s = .ok ([(store, start)], s₁) ∧
      s.graph.op store = .ok o ∧ o.stored? = some v ∧ s.graph.result load = .ok loaded ∧
      (useStored target.memref v loaded store start load).run s₁ = .ok (out, s') := by
  obtain ⟨access, hAccess, hRun⟩ := run_ask_bind hRun
  cases access with
  | none =>
    obtain ⟨rfl, rfl⟩ := run_pure_eq_ok.mp hRun
    exact .inl ⟨rfl, .refl s⟩
  | some target =>
    obtain ⟨users, hUsers, hRun⟩ := run_ask_bind hRun
    obtain ⟨stores, s₁, hStores, hRun⟩ := run_bind_eq_ok.mp hRun
    have hKept := (run_reachingStores hStores).1
    split at hRun
    next =>
      obtain ⟨rfl, rfl⟩ := run_pure_eq_ok.mp hRun
      exact .inl ⟨rfl, hKept⟩
    next store start =>
      obtain ⟨o, hOp, hRun⟩ := run_ask_bind hRun
      split at hRun
      next =>
        obtain ⟨rfl, rfl⟩ := run_pure_eq_ok.mp hRun
        exact .inl ⟨rfl, hKept⟩
      next v hStored =>
        obtain ⟨loaded, hLoaded, hRun⟩ := run_ask_bind hRun
        obtain ⟨storedTy, _, hRun⟩ := run_ask_bind hRun
        obtain ⟨loadedTy, _, hRun⟩ := run_ask_bind hRun
        split at hRun
        next =>
          obtain ⟨rfl, rfl⟩ := run_pure_eq_ok.mp hRun
          exact .inl ⟨rfl, hKept⟩
        next =>
          rw [hKept.graph] at hOp hLoaded
          exact .inr ⟨target, users, store, start, s₁, o, v, loaded, hAccess, hUsers, hStores,
            hOp, hStored, hLoaded, hRun⟩
    next => cases hRun

/- A store is used as it is, or its guard is taken away. -/
theorem cases_of_useStored {start : OpId} {out : Outcome}
    (hRun : (useStored memref v loaded store start load).run s = .ok (out, s')) :
    start = store ∧ out = .replaced ∧
      (Edit.replaceUses loaded v).run s.graph = .ok ((), s'.graph) ∨
    start ≠ store ∧ ∃ old, out = .retry old ∧
      (unguard store start load).run s.graph = .ok (old, s'.graph) := by
  unfold useStored at hRun
  split at hRun
  next hDirect =>
    obtain ⟨_, s₂, hEdit, hRun⟩ := run_bind_eq_ok.mp hRun
    obtain ⟨_, s₃, hRecheck, hRun⟩ := run_bind_eq_ok.mp hRun
    obtain ⟨_, s₄, hErase, hRun⟩ := run_bind_eq_ok.mp hRun
    obtain ⟨_, s₅, hCount, hRun⟩ := run_bind_eq_ok.mp hRun
    obtain ⟨_, s₆, hDebug, hRun⟩ := run_bind_eq_ok.mp hRun
    obtain ⟨rfl, rfl⟩ := run_pure_eq_ok.mp hRun
    refine .inl ⟨hDirect, rfl, ?_⟩
    rw [graph_of_modify (fun _ => rfl) hDebug, graph_of_modify (fun _ => rfl) hCount,
      graph_of_scheduleErase hErase, graph_of_recheck hRecheck]
    exact (run_edit hEdit).1
  next hOther =>
    obtain ⟨old, s₂, hEdit, hRun⟩ := run_bind_eq_ok.mp hRun
    obtain ⟨_, s₃, hErase, hRun⟩ := run_bind_eq_ok.mp hRun
    obtain ⟨_, s₄, hInvalid, hRun⟩ := run_bind_eq_ok.mp hRun
    obtain ⟨_, s₅, hCount, hRun⟩ := run_bind_eq_ok.mp hRun
    obtain ⟨_, s₆, hDebug, hRun⟩ := run_bind_eq_ok.mp hRun
    obtain ⟨rfl, rfl⟩ := run_pure_eq_ok.mp hRun
    refine .inr ⟨hOther, old, rfl, ?_⟩
    rw [graph_of_modify (fun _ => rfl) hDebug, graph_of_modify (fun _ => rfl) hCount,
      graph_of_modify (fun _ => rfl) hInvalid, graph_of_scheduleErase hErase]
    exact (run_edit hEdit).1

/- A load that forwarding replaces has taken the value of a store. -/
theorem taken_of_forwardStore (hRun : (forwardStore load).run s = .ok (.replaced, s')) :
    ∃ v loaded, TakesStored s load v ∧ s.graph.result load = .ok loaded ∧
      (Edit.replaceUses loaded v).run s.graph = .ok ((), s'.graph) := by
  rcases cases_of_forwardStore hRun with ⟨hOut, _⟩ | ⟨target, users, store, start, s₁, o, v,
    loaded, hAccess, hUsers, hStores, hOp, hStored, hLoaded, hUse⟩
  · cases hOut
  · rcases cases_of_useStored hUse with ⟨rfl, _, hReplace⟩ | ⟨_, _, hOut, _⟩
    · rw [(run_reachingStores hStores).1.graph] at hReplace
      exact ⟨v, loaded, ⟨target, users, start, s₁, o, hAccess, hUsers, hStores, hOp, hStored⟩,
        hLoaded, hReplace⟩
    · cases hOut

/- A load is left alone, or takes the result of another one. -/
theorem cases_of_mergeLoad (hRun : (mergeLoad load).run s = .ok (u, s')) :
    Kept s s' ∨ ∃ v loaded, TakesLoaded s load v ∧ s.graph.result load = .ok loaded ∧
      (Edit.replaceUses loaded v).run s.graph = .ok ((), s'.graph) := by
  obtain ⟨access, hAccess, hRun⟩ := run_ask_bind hRun
  cases access with
  | none =>
    obtain ⟨_, rfl⟩ := run_pure_eq_ok.mp hRun
    exact .inl (.refl s)
  | some target =>
    obtain ⟨loaded, hLoaded, hRun⟩ := run_ask_bind hRun
    obtain ⟨users, hUsers, hRun⟩ := run_ask_bind hRun
    obtain ⟨candidates, s₁, hFilter, hRun⟩ := run_bind_eq_ok.mp hRun
    have hKept₁ := (run_filter hFilter).1
    obtain ⟨chosen, s₂, hFirst, hRun⟩ := run_bind_eq_ok.mp hRun
    have hKept := hKept₁.trans (run_firstDominator hFirst).1
    cases chosen with
    | none =>
      obtain ⟨_, rfl⟩ := run_pure_eq_ok.mp hRun
      exact .inl hKept
    | some chosen =>
      obtain ⟨v, hResult, hRun⟩ := run_ask_bind hRun
      obtain ⟨_, s₃, hEdit, hRun⟩ := run_bind_eq_ok.mp hRun
      have hReplace := (run_edit hEdit).1
      rw [hKept.graph] at hResult hReplace
      refine .inr ⟨v, loaded, ⟨target, loaded, users, candidates, chosen, s₁, s₂, hAccess,
        hLoaded, hUsers, hFilter, hFirst, hResult⟩, hLoaded, ?_⟩
      obtain ⟨_, s₄, hErase, hRun⟩ := run_bind_eq_ok.mp hRun
      obtain ⟨_, s₅, hCount, hDebug⟩ := run_bind_eq_ok.mp hRun
      rw [graph_of_modify (fun _ => rfl) hDebug,
        graph_of_modify (fun _ => rfl) hCount, graph_of_scheduleErase hErase]
      exact hReplace

theorem op_of_kind {g : Graph} {kind : Kind}
    (hKind : g.kind h = .ok kind) : ∃ o, g.op h = .ok o ∧ o.kind = kind := by
  obtain ⟨o, hOp, hKind⟩ := bind_eq_ok.mp hKind
  exact ⟨o, hOp, pure_eq_ok.mp hKind⟩

/- A store whose value is taken supplies the load. -/
theorem TakesStored.supplies (hTakes : TakesStored s load v)
    (hDirection : s.dom.direction = .forward) :
    ∃ store o, s.graph.Supplies store load ∧ s.graph.op store = .ok o ∧
      o.kind.isAffineStore = true ∧ o.operands[0]? = some v := by
  obtain ⟨target, users, store, s', o, hAccess, _, hRun, hOp, hStored⟩ := hTakes
  have hReaches := (run_reachingStores hRun).2 _ (mem_singleton_self _)
  have hSupplies := hReaches.supplies hAccess hDirection rfl
  obtain ⟨kind, hKind, hStore⟩ := hReaches.isStore
  obtain ⟨o', hOp', rfl⟩ := op_of_kind hKind
  cases hOp.symm.trans hOp'
  refine ⟨store, o, hSupplies, hOp, hStore, ?_⟩
  unfold Operation.stored? at hStored
  split at hStored
  next => exact hStored
  next => exact hStored
  next => cases hStored

/- A load whose result is taken supplies the load. -/
theorem TakesLoaded.supplies (hTakes : TakesLoaded s load v)
    (hDirection : s.dom.direction = .forward) :
    ∃ chosen o, chosen ≠ load ∧ s.graph.Supplies chosen load ∧
      s.graph.op chosen = .ok o ∧ o.kind.isAffineLoad = true ∧ o.results[0]? = some v := by
  rcases hTakes with ⟨target, loaded, users, candidates, chosen, s₁, s₂, hAccess, _,
    _, hFilter, hFirst, hResult⟩
  have hMem := (run_firstDominator hFirst).2 chosen rfl
  obtain ⟨hOther, hSupplies, ⟨kind, hKind, hLoad⟩, _⟩ := (run_filter hFilter).2 chosen hMem
  obtain ⟨o, hOp, rfl⟩ := op_of_kind hKind
  refine ⟨chosen, o, hOther, hSupplies hAccess hDirection, hOp, hLoad, ?_⟩
  obtain ⟨o', hOp', hEntry⟩ := bind_eq_ok.mp hResult
  cases hOp.symm.trans hOp'
  exact entryAt_eq_ok.mp hEntry

end Forward

end AffineIR
