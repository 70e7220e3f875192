import AffineIR.Proofs.Memory.Sources

/-
  Kept trees are never stale.

  Forwarding keeps the dominator trees of regions while it
  rewrites the graph.  A load that takes another value only
  changes operands, which no tree depends on, and the trees are
  forgotten whenever operations are moved or erased.  So every
  question about dominance is answered as it would be without
  any kept trees.

  Main result: `Forward.all_never_stale`
-/

namespace AffineIR

open Answer List

variable {α β γ : Type}

------
-- What trees depend on
------

/- A part of what a handle names is what the view of the arena shows. -/
theorem Arena.get_map {tag : String} (a : Arena tag α) (part : α → β) (h : Handle tag) :
    (do return part (← a.get h) : Except Fault β) =
      match a.view part h with
      | some p => .ok p
      | none => .error (.danglingHandle tag h.index) := by
  unfold Arena.get Arena.view
  cases a.get? h <;> rfl

namespace Graph

variable {g g' : Graph} {d : Direction} {r : RegionId}

/- Control leaves blocks alike in two graphs. -/
structure SameFlow (g g' : Graph) : Prop where
  regions : g'.regions = g.regions
  blocks : g'.blocks = g.blocks
  kinds : g'.ops.view Operation.kind = g.ops.view Operation.kind
  successors : g'.ops.view Operation.successors = g.ops.view Operation.successors

instance : IsPreorder Graph SameFlow where
  refl _ := ⟨rfl, rfl, rfl, rfl⟩
  trans _ _ _ hFirst hSecond := ⟨hSecond.regions.trans hFirst.regions,
    hSecond.blocks.trans hFirst.blocks, hSecond.kinds.trans hFirst.kinds,
    hSecond.successors.trans hFirst.successors⟩

theorem SameFlow.blockSuccessors (hSame : g.SameFlow g') (b : BlockId) :
    g'.blockSuccessors b = g.blockSuccessors b := by
  unfold Graph.blockSuccessors terminator? kind op block
  simp only [Arena.get_map, hSame.blocks, hSame.kinds, hSame.successors]

theorem SameFlow.ofRegion (hSame : g.SameFlow g') :
    RegionTree.ofRegion d g' r = RegionTree.ofRegion d g r := by
  unfold RegionTree.ofRegion FlowGraph.ofRegion region FlowGraph.addBlockEdges
  simp only [hSame.blockSuccessors, hSame.regions]

theorem SameFlow.holds {c : DominanceCache} (hSame : g.SameFlow g') (hHolds : c.Holds d g) :
    c.Holds d g' :=
  ⟨hHolds.direction, fun hKept => hSame.ofRegion.trans (hHolds.trees hKept)⟩

/- A value that takes the place of another one only changes operands. -/
theorem sameFlow_replaceUses (v w : ValueId) : Edit.Takes SameFlow (Edit.replaceUses v w) := by
  refine .replaceUses (fun v k _ g g' hRun => ?_) (fun x k _ g g' hRun => ?_) v w
  · obtain ⟨_, _, rfl⟩ := Edit.eq_of_modifyValue hRun
    exact ⟨rfl, rfl, rfl, rfl⟩
  · obtain ⟨_, hOp, rfl⟩ := Edit.eq_of_modifyOp hRun
    exact ⟨rfl, rfl, Arena.view_set_eq hOp rfl, Arena.view_set_eq hOp rfl⟩

end Graph

namespace Forward

------
-- Trusted states
------

/- How the kept trees of both directions go with the graph. -/
def Trees (R : DominanceCache → Direction → Graph → Prop) (s : ForwardState) : Prop :=
  R s.dom .forward s.graph ∧ R s.postDom .backward s.graph

/- The kept trees are those of the graph. -/
abbrev Trusted : ForwardState → Prop := Trees DominanceCache.Holds

/- The kept trees are of the directions that they are asked for. -/
abbrev Turned : ForwardState → Prop := Trees fun c d _ => c.direction = d

/-
  Two computations do the same in states with one property and
  leave states with another one.
-/
def Agree (P Q : ForwardState → Prop) (x y : Forward α) : Prop :=
  ∀ s, P s → x.run s = y.run s ∧ ∀ a s', y.run s = .ok (a, s') → Q s'

/- What one computation makes of a property. -/
abbrev Keeps (P Q : ForwardState → Prop) (x : Forward α) : Prop := Agree P Q x x

namespace Agree

variable {P Q R : ForwardState → Prop} {x y : Forward α}

theorem of_keeps (hKeeps : ∀ s a s', P s → x.run s = .ok (a, s') → Q s') : Keeps P Q x :=
  fun s hBefore => ⟨rfl, fun a s' => hKeeps s a s' hBefore⟩

theorem pure (a : α) : Keeps P P (pure a) :=
  of_keeps fun _ _ _ hBefore hRun => (run_pure_eq_ok.mp hRun).2 ▸ hBefore

theorem throw (e : Fault) : Keeps P Q (throw e : Forward α) :=
  of_keeps fun _ _ _ _ hRun => by cases hRun

theorem ask (question : Graph → Except Fault α) : Keeps P P (ask question) :=
  of_keeps fun _ _ _ hBefore hRun => (run_ask hRun).2 ▸ hBefore

theorem get : Keeps P P (MonadState.get : Forward ForwardState) :=
  of_keeps fun _ _ _ hBefore hRun => by
    cases hRun
    exact hBefore

theorem modify {change : ForwardState → ForwardState} (hKeeps : ∀ s, P s → Q (change s)) :
    Keeps P Q (modify change : Forward Unit) :=
  of_keeps fun s _ _ hBefore hRun => by
    cases hRun
    exact hKeeps s hBefore

theorem bind {k l : α → Forward β} (hFirst : Agree P Q x y) (hRest : ∀ a, Agree Q R (k a) (l a)) :
    Agree P R (x >>= k) (y >>= l) := by
  intro s hBefore
  obtain ⟨hSame, hAfter⟩ := hFirst s hBefore
  refine ⟨?_, fun b s' hRun => ?_⟩
  · rw [StateT.run_bind, StateT.run_bind, hSame]
    cases hRun : y.run s with
    | error e => rfl
    | ok pair => exact (hRest pair.1 pair.2 (hAfter _ _ hRun)).1
  · obtain ⟨a, s₁, hRun, hRun'⟩ := run_bind_eq_ok.mp hRun
    exact (hRest a s₁ (hAfter _ _ hRun)).2 b s' hRun'

theorem ite {c : Prop} [Decidable c] {x' y' : Forward α} (hThen : Agree P Q x y)
    (hElse : Agree P Q x' y') : Agree P Q (if c then x else x') (if c then y else y') := by
  split
  · exact hThen
  · exact hElse

theorem forM {k l : α → Forward Unit} (hEach : ∀ a, Agree P P (k a) (l a)) (xs : List α) :
    Agree P P (xs.forM k) (xs.forM l) := by
  induction xs with
  | nil => exact pure ()
  | cons a xs ih => exact (hEach a).bind fun _ => ih

theorem allM {k l : α → Forward Bool} (hEach : ∀ a, Agree P P (k a) (l a)) (xs : List α) :
    Agree P P (xs.allM k) (xs.allM l) := by
  induction xs with
  | nil => exact pure true
  | cons a xs ih =>
    refine (hEach a).bind fun answer => ?_
    cases answer with
    | true => exact ih
    | false => exact pure false

theorem filterM {k l : α → Forward Bool} (hEach : ∀ a, Agree P P (k a) (l a)) (xs : List α) :
    Agree P P (xs.filterM k) (xs.filterM l) := by
  have hFrom (acc : List α) : Agree P P (xs.filterAuxM k acc) (xs.filterAuxM l acc) := by
    induction xs generalizing acc with
    | nil => exact pure acc
    | cons a xs ih => exact (hEach a).bind fun answer => ih _
  exact (hFrom []).bind fun found => pure _

end Agree

------
-- Steps of the transformation
------

section Steps

variable {P : ForwardState → Prop} {R : DominanceCache → Direction → Graph → Prop}

theorem keeps_accessesElement (target : Access) (x : OpId) :
    Keeps P P (accessesElement target x) := by
  refine (Agree.ask _).bind fun access => ?_
  cases access <;> exact .pure _

theorem keeps_isPending (x : OpId) : Keeps P P (isPending x) :=
  Agree.get.bind fun _ => .pure _

/- Notes about the work leave the trees with their graph. -/
theorem keeps_scheduleErase (x : OpId) : Keeps (Trees R) (Trees R) (scheduleErase x) := by
  refine .modify fun s hTrees => ?_
  split <;> exact hTrees

theorem keeps_recheck (v : ValueId) : Keeps (Trees R) (Trees R) (recheck v) := by
  refine .modify fun s hTrees => ?_
  split <;> exact hTrees

theorem keeps_report (t : ForwardStats) (text : String) :
    Keeps (Trees R) (Trees R) (do count t; debug text) :=
  Agree.bind (.modify fun _ => id) fun _ => .modify fun _ => id

theorem keeps_invalidate : Keeps Turned Trusted invalidate :=
  .modify fun s hTurned => ⟨hTurned.1 ▸ DominanceCache.holds_fresh .forward s.graph,
    hTurned.2 ▸ DominanceCache.holds_fresh .backward s.graph⟩

/- An edit may leave trees behind that are not those of the graph. -/
theorem keeps_edit (e : Edit α) : Keeps Turned Turned (edit e) :=
  .of_keeps fun _ _ _ hTurned hRun => by
    rw [(run_edit hRun).2]
    exact hTurned

theorem keeps_replaceUses (v w : ValueId) :
    Keeps Trusted Trusted (edit (Edit.replaceUses v w)) :=
  .of_keeps fun _ _ _ hTrusted hRun => by
    obtain ⟨hEdit, hState⟩ := run_edit hRun
    have hSame := Graph.sameFlow_replaceUses v w hEdit
    rw [hState]
    exact ⟨hSame.holds hTrusted.1, hSame.holds hTrusted.2⟩

theorem Agree.of_turned {Q : ForwardState → Prop} {x : Forward α} (hKeeps : Keeps Turned Q x) :
    Keeps Trusted Q x :=
  fun s hTrusted => hKeeps s ⟨hTrusted.1.direction, hTrusted.2.direction⟩

/- Trees are forgotten after operations were moved or erased. -/
theorem keeps_useStored (memref stored loaded : ValueId) (store start load : OpId) :
    Keeps Trusted Trusted (useStored memref stored loaded store start load) := by
  unfold useStored
  refine .ite ?_ ?_
  · exact (keeps_replaceUses _ _).bind fun _ => (keeps_recheck _).bind fun _ =>
      (keeps_scheduleErase _).bind fun _ => Agree.bind (.modify fun _ => id) fun _ =>
        Agree.bind (.modify fun _ => id) fun _ => .pure _
  · exact (Agree.of_turned (keeps_edit _)).bind fun old => (keeps_scheduleErase _).bind fun _ =>
      keeps_invalidate.bind fun _ => Agree.bind (.modify fun _ => id) fun _ =>
        Agree.bind (.modify fun _ => id) fun _ => .pure _

theorem keeps_flush : Keeps Trusted Trusted flush :=
  .of_turned <| Agree.get.bind fun _ => Agree.bind (.modify fun _ => id) fun _ =>
    (Agree.forM (fun _ => Agree.get.bind fun _ => .ite (keeps_edit _) (.pure ())) _).bind fun _ =>
      keeps_invalidate

end Steps

------
-- The transformation
------

/- Whom the questions are asked makes no difference to a computation. -/
abbrev Loyal (o : Oracle) (x : [Oracle] → Forward α) : Prop :=
  Agree Trusted Trusted (@x o) (@x keptTrees)

section Loyalty

variable {o : Oracle} (hAsk : ∀ d a b, Loyal o (Oracle.dominates d a b))

include hAsk

theorem loyal_reachingPoint (target : Access) (load store : OpId) :
    Loyal o (reachingPoint? target load store) :=
  (Agree.ask _).bind fun _ => .ite (.pure _) <| (keeps_accessesElement _ _).bind fun _ =>
    .ite (.pure _) <| (Agree.ask _).bind fun _ => (hAsk .forward _ _).bind fun _ =>
      .ite (.pure _) <| (Agree.ask _).bind fun _ => .ite (.pure _) (.pure _)

theorem loyal_reachingStores (target : Access) (load : OpId) (users : List OpId) :
    Loyal o (reachingStores target load users) := by
  induction users with
  | nil => exact .pure []
  | cons user users ih =>
    exact (loyal_reachingPoint hAsk target load user).bind fun _ => ih.bind fun _ => .pure _

theorem loyal_forwardStore (load : OpId) : Loyal o (forwardStore load) := by
  refine (Agree.ask _).bind fun access => ?_
  cases access with
  | none => exact .pure _
  | some target =>
    refine (Agree.ask _).bind fun users => (loyal_reachingStores hAsk target load users).bind
      fun stores => ?_
    rcases stores with _ | ⟨store, _ | _⟩
    · exact .pure _
    · refine (Agree.ask _).bind fun o => ?_
      cases o.stored? with
      | none => exact .pure _
      | some stored =>
        exact (Agree.ask _).bind fun _ => (Agree.ask _).bind fun _ => (Agree.ask _).bind fun _ =>
          .ite (.pure _) (keeps_useStored _ _ _ _ _ _)
    · exact .throw _

theorem loyal_canReuse (target : Access) (loaded : ValueId) (load user : OpId) :
    Loyal o (canReuse target loaded load user) :=
  .ite (.pure _) <| (Agree.ask _).bind fun _ => .ite (.pure _) <| (keeps_isPending _).bind fun _ =>
    .ite (.pure _) <| (keeps_accessesElement _ _).bind fun _ => .ite (.pure _) <|
      (Agree.ask _).bind fun _ => (Agree.ask _).bind fun _ => .ite (.pure _) <|
        (hAsk .forward _ _).bind fun _ => .ite (.pure _) <| (Agree.ask _).bind fun _ => .pure _

theorem loyal_firstDominator (all rest : List OpId) : Loyal o (firstDominator all rest) := by
  induction rest with
  | nil => exact .pure none
  | cons c rest ih =>
    exact (Agree.allM (fun d => hAsk .forward c d) all).bind fun _ => .ite (.pure _) ih

theorem loyal_mergeLoad (load : OpId) : Loyal o (mergeLoad load) := by
  refine (Agree.ask _).bind fun access => ?_
  cases access with
  | none => exact .pure ()
  | some target =>
    refine (Agree.ask _).bind fun loaded => (Agree.ask _).bind fun users =>
      (Agree.filterM (loyal_canReuse hAsk target loaded load) users).bind fun candidates =>
        (loyal_firstDominator hAsk candidates candidates).bind fun chosen => ?_
    cases chosen with
    | none => exact .pure ()
    | some chosen =>
      exact (Agree.ask _).bind fun _ => (keeps_replaceUses _ _).bind fun _ =>
        (keeps_scheduleErase _).bind fun _ => keeps_report _ _

theorem loyal_processLoad (fuel : Nat) (load : OpId) : Loyal o (processLoad fuel load) := by
  induction fuel generalizing load with
  | zero => exact .throw _
  | succ fuel ih =>
    refine Agree.get.bind fun s => (keeps_isPending load).bind fun _ => .ite (.pure ()) <|
      (loyal_forwardStore hAsk load).bind fun out => ?_
    cases out with
    | replaced => exact .pure ()
    | retry next => exact ih next
    | unchanged => exact loyal_mergeLoad hAsk load

theorem loyal_overwrittenAt (target : Access) (first second : OpId) :
    Loyal o (overwrittenAt? target first second) :=
  .ite (.pure _) <| (Agree.ask _).bind fun _ => .ite (.pure _) <|
    (keeps_accessesElement _ _).bind fun _ => .ite (.pure _) <| (Agree.ask _).bind fun _ =>
      (Agree.ask _).bind fun _ => (Agree.ask _).bind fun _ => .ite (.pure _) <|
        (hAsk .backward _ _).bind fun _ => .ite (.pure _) <| (Agree.ask _).bind fun _ =>
          .ite (.pure _) (.pure _)

theorem loyal_findOverwriter (target : Access) (store : OpId) (users : List OpId) :
    Loyal o (findOverwriter target store users) := by
  induction users with
  | nil => exact .pure ()
  | cons user users ih =>
    refine (loyal_overwrittenAt hAsk target store user).bind fun point => ?_
    cases point with
    | none => exact ih
    | some point => exact (keeps_scheduleErase _).bind fun _ => keeps_report _ _

theorem loyal_dropDeadStore (store : OpId) : Loyal o (dropDeadStore store) := by
  refine Agree.get.bind fun s => (keeps_isPending store).bind fun _ => .ite (.pure ()) <|
    (Agree.ask _).bind fun access => ?_
  cases access with
  | none => exact .pure ()
  | some target =>
    exact (Agree.ask _).bind fun users => (loyal_findOverwriter hAsk target store users).bind
      fun _ => (Agree.ask _).bind fun _ => .ite (keeps_recheck _) (.pure ())

/- No questions are asked when the buffers are looked at. -/
theorem agree_all (f : Function) : Agree Trusted (fun _ => True) (@all o f) (@all keptTrees f) :=
  (Agree.ask _).bind fun loads => (Agree.forM (fun load => Agree.get.bind fun _ =>
    loyal_processLoad hAsk _ load) loads).bind fun _ => keeps_flush.bind fun _ =>
      (Agree.ask _).bind fun stores => (Agree.forM (loyal_dropDeadStore hAsk) stores).bind fun _ =>
        keeps_flush.bind fun _ => .of_keeps fun _ _ _ _ _ => trivial

end Loyalty

------
-- Answers
------

/- The trees that are kept for a direction. -/
def treesFor (s : ForwardState) : Direction → DominanceCache
  | .forward => s.dom
  | .backward => s.postDom

/- Ask the kept trees; give the alarm if the answer would be another one without them. -/
def unlessStale (alarm : Forward Bool) (d : Direction) (a b : OpId) : Forward Bool := do
  let s ← get
  let question := s.graph.dominates a b
  if question.run' (treesFor s d) = question.runFresh d then
    keptTrees.dominates d a b
  else
    alarm

abbrev watched (alarm : Forward Bool) : Oracle := ⟨unlessStale alarm⟩

theorem keptTrees_keep {d : Direction} {a b : OpId} {answer : Bool} {s s' : ForwardState}
    (hTrusted : Trusted s) (hRun : (keptTrees.dominates d a b).run s = .ok (answer, s')) :
    Trusted s' := by
  cases d with
  | forward =>
    change (askDom fun g => g.dominates a b).run s = _ at hRun
    obtain ⟨_, _, hGet, hRun⟩ := run_bind_eq_ok.mp hRun
    cases hGet
    obtain ⟨pair, hAnswer, hRun⟩ := run_lift_bind_eq_ok.mp hRun
    cases hRun
    exact ⟨((DominanceQuery.Steady.dominates ..).keeps hAnswer).2 _ hTrusted.1, hTrusted.2⟩
  | backward =>
    change (askPostDom fun g => g.dominates a b).run s = _ at hRun
    obtain ⟨_, _, hGet, hRun⟩ := run_bind_eq_ok.mp hRun
    cases hGet
    obtain ⟨pair, hAnswer, hRun⟩ := run_lift_bind_eq_ok.mp hRun
    cases hRun
    exact ⟨hTrusted.1, ((DominanceQuery.Steady.dominates ..).keeps hAnswer).2 _ hTrusted.2⟩

theorem loyal_watched (alarm : Forward Bool) (d : Direction) (a b : OpId) :
    Loyal (watched alarm) (Oracle.dominates d a b) := by
  intro s hTrusted
  have hHolds : (treesFor s d).Holds d s.graph := by
    cases d with
    | forward => exact hTrusted.1
    | backward => exact hTrusted.2
  have hFresh : (s.graph.dominates a b).run' (treesFor s d) = (s.graph.dominates a b).runFresh d :=
    (DominanceQuery.Steady.dominates ..).same hHolds (DominanceCache.holds_fresh d s.graph)
  refine ⟨?_, fun _ _ => keptTrees_keep hTrusted⟩
  change (unlessStale alarm d a b).run s = _
  unfold unlessStale
  rw [StateT.run_bind, StateT.run_get, pure_bind]
  dsimp only
  rw [if_pos hFresh]

/-
  In the transformation of any function, every question about
  dominance or post-dominance has the answer that it would have
  on the graph of that moment without kept trees: the watched
  transformation does the same whatever the alarm is, so that
  the alarm is never given.
-/
theorem all_never_stale (f : Function) (alarm : Forward Bool) :
    (@all (watched alarm) f).run { graph := f.graph } = (all f).run { graph := f.graph } := by
  have hStart : Trusted { graph := f.graph } :=
    ⟨DominanceCache.holds_fresh .forward f.graph, DominanceCache.holds_fresh .backward f.graph⟩
  exact (agree_all (loyal_watched alarm) f _ hStart).1

end Forward

end AffineIR
