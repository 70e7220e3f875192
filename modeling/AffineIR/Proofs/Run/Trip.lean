import AffineIR.Proofs.Run.Unfolding

/-
  Runs of functions, from block to block.

  A block of a function is a course: statements that unfold
  into a program, and an operation that leaves the block.  A
  trip goes from course to course until one of them returns.
  Runs that return are trips, and the trace of a trip tells
  where a run with a lower limit stops.

  Main result: `Function.ComesTo`
-/

namespace AffineIR

open List

variable {b b' : BlockId} {σ σ' : Store} {t : Trace} {params : List ValueId} {xs : List OpId}
  {p : Prog} {fuel k : Nat} {m m' : Machine} {flow : Flow} {blocks : List BlockId}

------
-- Courses
------

/- Kinds that leave the block they stand in. -/
def Kind.isJump : Kind → Bool
  | branch | condBranch | ret => true
  | _ => false

/- Where control goes from an operation that leaves its block. -/
def Operation.jump? (o : Operation) (σ : Store) : Option Flow :=
  match o.kind with
  | .branch => o.successors[0]?.map Flow.branch
  | .condBranch =>
    (o.operands[0]?.bind σ.scalar?).bind fun value =>
      value.getBool.toOption.bind fun holds => o.successors[if holds then 0 else 1]?.map Flow.branch
  | .ret => (o.operands.mapM σ.env).map Flow.ret
  | _ => none

/- What a function returns that is left in some way. -/
def Flow.values : Flow → List Datum
  | .ret values => values
  | _ => []

/- An operation that leaves its block does not fall off it. -/
theorem Operation.jump?_ne_done (o : Operation) (σ : Store) : o.jump? σ ≠ some .done := by
  intro hJump
  unfold Operation.jump? at hJump
  cases hKind : o.kind <;> simp [hKind, Option.bind_eq_some_iff] at hJump

/- A program, and the operation behind it. -/
def Prog.pass (p : Prog) (a : Act) (σ : Store) : Play :=
  andPlay (p.play σ) fun σ => ([(a, σ)], .ok σ)

theorem Prog.pass_eq_ok_iff {a : Act} :
    p.pass a σ = (t, .ok σ') ↔ ∃ t₁, p.run σ = some (t₁, σ') ∧ t = t₁ ++ [(a, σ')] := by
  simp only [pass, andPlay_eq_ok_iff, play_eq_ok_iff, Prod.mk.injEq, Except.ok.injEq]
  constructor
  · rintro ⟨t₁, _, _, hRun, ⟨rfl, rfl⟩, rfl⟩
    exact ⟨t₁, hRun, rfl⟩
  · rintro ⟨t₁, hRun, rfl⟩
    exact ⟨t₁, σ', _, hRun, ⟨rfl, rfl⟩, rfl⟩

/- A block: statements, and an operation that leaves the block. -/
structure Graph.Course (g : Graph) (b : BlockId) (xs : List OpId) (p : Prog) (x : OpId)
    (o : Operation) : Prop where
  block : ∃ blk, g.block b = .ok blk ∧ blk.ops = xs ++ [x]
  unfolds : g.Unfolds b xs p
  op : g.op x = .ok o
  jumps : o.kind.isJump = true

namespace Exec

variable {g : Graph} {x : OpId} {o : Operation}

theorem reads_jump (enter : RegionId → Exec Flow) (hOp : g.op x = .ok o)
    (hJumps : o.kind.isJump = true) : Reads (op g enter x) o.jump? := by
  unfold op
  rw [hOp]
  change Reads ((pure o : Exec Operation) >>= _) _
  rw [pure_bind]
  cases hKind : o.kind <;> simp only [hKind, Kind.isJump] at hJumps <;> try cases hJumps
  case branch =>
    simp only
    apply Reads.congr ((reads_entryAt o.successors 0).bind fun b => .pure (Flow.branch b))
    intro σ
    simp only [Operation.jump?, hKind]
    cases o.successors[0]? <;> rfl
  case condBranch =>
    simp only
    apply Reads.congr ((reads_entryAt o.operands 0).bind fun v =>
        (reads_scalar v).bind fun value =>
          (Reads.ask value.getBool).bind fun holds =>
            (reads_entryAt o.successors (if holds then 0 else 1)).bind
              fun b => .pure (Flow.branch b))
    intro σ
    simp only [Operation.jump?, hKind, Option.bind_assoc]
    congr 1
    funext v
    congr 1
    funext value
    congr 1
    funext holds
    cases o.successors[if holds then 0 else 1]? <;> rfl
  case ret =>
    simp only
    apply Reads.congr ((Reads.mapM reads_lookup o.operands).bind fun values =>
        .pure (Flow.ret values))
    intro σ
    simp only [Operation.jump?, hKind]
    cases o.operands.mapM (fun v => σ.env v) <;> rfl

theorem ops_append (enter : RegionId → Exec Flow) (xs ys : List OpId) :
    ops g enter (xs ++ ys) = ops g enter xs >>= fun flow =>
        match flow with
        | .done => ops g enter ys
        | flow => pure flow := by
  induction xs with
  | nil =>
    change _ = (pure .done : Exec Flow) >>= _
    rw [pure_bind]
    rfl
  | cons x xs ih =>
    rw [cons_append, ops_cons, ops_cons, ih]
    generalize (tick x >>= fun _ => op g enter x) = first
    rw [bind_assoc]
    congr 1
    funext flow
    cases flow with
    | done => rfl
    | branch b =>
      change _ = (pure (.branch b) : Exec Flow) >>= _
      rw [pure_bind]
    | ret values =>
      change _ = (pure (.ret values) : Exec Flow) >>= _
      rw [pure_bind]

/- The operation behind the statements of a course. -/
theorem plays_jump (enter : RegionId → Exec Flow) (hOp : g.op x = .ok o)
    (hJumps : o.kind.isJump = true) (hSteps : m.steps ≤ m.limit) :
    m.Plays o.jump? ([(g.actOf x o, m.store)], .ok m.store) (outcome (ops g enter [x]) m) := by
  have hReads := reads_jump enter hOp hJumps
  rw [ops_cons, bind_assoc]
  refine plays_tick (r := fun σ => ([], .ok σ)) (g.actOf x o) hSteps fun hLimit => ?_
  rw [outcome_bind]
  cases hJump : o.jump? m.store with
  | none =>
    obtain ⟨e, hError⟩ := hReads.fails (m := counted m x) hJump
    exact hError ▸ .ends hLimit hJump.symm (.refl _)
  | some flow =>
    rw [hReads.ok (m := counted m (g.actOf x o).op) hJump]
    cases flow <;> exact .ends hLimit hJump.symm (.refl _)

theorem plays_course (fuel : Nat) (hCourse : g.Course b xs p x o) (hFuel : m.limit ≤ fuel + m.steps)
    (hSteps : m.steps ≤ m.limit) :
    m.Plays o.jump? (p.pass (g.actOf x o) m.store)
      (outcome (ops g (region g (blockUpTo g fuel)) (xs ++ [x])) m) := by
  rw [ops_append]
  refine ((hCourse.unfolds.follows fuel).plays hFuel hSteps).bind fun m₁ _ _ hSteps₁ => ?_
  exact plays_jump _ hCourse.op hCourse.jumps hSteps₁

end Exec

------
-- Trips
------

namespace Graph

/- From course to course until one of them returns. -/
inductive Trip (g : Graph) :
    BlockId → Store → Trace → List Datum → Store → Prop
  | ret {b : BlockId} {xs : List OpId} {p : Prog} {x : OpId} {o : Operation}
      {σ σ' : Store} {t : Trace} {values : List Datum} (hCourse : g.Course b xs p x o)
      (hRun : p.run σ = some (t, σ')) (hJump : o.jump? σ' = some (.ret values)) :
      Trip g b σ (t ++ [(g.actOf x o, σ')]) values σ'
  | branch {b b' : BlockId} {xs : List OpId} {p : Prog} {x : OpId}
      {o : Operation} {σ σ' σ'' : Store} {t u : Trace} {values : List Datum}
      (hCourse : g.Course b xs p x o) (hRun : p.run σ = some (t, σ'))
      (hJump : o.jump? σ' = some (.branch b')) (hRest : Trip g b' σ' u values σ'') :
      Trip g b σ (t ++ [(g.actOf x o, σ')] ++ u) values σ''

variable {g : Graph} {x : OpId} {o : Operation}

theorem Course.outcome_block (hCourse : g.Course b xs p x o) :
    Exec.outcome (Exec.blockUpTo g (fuel + 1) b) m =
      Exec.outcome (Exec.ops g (Exec.region g (Exec.blockUpTo g fuel)) (xs ++ [x]) >>= fun flow =>
          match flow with
          | .branch next => Exec.blockUpTo g fuel next
          | flow => pure flow) m := by
  obtain ⟨blk, hBlock, hOps⟩ := hCourse.block
  rw [← hOps]
  change Exec.outcome (Exec.ask (g.block b) >>= fun _ => _) m = _
  rw [hBlock]
  rfl

/- A trip is played up to the limit. -/
theorem Trip.plays {values : List Datum} (hTrip : g.Trip b σ t values σ') (hStore : m.store = σ)
    (hFuel : m.limit + 1 ≤ fuel + m.steps) (hSteps : m.steps ≤ m.limit) :
    m.Plays (fun _ => some (.ret values)) (t, .ok σ')
      (Exec.outcome (Exec.blockUpTo g fuel b) m) := by
  induction hTrip generalizing fuel m with
  | @ret b xs p x o σ σ' t values hCourse hRun hJump =>
    cases fuel with
    | zero => omega
    | succ fuel =>
      have hPlays := Exec.plays_course fuel hCourse (by omega) hSteps
      rw [hStore, Prog.pass_eq_ok_iff.mpr ⟨t, hRun, rfl⟩] at hPlays
      rw [hCourse.outcome_block, Exec.outcome_bind]
      generalize Exec.outcome (Exec.ops _ _ _) m = out at hPlays ⊢
      cases hPlays with
      | @ends _ _ result m₁ hLimit hLeave hAfter =>
        rw [hJump] at hLeave
        cases result <;> cases hLeave
        exact .ends hLimit rfl hAfter
      | stops hOver hStops => exact .stops hOver hStops
  | @branch b b' xs p x o σ σ' σ'' t u values hCourse hRun hJump hRest ih =>
    cases fuel with
    | zero => omega
    | succ fuel =>
      have hPlays := Exec.plays_course fuel hCourse (by omega) hSteps
      rw [hStore, Prog.pass_eq_ok_iff.mpr ⟨t, hRun, rfl⟩] at hPlays
      rw [hCourse.outcome_block, Exec.outcome_bind]
      generalize Exec.outcome (Exec.ops _ _ _) m = out at hPlays ⊢
      cases hPlays with
      | @ends _ _ result m₁ hLimit hLeave hAfter =>
        rw [hJump] at hLeave
        cases result <;> cases hLeave
        have hCounted := hAfter.steps
        rw [length_append, length_singleton] at hCounted hLimit
        have hSame := hAfter.limit
        exact hAfter.plays (by simp; omega) (ih hAfter.store (by omega) (by omega))
      | stops hOver hStops =>
        refine .stops ?_ (hStops.append u)
        rw [length_append]
        omega

/- Every block is a course, and leads to blocks only that are too. -/
structure Navigable (g : Graph) (blocks : List BlockId) : Prop where
  course {b : BlockId} (hMem : b ∈ blocks) :
    ∃ xs p x o, g.Course b xs p x o ∧ ∀ s ∈ o.successors, s ∈ blocks

theorem mem_successors_of_jump (hJump : o.jump? σ = some (.branch b')) : b' ∈ o.successors := by
  unfold Operation.jump? at hJump
  split at hJump
  · obtain ⟨s, hEntry, hEq⟩ := Option.map_eq_some_iff.mp hJump
    cases hEq
    exact mem_of_getElem? hEntry
  · obtain ⟨value, _, hMore⟩ := Option.bind_eq_some_iff.mp hJump
    obtain ⟨holds, _, hLast⟩ := Option.bind_eq_some_iff.mp hMore
    obtain ⟨s, hEntry, hEq⟩ := Option.map_eq_some_iff.mp hLast
    cases hEq
    exact mem_of_getElem? hEntry
  · obtain ⟨values, _, hEq⟩ := Option.map_eq_some_iff.mp hJump
    cases hEq
  · cases hJump

/- A run of blocks that ends is a trip. -/
theorem Navigable.trip (hNavigable : g.Navigable blocks) (hMem : b ∈ blocks)
    (hFuel : m.limit + 1 ≤ fuel + m.steps) (hSteps : m.steps ≤ m.limit)
    (hOutcome : Exec.outcome (Exec.blockUpTo g fuel b) m = (.ok flow, m')) :
    ∃ values t, flow = .ret values ∧ g.Trip b m.store t values m'.store ∧
      m.steps + t.length ≤ m.limit := by
  induction fuel generalizing b m with
  | zero => omega
  | succ fuel ih =>
    obtain ⟨xs, p, x, o, hCourse, hTargets⟩ := hNavigable.course hMem
    have hPlays := Exec.plays_course fuel hCourse (by omega) hSteps
    rw [hCourse.outcome_block, Exec.outcome_bind] at hOutcome
    generalize Exec.outcome (Exec.ops _ _ _) m = out at hPlays hOutcome
    generalize hPass : p.pass (g.actOf x o) m.store = play at hPlays
    cases hPlays with
    | fails => cases hOutcome
    | stops => cases hOutcome
    | @ends t σ result m₁ hLimit hJump hAfter =>
      obtain ⟨t₁, hRun, rfl⟩ := Prog.pass_eq_ok_iff.mp hPass
      rcases result with e | _ | b' | values
      · cases hOutcome
      · exact absurd hJump.symm (o.jump?_ne_done σ)
      · have hCounted := hAfter.steps
        rw [length_append, length_singleton] at hCounted
        rcases ih (m := m₁) (hTargets b' (mem_successors_of_jump hJump.symm))
          (by rw [hAfter.limit, hCounted]; omega)
          (by rw [hAfter.limit, hAfter.steps]; omega) hOutcome with ⟨values, u, rfl, hTrip, hWithin⟩
        rw [hAfter.store] at hTrip
        rw [hAfter.limit, hAfter.steps] at hWithin
        refine ⟨values, _, rfl, .branch hCourse hRun hJump.symm hTrip, ?_⟩
        rw [length_append]
        omega
      · cases hOutcome
        rw [hAfter.store]
        exact ⟨values, _, rfl, .ret hCourse hRun hJump.symm, hLimit⟩

end Graph

------
-- Functions
------

/- Bind values to data, one after the other. -/
def Store.assignAll (σ : Store) (bindings : List (ValueId × Datum)) : Store :=
  bindings.foldl (fun σ (v, d) => σ.assign v d) σ

namespace Exec

/- Binding the arguments of a function. -/
theorem outcome_assignAll (bindings : List (ValueId × Datum)) (m : Machine) :
    ∃ m', outcome (bindings.forM fun (v, d) => assign v d) m = (.ok (), m') ∧
      m'.store = m.store.assignAll bindings ∧ m.SameCounters m' := by
  induction bindings generalizing m with
  | nil => exact ⟨m, rfl, rfl, .refl m⟩
  | cons e rest ih =>
    obtain ⟨m₁, hOutcome₁, hStore₁, hSame₁⟩ := (acts_assign e.1 e.2).ok (m := m) rfl
    obtain ⟨m₂, hOutcome₂, hStore₂, hSame₂⟩ := ih m₁
    refine ⟨m₂, ?_, ?_, hSame₁.trans hSame₂⟩
    · change outcome (assign e.1 e.2 >>= fun _ => rest.forM _) m = _
      rwa [outcome_bind, hOutcome₁]
    · rw [hStore₂, hStore₁]
      rfl

end Exec

namespace Function

variable {f : Function} {args : List Datum}

/- What a function starts with: its first block and its parameters. -/
structure Starts (f : Function) (b : BlockId) (params : List ValueId) : Prop where
  entry : f.graph.entryBlock? f.body = .ok (some b)
  params : f.arguments = .ok params

section

variable (hStarts : f.Starts b params) (hArgs : params.length = args.length)

include hStarts hArgs

/- A run, from the first block on. -/
theorem outcome_run (m : Machine) :
    ∃ m₁, m₁.store = m.store.assignAll (params.zip args) ∧ m.SameCounters m₁ ∧
      Exec.outcome (f.run args) m =
        Exec.outcome (Exec.blockUpTo f.graph (m.limit + 1) b >>= fun flow =>
          pure flow.values) m₁ := by
  obtain ⟨m₁, hOutcome, hStore, hSame⟩ := Exec.outcome_assignAll (params.zip args) m
  have hRegion (fuel : Nat) :
      Exec.region f.graph (Exec.blockUpTo f.graph fuel) f.body = Exec.blockUpTo f.graph fuel b := by
    unfold Exec.region
    rw [hStarts.entry]
    simp only [Exec.ask, pure_bind]
  have hGet : Exec.outcome (get : Exec Machine) m₁ = (.ok m₁, m₁) := rfl
  refine ⟨m₁, hStore, hSame, ?_⟩
  unfold run
  rw [hStarts.params]
  simp only [Exec.ask, pure_bind, hArgs, ne_eq, not_true_eq_false, if_false]
  rw [Exec.outcome_bind, hOutcome]
  simp only
  rw [Exec.outcome_bind, hGet]
  simp only [hRegion, hSame.limit]
  congr 2
  funext flow
  cases flow <;> rfl

/- A run plays the trip it makes. -/
theorem plays_of_trip {values : List Datum}
    (hTrip : f.graph.Trip b (m.store.assignAll (params.zip args)) t values σ)
    (hSteps : m.steps ≤ m.limit) :
    ∃ out, m.Plays (fun _ => some (.ret values)) (t, .ok σ) out ∧
      Exec.outcome (f.run args) m = (out.1.map Flow.values, out.2) := by
  obtain ⟨m₁, hStore, hSame, hRun⟩ := outcome_run hStarts hArgs m
  have hFuel : m₁.limit + 1 ≤ m.limit + 1 + m₁.steps := by
    rw [hSame.limit]
    omega
  have hPlays := hTrip.plays hStore hFuel (by rwa [hSame.limit, hSame.steps])
  refine ⟨_, hSame.after.plays hSteps hPlays, ?_⟩
  rw [hRun, Exec.outcome_bind]
  generalize Exec.outcome (Exec.blockUpTo _ _ _) m₁ = out
  rcases out with ⟨e | flow, m'⟩ <;> rfl

/- A trip is a run, if the limit allows it. -/
theorem run_of_trip {values : List Datum}
    (hTrip : f.graph.Trip b (m.store.assignAll (params.zip args)) t values σ)
    (hLimit : m.steps + t.length ≤ m.limit) :
    ∃ m', Exec.outcome (f.run args) m = (.ok values, m') ∧ m.After t σ m' := by
  obtain ⟨out, hPlays, hRun⟩ := plays_of_trip hStarts hArgs hTrip (by omega)
  obtain ⟨result, m', rfl, hLeave, hAfter⟩ := hPlays.to_end hLimit
  cases result <;> cases hLeave
  exact ⟨m', hRun, hAfter⟩

/- A run that returns is a trip. -/
theorem trip_of_run {values : List Datum} (hNavigable : f.graph.Navigable blocks)
    (hMem : b ∈ blocks) (hSteps : m.steps ≤ m.limit)
    (hRun : Exec.outcome (f.run args) m = (.ok values, m')) :
    ∃ t, f.graph.Trip b (m.store.assignAll (params.zip args)) t values
        m'.store ∧ m.steps + t.length ≤ m.limit := by
  obtain ⟨m₁, hStore, hSame, hEq⟩ := outcome_run hStarts hArgs m
  rw [hEq, Exec.outcome_bind] at hRun
  cases hOutcome : Exec.outcome (Exec.blockUpTo f.graph (m.limit + 1) b) m₁ with
  | mk result m₂ =>
    rw [hOutcome] at hRun
    cases result with
    | error e => cases hRun
    | ok flow =>
      rcases hNavigable.trip hMem (by rw [hSame.limit]; omega)
        (by rw [hSame.limit, hSame.steps]; exact hSteps) hOutcome with
        ⟨values', t, rfl, hTrip, hWithin⟩
      cases hRun
      rw [hSame.limit, hSame.steps] at hWithin
      exact ⟨t, hStore ▸ hTrip, hWithin⟩

end

/-
  After a number of operations, a run comes to an operation.
  The run with that many operations allowed stops there, and
  the run with one more counts it.
-/
def ComesTo (f : Function) (args : List Datum) (m : Machine) (n : Nat) (h : OpId)
    (s : Machine) : Prop :=
  Exec.outcome (f.run args) { m with limit := n } = (.error (.trap (.stepLimit n)), s) ∧
    ∃ r s', Exec.outcome (f.run args) { m with limit := n + 1 } = (r, s') ∧
      s'.count h = s.count h + 1

/- What a run does at an event of its trip, and just behind it. -/
theorem stage_of_trip {values : List Datum} {e : Act × Store} (hStarts : f.Starts b params)
    (hArgs : params.length = args.length)
    (hTrip : f.graph.Trip b (m.store.assignAll (params.zip args)) t values σ)
    (hAt : t[k]? = some e) :
    ∃ s r s', Exec.outcome (f.run args) { m with limit := m.steps + k } =
        (.error (.trap (.stepLimit (m.steps + k))), s) ∧
      Exec.outcome (f.run args) { m with limit := m.steps + k + 1 } = (r, s') ∧ s.store = e.2 ∧
      ∀ h, s'.count h = s.count h + if e.1.op = h then 1 else 0 := by
  have hInside : k < t.length := (List.getElem?_eq_some_iff.mp hAt).1
  rcases plays_of_trip (m := { m with limit := m.steps + k }) hStarts hArgs hTrip
    (Nat.le_add_right ..) with ⟨out, hPlays, hRun⟩
  rcases plays_of_trip (m := { m with limit := m.steps + k + 1 }) hStarts hArgs hTrip
    (Nat.le_add_right _ (k + 1)) with ⟨out', hPlays', hRun'⟩
  obtain ⟨s, rfl, hStops⟩ := hPlays.to_stop (Nat.add_lt_add_left hInside _)
  refine ⟨s, _, _, hRun, hRun', ?_, ?_⟩
  · have hSome := hStops.store
    simp only [Nat.add_sub_cancel_left, hAt, Option.map_some, Option.some.injEq] at hSome
    exact hSome.symm
  · intro h
    have hBefore := hStops.counts h
    have hBehind := hPlays'.counts h
    simp only [Nat.add_assoc, Nat.add_sub_cancel_left] at hBefore hBehind
    rw [hBehind, take_add_one, hAt, Trace.times_append, hBefore, Nat.add_assoc]
    by_cases hSame : e.1.op = h <;> simp [Trace.times, hSame, Machine.count]

end Function

end AffineIR
