import AffineIR.Proofs.Run.Trip

/-
  Runs of functions with one block.

  Such a function passes through its block once, or over and
  over if the block branches to itself.  What a run comes to,
  whether it returns or not, is what happens in one of the
  passes.

  Main result: `Function.OneBlock.pass_of_comesTo`
-/

namespace AffineIR

open List Option

variable {σ τ : Store} {p : Prog} {o : Operation} {a last : Act} {e : Act × Store}
  {base i k n : Nat} {t u : Trace}

/- Where an operation branches from, at the end of a play. -/
def Operation.again? (o : Operation) (r : Play) : Option Store :=
  match r.2 with
  | .error _ => none
  | .ok σ =>
    match o.jump? σ with
    | some (.branch _) => some σ
    | _ => none

namespace Prog

/- The trace of a number of passes, as long as the block branches. -/
def passes (p : Prog) (a : Act) (o : Operation) : Nat → Store → Trace
  | 0, _ => []
  | n + 1, σ => (p.pass a σ).1 ++ (o.again? (p.pass a σ)).elim [] (passes p a o n)

/- There is something in a pass that another one follows. -/
theorem length_pass_pos (hAgain : o.again? (p.pass a σ) = some τ) : 0 < (p.pass a σ).1.length := by
  cases hPass : p.pass a σ with
  | mk t last =>
    cases last with
    | error σ' =>
      rw [hPass] at hAgain
      cases hAgain
    | ok σ' =>
      obtain ⟨t₁, _, rfl⟩ := pass_eq_ok_iff.mp hPass
      simp

/- More passes only add to the trace. -/
theorem passes_le (hLess : n ≤ k)
    (hAt : (p.passes a o n σ)[i]? = some e) : (p.passes a o k σ)[i]? = some e := by
  induction n generalizing k i σ with
  | zero => simp [passes] at hAt
  | succ n ih =>
    cases k with
    | zero => omega
    | succ k =>
      unfold passes at hAt ⊢
      by_cases hHere : i < (p.pass a σ).1.length
      · rw [List.getElem?_append_left hHere] at hAt ⊢
        exact hAt
      · rw [List.getElem?_append_right (by omega)] at hAt ⊢
        cases hAgain : o.again? (p.pass a σ) with
        | none => simp [hAgain] at hAt
        | some τ =>
          rw [hAgain] at hAt
          exact ih (by omega) hAt

/- What holds of a store holds all along every run from it. -/
def Preserves (p : Prog) (Q : Store → Prop) : Prop :=
  p.Along fun σ t τ => Q σ → (∀ e ∈ t, Q e.2) ∧ Q τ

/- It holds all along a pass, too. -/
theorem Preserves.pass {Q : Store → Prop} (hPreserves : p.Preserves Q) (a : Act)
    (hHolds : Q σ) : (∀ e ∈ (p.pass a σ).1, Q e.2) ∧ Q (p.pass a σ).store :=
  Along.andPlay hPreserves (Along.play hPreserves σ) (fun σ₁ => Along.head hPreserves a σ₁) hHolds

theorem store_of_again? {r : Play} (hAgain : o.again? r = some σ) : r.store = σ := by
  obtain ⟨t, σ' | σ'⟩ := r
  · cases hAgain
  · unfold Operation.again? at hAgain
    dsimp only at hAgain
    split at hAgain
    · exact Option.some.inj hAgain
    · cases hAgain

/- What a program preserves holds at the start of the next pass. -/
theorem Preserves.next {Q : Store → Prop} (hPreserves : p.Preserves Q) (hHolds : Q σ)
    (hAgain : o.again? (p.pass a σ) = some τ) : Q τ :=
  store_of_again? hAgain ▸ (hPreserves.pass a hHolds).2

/- What is in a trace of passes is in one of them. -/
theorem exists_pass {Q : Store → Prop}
    (hNext : ∀ {τ τ'}, Q τ → o.again? (p.pass a τ) = some τ' → Q τ') (hHolds : Q σ)
    (hAt : (p.passes a o n σ)[k]? = some e) :
    ∃ base τ i, k = base + i ∧ Q τ ∧ (p.pass a τ).1[i]? = some e ∧
      ∀ j e', (p.pass a τ).1[j]? = some e' → (p.passes a o n σ)[base + j]? = some e' := by
  induction n generalizing k σ with
  | zero => simp [passes] at hAt
  | succ n ih =>
    unfold passes at hAt ⊢
    by_cases hHere : k < (p.pass a σ).1.length
    · rw [List.getElem?_append_left hHere] at hAt
      refine ⟨0, σ, k, by omega, hHolds, hAt, ?_⟩
      intro j e' hAt'
      have hInside : j < (p.pass a σ).1.length := (List.getElem?_eq_some_iff.mp hAt').1
      rwa [Nat.zero_add, List.getElem?_append_left hInside]
    · rw [List.getElem?_append_right (by omega)] at hAt
      cases hAgain : o.again? (p.pass a σ) with
      | none => simp [hAgain] at hAt
      | some σ₁ =>
        rw [hAgain] at hAt
        obtain ⟨base, τ, i, hIndex, hHolds', hEvent, hOthers⟩ := ih (hNext hHolds hAgain) hAt
        refine ⟨(p.pass a σ).1.length + base, τ, i, by omega, hHolds', hEvent, ?_⟩
        intro j e' hAt'
        rw [List.getElem?_append_right (by omega)]
        have hShift : (p.pass a σ).1.length + base + j -
            (p.pass a σ).1.length = base + j := by omega
        rw [hShift]
        exact hOthers j e' hAt'

end Prog

namespace Exec

open Prog

variable {g : Graph} {b : BlockId} {xs : List OpId} {x : OpId} {m m' : Machine} {fuel : Nat}

/- A pass within the limit: it is the last one, or another one follows. -/
theorem outcome_pass (hCourse : g.Course b xs p x o) (hOnly : ∀ s ∈ o.successors, s = b)
    (hFuel : m.limit ≤ fuel + m.steps)
    (hLimit : m.steps + (p.pass (g.actOf x o) m.store).1.length ≤ m.limit) :
    (∃ r m', outcome (blockUpTo g (fuel + 1) b) m = (r, m') ∧
        o.again? (p.pass (g.actOf x o) m.store) = none ∧
        m'.store.env = (p.pass (g.actOf x o) m.store).store.env ∧ ∀ h, m'.count h =
          m.count h + (p.pass (g.actOf x o) m.store).1.times h) ∨
      ∃ σ m', outcome (blockUpTo g (fuel + 1) b) m = outcome (blockUpTo g fuel b) m' ∧
        o.again? (p.pass (g.actOf x o) m.store) = some σ ∧
        m.After (p.pass (g.actOf x o) m.store).1 σ m' := by
  have hPlays := plays_course fuel hCourse hFuel (by omega)
  rw [hCourse.outcome_block, outcome_bind]
  generalize outcome (ops _ _ _) m = out at hPlays ⊢
  generalize p.pass (g.actOf x o) m.store = play at hPlays hLimit ⊢
  cases hPlays with
  | stops hOver => exact absurd hLimit (Nat.not_le.mpr hOver)
  | @fails t σ e m₁ _ hFails => exact .inl ⟨_, m₁, rfl, rfl, hFails.env, hFails.counts⟩
  | @ends t σ r m₁ _ hJump hAfter =>
    have hEnv : m₁.store.env = σ.env := by rw [hAfter.store]
    simp only [Operation.again?, ← hJump]
    rcases r with e | _ | s | values
    · exact .inl ⟨_, m₁, rfl, rfl, hEnv, hAfter.counts⟩
    · exact absurd hJump.symm (o.jump?_ne_done σ)
    · have hBack := hOnly s (Graph.mem_successors_of_jump hJump.symm)
      subst hBack
      exact .inr ⟨σ, m₁, rfl, rfl, hAfter⟩
    · exact .inl ⟨_, m₁, rfl, rfl, hEnv, hAfter.counts⟩

/-
  A run through the block, up to the limit.  It counts what is
  in front of the event that exceeds the limit, if there is
  one, and stops there.
-/
theorem outcome_passes (hCourse : g.Course b xs p x o) (hOnly : ∀ s ∈ o.successors, s = b)
    (hFuel : m.limit + 1 ≤ fuel + m.steps) (hSteps : m.steps ≤ m.limit) (hEnough : fuel ≤ n) :
    ∃ r m', outcome (blockUpTo g fuel b) m = (r, m') ∧ (∀ h, m'.count h = m.count h + Trace.times
        ((p.passes (g.actOf x o) o n m.store).take (m.limit - m.steps)) h) ∧
      (m.limit < m.steps + (p.passes (g.actOf x o) o n m.store).length →
        r = .error (.trap (.stepLimit m.limit)) ∧
          ((p.passes (g.actOf x o) o n m.store)[m.limit - m.steps]?).map
            Prod.snd = some m'.store) := by
  induction fuel generalizing m n with
  | zero => omega
  | succ fuel ih =>
    cases n with
    | zero => omega
    | succ n =>
      have hFuel' : m.limit ≤ fuel + m.steps := by omega
      unfold passes
      by_cases hLimit : m.limit < m.steps + (p.pass (g.actOf x o) m.store).1.length
      · -- the limit is reached in this pass
        obtain ⟨m₁, hOutcome, hStops⟩ := (plays_course fuel hCourse hFuel' hSteps).to_stop hLimit
        rw [hCourse.outcome_block, outcome_bind, hOutcome]
        have hWhole := hStops.append ((o.again? (p.pass (g.actOf x o) m.store)).elim []
            (p.passes (g.actOf x o) o n))
        exact ⟨_, m₁, rfl, hWhole.counts, fun _ => ⟨rfl, hWhole.store⟩⟩
      · rcases outcome_pass hCourse hOnly hFuel' (by omega) with
          ⟨r, m₁, hOutcome, hLast, _, hCounts⟩ | ⟨σ, m₁, hOutcome, hNext, hAfter⟩
        · rw [hOutcome, hLast]
          refine ⟨r, m₁, rfl, ?_, ?_⟩
          · intro h
            rw [hCounts, elim_none, append_nil, take_of_length_le (by omega)]
          · intro hMore
            rw [elim_none, append_nil] at hMore
            exact absurd hMore hLimit
        · have hRoom : m.limit - m.steps = (p.pass (g.actOf x o) m.store).1.length +
                (m₁.limit - m₁.steps) := by
            rw [hAfter.limit, hAfter.steps]
            omega
          have hSome := length_pass_pos hNext
          rcases ih (m := m₁) (n := n) (by rw [hAfter.limit, hAfter.steps]; omega)
            (by rw [hAfter.limit, hAfter.steps]; omega)
            (by omega) with ⟨r, m₂, hRest, hCounts, hStops⟩
          rw [hAfter.store] at hCounts hStops
          rw [hOutcome, hNext, elim_some]
          refine ⟨r, m₂, hRest, ?_, ?_⟩
          · intro h
            rw [hCounts, hAfter.counts, hRoom, take_length_add_append, Trace.times_append]
            omega
          · intro hMore
            rw [length_append] at hMore
            obtain ⟨hError, hStore⟩ := hStops (by rw [hAfter.limit, hAfter.steps]; omega)
            refine ⟨by rw [hError, hAfter.limit], ?_⟩
            rwa [hRoom, List.getElem?_append_right (by omega), Nat.add_sub_cancel_left]

/- A run that may not count anything counts nothing. -/
theorem outcome_exhausted (fuel : Nat) (hCourse : g.Course b xs p x o)
    (hLimit : m.limit < m.steps + 1) :
    ∃ m', outcome (blockUpTo g (fuel + 1) b) m =
        (.error (.trap (.stepLimit m.limit)), m') ∧ m'.store = m.store ∧
      ∀ h, m'.count h = m.count h := by
  rw [hCourse.outcome_block, outcome_bind]
  refine ⟨{ m with steps := m.steps + 1 }, ?_, rfl, fun _ => rfl⟩
  cases xs with
  | nil => rw [nil_append, ops_cons, outcome_bind, outcome_bind, outcome_tick_of_lt x hLimit]
  | cons y ys => rw [cons_append, ops_cons, outcome_bind, outcome_bind, outcome_tick_of_lt y hLimit]

end Exec

------
-- Functions
------

namespace Function

open Prog

/- A function with one block: statements, and an operation behind them. -/
structure OneBlock (f : Function) (params : List ValueId) (b : BlockId) (xs : List OpId) (p : Prog)
    (x : OpId) (o : Operation) : Prop where
  starts : f.Starts b params
  course : f.graph.Course b xs p x o
  only : ∀ s ∈ o.successors, s = b

variable {f : Function} {params : List ValueId} {b : BlockId} {xs : List OpId} {x : OpId}
  {args : List Datum} {m s : Machine} {h : OpId}

/- A run, up to a limit. -/
theorem OneBlock.outcome (hOne : f.OneBlock params b xs p x o) (hArgs : params.length = args.length)
    (m : Machine) (limit : Nat)
    (hTrace : p.passes (f.graph.actOf x o) o n (m.store.assignAll (params.zip args)) = t)
    (hEnough : limit + 1 ≤ n) :
    ∃ r s, Exec.outcome (f.run args) { m with limit := limit } = (r, s) ∧
      (∀ h, s.count h = m.count h + Trace.times (t.take (limit - m.steps)) h) ∧
      (m.steps ≤ limit → limit < m.steps + t.length → r = .error (.trap (.stepLimit limit)) ∧
          (t[limit - m.steps]?).map Prod.snd = some s.store) := by
  obtain ⟨m₁, hStore, hSame, hRun⟩ := outcome_run hOne.starts hArgs { m with limit := limit }
  have hLimit : m₁.limit = limit := hSame.limit
  have hSteps : m₁.steps = m.steps := hSame.steps
  have hCount (h : OpId) : m₁.count h = m.count h := hSame.count h
  rw [hRun, Exec.outcome_bind]
  by_cases hBelow : m.steps ≤ limit
  · have hFuel : m₁.limit + 1 ≤ (limit + 1) + m₁.steps := by omega
    rcases Exec.outcome_passes (m := m₁) (n := n) hOne.course hOne.only hFuel
      (by omega) hEnough with ⟨r, s, hOutcome, hCounts, hStops⟩
    rw [hStore] at hCounts hStops
    simp only [hLimit, hSteps, hCount] at hCounts hStops
    subst hTrace
    rw [hOutcome]
    cases r with
    | error e =>
      refine ⟨.error e, s, rfl, hCounts, ?_⟩
      intro _ hLess
      obtain ⟨hError, hAt⟩ := hStops hLess
      cases hError
      exact ⟨rfl, hAt⟩
    | ok flow =>
      refine ⟨.ok flow.values, s, rfl, hCounts, ?_⟩
      intro _ hLess
      obtain ⟨hError, _⟩ := hStops hLess
      cases hError
  · rcases Exec.outcome_exhausted (m := m₁) limit hOne.course (by omega) with
      ⟨s, hOutcome, _, hCounts⟩
    have hZero : limit - m.steps = 0 := by omega
    rw [hOutcome]
    refine ⟨_, s, rfl, ?_, fun hLess => absurd hLess hBelow⟩
    intro h
    rw [hCounts, hCount, hZero]
    rfl

/- The number of arguments is right if anything is counted. -/
theorem OneBlock.length_args (hOne : f.OneBlock params b xs p x o)
    (hComes : f.ComesTo args m n h s) : params.length = args.length := by
  apply Decidable.byContradiction
  intro hNe
  obtain ⟨hOutcome, _⟩ := hComes
  unfold run at hOutcome
  rw [hOne.starts.params] at hOutcome
  simp only [Exec.ask, pure_bind, ne_eq, hNe, not_false_eq_true, if_true] at hOutcome
  cases hOutcome

/- What a run comes to is in the trace of its passes. -/
theorem OneBlock.event_of_comesTo (hOne : f.OneBlock params b xs p x o)
    (hComes : f.ComesTo args m n h s) :
    ∃ k e, n = m.steps + k ∧ e.1.op = h ∧ e.2 = s.store ∧ (p.passes (f.graph.actOf x o) o (n + 2)
        (m.store.assignAll (params.zip args)))[k]? = some e := by
  have hArgs := hOne.length_args hComes
  obtain ⟨hOutcome, r, s', hOutcome', hCount⟩ := hComes
  generalize hTrace : p.passes (f.graph.actOf x o) o (n + 2)
    (m.store.assignAll (params.zip args)) = t
  obtain ⟨r₁, s₁, hRun₁, hCounts₁, hStops₁⟩ := hOne.outcome hArgs m n hTrace (by omega)
  obtain ⟨r₂, s₂, hRun₂, hCounts₂, _⟩ := hOne.outcome hArgs m (n + 1) hTrace (by omega)
  rw [hOutcome] at hRun₁
  rw [hOutcome'] at hRun₂
  cases hRun₁
  cases hRun₂
  rw [hCounts₁, hCounts₂] at hCount
  have hReached : m.steps ≤ n := by
    apply Decidable.byContradiction
    intro hBelow
    have hSame : n + 1 - m.steps = n - m.steps := by omega
    rw [hSame] at hCount
    omega
  have hNext : n + 1 - m.steps = n - m.steps + 1 := by omega
  rw [hNext, take_add_one, Trace.times_append] at hCount
  have hLast : Trace.times (t[n - m.steps]?).toList h = 1 := by omega
  cases hAt : t[n - m.steps]? with
  | none =>
    rw [hAt] at hLast
    cases hLast
  | some e =>
    rw [hAt] at hLast
    have hOp : e.1.op = h := by
      apply Decidable.byContradiction
      intro hOther
      simp [Trace.times, hOther] at hLast
    have hInside := (List.getElem?_eq_some_iff.mp hAt).1
    obtain ⟨_, hStore⟩ := hStops₁ hReached (by omega)
    rw [hAt] at hStore
    exact ⟨n - m.steps, e, by omega, hOp, Option.some.inj hStore, hAt⟩

/- A run comes to what is in the trace of its passes. -/
theorem OneBlock.comesTo_of_event (hOne : f.OneBlock params b xs p x o)
    (hArgs : params.length = args.length)
    (hAt : (p.passes (f.graph.actOf x o) o n (m.store.assignAll (params.zip args)))[k]? = some e) :
    ∃ s, f.ComesTo args m (m.steps + k) e.1.op s ∧ s.store = e.2 := by
  have hMore := passes_le (k := n + (m.steps + k + 2)) (by omega) hAt
  generalize hTrace : p.passes (f.graph.actOf x o) o (n + (m.steps + k + 2))
    (m.store.assignAll (params.zip args)) = t at hMore
  have hInside := (List.getElem?_eq_some_iff.mp hMore).1
  rcases hOne.outcome hArgs m (m.steps + k) hTrace (by omega) with
    ⟨r₁, s₁, hRun₁, hCounts₁, hStops₁⟩
  obtain ⟨r₂, s₂, hRun₂, hCounts₂, _⟩ := hOne.outcome hArgs m (m.steps + k + 1) hTrace (by omega)
  have hShift : m.steps + k - m.steps = k := by omega
  have hShift' : m.steps + k + 1 - m.steps = k + 1 := by omega
  obtain ⟨rfl, hStore⟩ := hStops₁ (by omega) (by omega)
  rw [hShift, hMore] at hStore
  refine ⟨s₁, ⟨hRun₁, r₂, s₂, hRun₂, ?_⟩, (Option.some.inj hStore).symm⟩
  rw [hCounts₁, hCounts₂, hShift, hShift', take_add_one, hMore, Trace.times_append]
  simp only [toList_some, Trace.times, countP_singleton,
    decide_true, if_true]
  omega

/- A pass of a run, from a store on, after a number of operations. -/
structure PassAt (f : Function) (p : Prog) (last : Act) (args : List Datum) (m : Machine)
    (base : Nat) (τ : Store) : Prop where
  comes {j : Nat} {e : Act × Store} (hAt : (p.pass last τ).1[j]? = some e) :
    ∃ s, f.ComesTo args m (base + j) e.1.op s ∧ s.store = e.2
  event {j : Nat} {e : Act × Store} {h : OpId} {s : Machine} (hAt : (p.pass last τ).1[j]? = some e)
    (hComes : f.ComesTo args m (base + j) h s) : e.1.op = h ∧ s.store = e.2

/- What holds wherever a run comes to, up to a place in a pass. -/
theorem PassAt.holds {Q : Store → Prop} (hPass : f.PassAt p last args m base τ)
    (hTrace : (p.pass last τ).1 = t ++ e :: u)
    (hHolds : ∀ k h r, k ≤ base + t.length → f.ComesTo args m k h r → Q r.store) :
    ∀ e' ∈ t ++ [e], Q e'.2 := by
  intro e' hMem
  obtain ⟨j, hAt⟩ := List.getElem?_of_mem hMem
  have hLess := (List.getElem?_eq_some_iff.mp hAt).1
  rw [length_append, length_singleton] at hLess
  have hAt' : (p.pass last τ).1[j]? = some e' := by
    rw [hTrace, append_cons, List.getElem?_append_left]
    · exact hAt
    · rwa [length_append, length_singleton]
  obtain ⟨r, hComes, hStore⟩ := hPass.comes hAt'
  exact hStore ▸ hHolds (base + j) _ r (by omega) hComes

/- What a run comes to, it comes to in a pass. -/
theorem OneBlock.pass_of_comesTo {Q : Store → Prop} (hOne : f.OneBlock params b xs p x o)
    (hNext : ∀ {τ τ'}, Q τ → o.again? (p.pass (f.graph.actOf x o) τ) = some τ' → Q τ')
    (hHolds : Q (m.store.assignAll (params.zip args))) (hComes : f.ComesTo args m n h s) :
    ∃ base τ t e u, f.PassAt p (f.graph.actOf x o) args m base τ ∧ Q τ ∧
      (p.pass (f.graph.actOf x o) τ).1 = t ++ e :: u ∧
      n = base + t.length ∧ e.1.op = h ∧ e.2 = s.store := by
  have hArgs := hOne.length_args hComes
  obtain ⟨k, e, rfl, hOp, hStore, hAt⟩ := hOne.event_of_comesTo hComes
  obtain ⟨base, τ, i, rfl, hHolds', hEvent, hOthers⟩ := exists_pass hNext hHolds hAt
  have hPass : f.PassAt p (f.graph.actOf x o) args m (m.steps + base) τ := by
    constructor
    · intro j e' hAt'
      rw [Nat.add_assoc]
      exact hOne.comesTo_of_event hArgs (hOthers j e' hAt')
    · intro j e' h' s' hAt' hComes'
      obtain ⟨k', e'', hIndex, hOp', hStore', hAt''⟩ := hOne.event_of_comesTo hComes'
      have hSame : k' = base + j := by omega
      subst hSame
      -- both are in the longer one of two traces
      have hFirst := passes_le (Nat.le_add_right _ (m.steps + base + j + 2)) (hOthers j e' hAt')
      have hSecond := passes_le (Nat.le_add_left _ (m.steps + (base + i) + 2)) hAt''
      cases hFirst.symm.trans hSecond
      exact ⟨hOp', hStore'.symm⟩
  have hInside := (List.getElem?_eq_some_iff.mp hEvent).1
  refine ⟨m.steps + base, τ, (p.pass (f.graph.actOf x o) τ).1.take i, e,
    (p.pass (f.graph.actOf x o) τ).1.drop (i + 1), hPass, hHolds', ?_, ?_, hOp, hStore⟩
  · rw [← (List.getElem?_eq_some_iff.mp hEvent).2, getElem_cons_drop, take_append_drop]
  · rw [length_take_of_le (by omega)]
    omega

end Function

end AffineIR
