import AffineIR.Proofs.Run.Vectors

/-
  Where a run stands when it executes an operation.

  A run that may only execute `n` more operations stops in
  front of the next one.  The machines in which the whole run
  executes an operation are those where one operation more
  counts it.  If the operations unfold into a program, these
  machines hold the stores in which the trace of the program
  has the operation.

  Main declarations:
    * `Graph.Unfolds.run_of_nest`, `Graph.Unfolds.traces`
-/

namespace AffineIR

open List

------
-- Standing
------

namespace Exec

/- Run an operation and what is in it. -/
def nest (g : Graph) (root : OpId) : Exec Flow := do
  let limit := (← get).limit
  ops g (region g (blockUpTo g limit)) [root]

/- Where a run stands when it has executed `n` operations. -/
def standing {α : Type} (x : Exec α) (m : Machine) (n : Nat) : Machine :=
  (outcome x { m with limit := m.steps + n }).2

/- The machines in which a run executes an operation. -/
def visits {α : Type} (x : Exec α) (m : Machine) (h : OpId) : List Machine :=
  ((List.range ((outcome x m).2.steps - m.steps)).filter fun n =>
    (standing x m n).count h < (standing x m (n + 1)).count h).map (standing x m)

end Exec

namespace Trace

variable {t : Trace} {h : OpId}

theorem take_succ_of_getElem? {n : Nat} {e : Act × Store}
    (hAt : t[n]? = some e) : t.take (n + 1) = t.take n ++ [e] := by
  rw [take_add_one, hAt]
  rfl

theorem times_singleton {e : Act × Store} : Trace.times [e] h = if e.1.op = h then 1 else 0 := by
  simp [times, countP_cons]

end Trace

namespace Exec

open Prog

variable {x : Exec Flow} {m : Machine} {t : Trace} {h : OpId}

theorem outcome_get (m : Machine) : outcome (get : Exec Machine) m = (.ok m, m) :=
  rfl

/- What a run of a trace counts, and where it stands in it. -/
structure Traces (x : Exec Flow) (m : Machine) (t : Trace) : Prop where
  steps : (outcome x m).2.steps = m.steps + t.length
  store (n : Nat) (hInside : n < t.length) : t[n]?.map Prod.snd = some (standing x m n).store
  counts (n : Nat) (hInside : n ≤ t.length) (h : OpId) :
    (standing x m n).count h = m.count h + Trace.times (t.take n) h

/- A run is at an operation where its trace has it. -/
theorem Traces.visits
    (hTraces : Traces x m t) : (Exec.visits x m h).map Machine.store = t.visits h := by
  unfold Exec.visits
  rw [hTraces.steps, Nat.add_sub_cancel_left, map_map]
  -- the positions up to `n` give the visits up to `n`
  suffices hPrefix : ∀ n ≤ t.length, ((List.range n).filter fun n =>
        decide ((standing x m n).count h < (standing x m (n + 1)).count h)).map
          (Machine.store ∘ standing x m) = Trace.visits (t.take n) h by
    have hAll := hPrefix t.length (Nat.le_refl _)
    rwa [take_length] at hAll
  intro n hLe
  induction n with
  | zero => rfl
  | succ n ih =>
    have hInside : n < t.length := hLe
    rcases List.getElem?_eq_some_iff.mpr ⟨hInside, rfl⟩ with hAt
    have hStore := hTraces.store n hInside
    rw [hAt, Option.map_some, Option.some.injEq] at hStore
    rw [range_succ, filter_append, map_append,
      ih (by omega), Trace.take_succ_of_getElem? hAt, Trace.visits_append]
    congr 1
    rw [filter_cons, filter_nil, hTraces.counts n (by omega),
      hTraces.counts (n + 1) hLe, Trace.take_succ_of_getElem? hAt,
      Trace.times_append, Trace.times_singleton]
    by_cases hHere : t[n].1.op = h
    · simp [Trace.visits, hHere, hStore]
    · simp [Trace.visits, hHere]

end Exec

namespace Graph

open Prog

variable {g : Graph} {b : BlockId} {root : OpId} {p : Prog} {m m' : Machine} {flow : Flow}

theorem outcome_nest (g : Graph) (root : OpId) (m : Machine) :
    Exec.outcome (Exec.nest g root) m = Exec.outcome
        (Exec.ops g (Exec.region g (Exec.blockUpTo g m.limit)) [root]) m := by
  unfold Exec.nest
  rw [Exec.outcome_bind, Exec.outcome_get]

/- A machine that is past its limit executes nothing. -/
theorem steps_le_of_nest
    (hOutcome : Exec.outcome (Exec.nest g root) m = (.ok flow, m')) : m.steps ≤ m.limit := by
  apply Decidable.byContradiction
  intro hPast
  rw [outcome_nest, Exec.ops_cons, Exec.outcome_bind, Exec.outcome_bind,
    Exec.outcome_tick_of_lt root (by omega)] at hOutcome
  cases hOutcome

/- A nest that is run to its end runs the program it unfolds into. -/
theorem Unfolds.run_of_nest (hUnfolds : g.Unfolds b [root] p)
    (hOutcome : Exec.outcome (Exec.nest g root) m = (.ok flow, m')) :
    ∃ t σ, p.run m.store = some (t, σ) ∧ m.After t σ m' ∧ m.steps + t.length ≤ m.limit := by
  have hPlays := (hUnfolds.follows m.limit).plays (by omega) (steps_le_of_nest hOutcome)
  rw [outcome_nest] at hOutcome
  rw [hOutcome] at hPlays
  generalize hPlay : p.play m.store = play at hPlays
  cases hPlays with
  | @ends t σ _ _ hLimit _ hAfter => exact ⟨t, σ, play_eq_ok_iff.mp hPlay, hAfter, hLimit⟩

/- A nest that is run to its end goes through the trace of its program. -/
theorem Unfolds.traces {t : Trace} {σ : Store} (hUnfolds : g.Unfolds b [root] p)
    (hOutcome : Exec.outcome (Exec.nest g root) m = (.ok flow, m'))
    (hRun : p.run m.store = some (t, σ))
    (hAfter : m.After t σ m') : Exec.Traces (Exec.nest g root) m t := by
  have hPlay : p.play m.store = (t, .ok σ) := play_eq_ok_iff.mpr hRun
  have hFollows (n : Nat) := hUnfolds.follows (m.steps + n)
  -- with a limit inside the trace the run stops there
  have hStops (n : Nat) (hInside : n < t.length) :
      Machine.Stops { m with limit := m.steps + n } t (Exec.standing (Exec.nest g root) m n) := by
    rcases (hFollows n).stops (m := { m with limit := m.steps + n })
      (by change m.steps + n ≤ m.steps + n + m.steps; omega) (Nat.le_add_right ..) hPlay
      (by change m.steps + n < m.steps + t.length; omega) with ⟨m₁, hStopped, hStops⟩
    unfold Exec.standing
    rwa [outcome_nest, hStopped]
  have hEnd : Machine.After { m with limit := m.steps + t.length } t σ
      (Exec.standing (Exec.nest g root) m t.length) := by
    rcases (hFollows t.length).ok (m := { m with limit := m.steps + t.length })
      (by change m.steps + t.length ≤ m.steps + t.length + m.steps; omega)
      hPlay (Nat.le_refl _) with ⟨m₁, hDone, hAfter⟩
    unfold Exec.standing
    rwa [outcome_nest, hDone]
  refine ⟨by rw [hOutcome]; exact hAfter.steps, ?_, ?_⟩
  · intro n hInside
    have hStore := (hStops n hInside).store
    rwa [show m.steps + n - m.steps = n by omega] at hStore
  · intro n hInside h
    rcases Nat.lt_or_eq_of_le hInside with hLt | rfl
    · have hCounts := (hStops n hLt).counts h
      rwa [show m.steps + n - m.steps = n by omega] at hCounts
    · rw [take_length]
      exact hEnd.counts h

end Graph

end AffineIR
