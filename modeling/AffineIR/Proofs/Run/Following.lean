import AffineIR.Proofs.Run.Play

/-
  Computations that follow a program step by step.

  A computation follows a program if it leaves the store that
  the program leaves, counts the operations of its trace, and
  stops in front of the first one that the limit does not
  allow.  It fails where the program does.

  Main result: `Exec.follows_iterate`
-/

namespace AffineIR

open List

variable {m m' m₁ m₂ m₃ : Machine} {t t' : Trace} {σ σ' : Store} {fuel : Nat} {r : Store → Play}

/- How often an operation is executed in a trace. -/
def Trace.times (t : Trace) (h : OpId) : Nat := t.countP fun e => e.1.op = h

theorem Trace.times_append (t t' : Trace) (h : OpId) :
    Trace.times (t ++ t') h = t.times h + t'.times h := countP_append

namespace Machine

/- The machine after a trace that ends in a store. -/
structure After (m : Machine) (t : Trace) (σ : Store) (m' : Machine) : Prop where
  store : m'.store = σ
  steps : m'.steps = m.steps + t.length
  limit : m'.limit = m.limit
  counts (h : OpId) : m'.count h = m.count h + t.times h

/- The machine in front of the event of a trace that exceeds the limit. -/
structure Stops (m : Machine) (t : Trace) (m' : Machine) : Prop where
  store : (t[m.limit - m.steps]?).map Prod.snd = some m'.store
  counts (h : OpId) : m'.count h = m.count h + Trace.times (t.take (m.limit - m.steps)) h

/- The machine after a trace whose last action failed in a store. -/
structure Fails (m : Machine) (t : Trace) (σ : Store) (m' : Machine) : Prop where
  env : m'.store.env = σ.env
  counts (h : OpId) : m'.count h = m.count h + t.times h

theorem After.refl (m : Machine) : m.After [] m.store m := ⟨rfl, rfl, rfl, fun _ => rfl⟩

theorem After.trans (hFirst : m₁.After t σ m₂)
    (hSecond : m₂.After t' σ' m₃) : m₁.After (t ++ t') σ' m₃ where
  store := hSecond.store
  steps := by
    rw [hSecond.steps, hFirst.steps, length_append]
    omega
  limit := hSecond.limit.trans hFirst.limit
  counts h := by
    rw [hSecond.counts, hFirst.counts, Trace.times_append]
    omega

theorem After.fails (hFirst : m₁.After t σ m₂)
    (hSecond : m₂.Fails t' σ' m₃) : m₁.Fails (t ++ t') σ' m₃ where
  env := hSecond.env
  counts h := by
    rw [hSecond.counts, hFirst.counts, Trace.times_append]
    omega

theorem SameCounters.count (hSame : m.SameCounters m') (h : OpId) : m'.count h = m.count h := by
  unfold Machine.count
  rw [hSame.counts]

theorem SameCounters.fails (hSame : m.SameCounters m')
    (hEnv : m'.store.env = σ.env) : m.Fails [] σ m' :=
  ⟨hEnv, hSame.count⟩

/- A trace that exceeds the limit, and more behind it. -/
theorem Stops.append (t' : Trace) (hStops : m.Stops t m') : m.Stops (t ++ t') m' := by
  have hInside : m.limit - m.steps < t.length := by
    apply Decidable.byContradiction
    intro hOutside
    have hNone := hStops.store
    rw [List.getElem?_eq_none (by omega)] at hNone
    cases hNone
  constructor
  · rw [List.getElem?_append_left hInside]
    exact hStops.store
  · intro h
    rw [take_append_of_le_length (by omega)]
    exact hStops.counts h

/- A trace within the limit, and one that exceeds it behind. -/
theorem After.stops (hLimit : m₁.steps + t.length ≤ m₁.limit) (hFirst : m₁.After t σ m₂)
    (hSecond : m₂.Stops t' m₃) : m₁.Stops (t ++ t') m₃ := by
  have hShift : m₁.limit - m₁.steps = t.length + (m₂.limit - m₂.steps) := by
    rw [hFirst.limit, hFirst.steps]
    omega
  constructor
  · rw [hShift, List.getElem?_append_right (by omega), Nat.add_sub_cancel_left]
    exact hSecond.store
  · intro h
    rw [hShift, take_length_add_append, Trace.times_append, hSecond.counts, hFirst.counts]
    omega

theorem SameCounters.after (hSame : m.SameCounters m') : m.After [] m'.store m' :=
  ⟨rfl, hSame.steps, hSame.limit, hSame.count⟩

/-
  What a machine makes of a play.  It stops where the play
  exceeds the limit, and fails where the play fails.  At the end
  of the play it answers what `leave` says about the store.
-/
inductive Plays (m : Machine)
    (leave : Store → Option Flow) : Play → Except Failure Flow × Machine → Prop where
  | ends {t : Trace} {σ : Store} {result : Except Failure Flow} {m' : Machine}
    (hLimit : m.steps + t.length ≤ m.limit) (hLeave : result.toOption = leave σ)
    (hAfter : m.After t σ m') : Plays m leave (t, .ok σ) (result, m')
  | fails {t : Trace} {σ : Store} {e : Failure} {m' : Machine}
    (hLimit : m.steps + t.length ≤ m.limit) (hFails : m.Fails t σ m') :
    Plays m leave (t, .error σ) (.error e, m')
  | stops {t : Trace} {last : Except Store Store} {m' : Machine}
    (hLimit : m.limit < m.steps + t.length) (hStops : m.Stops t m') :
    Plays m leave (t, last) (.error (.trap (.stepLimit m.limit)), m')

namespace Plays

variable {leave : Store → Option Flow} {play : Play} {out : Except Failure Flow × Machine}

theorem to_end (hPlays : m.Plays leave (t, .ok σ) out) (hLimit : m.steps + t.length ≤ m.limit) :
    ∃ result m', out = (result, m') ∧ result.toOption = leave σ ∧ m.After t σ m' := by
  cases hPlays with
  | ends _ hLeave hAfter => exact ⟨_, _, rfl, hLeave, hAfter⟩
  | stops hOver => omega

theorem to_failure (hPlays : m.Plays leave (t, .error σ) out)
    (hLimit : m.steps + t.length ≤ m.limit) : ∃ e m', out = (.error e, m') ∧ m.Fails t σ m' := by
  cases hPlays with
  | fails _ hFails => exact ⟨_, _, rfl, hFails⟩
  | stops hOver => omega

theorem to_stop (hPlays : m.Plays leave play out) (hLimit : m.limit < m.steps + play.1.length) :
    ∃ m', out = (.error (.trap (.stepLimit m.limit)), m') ∧ m.Stops play.1 m' := by
  cases hPlays with
  | ends hWithin | fails hWithin => exact absurd hLimit (Nat.not_lt.mpr hWithin)
  | stops _ hStops => exact ⟨_, rfl, hStops⟩

/- What is counted is what is in front of the limit. -/
theorem counts (hPlays : m.Plays leave play out) (h : OpId) :
    out.2.count h = m.count h + Trace.times (play.1.take (m.limit - m.steps)) h := by
  cases hPlays with
  | ends hLimit _ hAfter =>
    rw [take_of_length_le (Nat.le_sub_of_add_le' hLimit)]
    exact hAfter.counts h
  | fails hLimit hFails =>
    rw [take_of_length_le (Nat.le_sub_of_add_le' hLimit)]
    exact hFails.counts h
  | stops _ hStops => exact hStops.counts h

end Plays

/- A trace within the limit, and a play behind it. -/
theorem After.plays
    {leave : Store → Option Flow} {play : Play} {out : Except Failure Flow × Machine}
    (hFirst : m₁.After t σ m₂) (hLimit : m₁.steps + t.length ≤ m₁.limit)
    (hPlays : m₂.Plays leave play out) : m₁.Plays leave (t ++ play.1, play.2) out := by
  have hSteps := hFirst.steps
  have hSame := hFirst.limit
  cases hPlays with
  | ends hMore hLeave hAfter =>
    exact .ends (by simp only [length_append]; omega) hLeave (hFirst.trans hAfter)
  | fails hMore hFails => exact .fails (by simp only [length_append]; omega) (hFirst.fails hFails)
  | stops hOver hStops =>
    rw [hSame]
    exact .stops (by simp only [length_append]; omega) (hFirst.stops hLimit hStops)

/- A computation that plays to its end, and one behind it. -/
theorem Plays.bind
    {x : Exec Flow} {k : Flow → Exec Flow} {leave : Store → Option Flow} {play : Play}
    (hFirst : m.Plays (fun _ => some .done) play (Exec.outcome x m))
    (hSecond : ∀ m₁ : Machine, m₁.limit = m.limit → m.steps ≤ m₁.steps → m₁.steps ≤ m₁.limit →
      m₁.Plays leave (r m₁.store) (Exec.outcome (k .done) m₁)) :
    m.Plays leave (Prog.andPlay play r) (Exec.outcome (x >>= k) m) := by
  rw [Exec.outcome_bind]
  generalize Exec.outcome x m = out at hFirst ⊢
  cases hFirst with
  | @ends t σ result m₁ hLimit hLeave hAfter =>
    cases result <;> cases hLeave
    have hSteps := hAfter.steps
    have hSame := hAfter.limit
    have hRest := hSecond m₁ hSame (by omega) (by omega)
    rw [hAfter.store] at hRest
    exact hAfter.plays hLimit hRest
  | fails hLimit hFails => exact .fails hLimit hFails
  | @stops t last m₁ hOver hStops =>
    cases last with
    | error => exact .stops hOver hStops
    | ok =>
      refine .stops ?_ (hStops.append _)
      rw [length_append]
      omega

end Machine

namespace Exec

open Prog

/-
  A computation follows what `r` says about stores.  The fuel
  covers the blocks that the limit allows to be entered.
-/
structure Follows (fuel : Nat) (x : Exec Flow) (r : Store → Play) : Prop where
  ok {m : Machine} {t : Trace} {σ : Store} (hFuel : m.limit ≤ fuel + m.steps)
    (hPlay : r m.store = (t, .ok σ)) (hLimit : m.steps + t.length ≤ m.limit) :
    ∃ m', outcome x m = (.ok .done, m') ∧ m.After t σ m'
  fails {m : Machine} {t : Trace} {σ : Store} (hFuel : m.limit ≤ fuel + m.steps)
    (hPlay : r m.store = (t, .error σ)) (hLimit : m.steps + t.length ≤ m.limit) :
    ∃ e m', outcome x m = (.error e, m') ∧ m.Fails t σ m'
  stops {m : Machine} {t : Trace} {last : Except Store Store} (hFuel : m.limit ≤ fuel + m.steps)
    (hSteps : m.steps ≤ m.limit) (hPlay : r m.store = (t, last))
    (hLimit : m.limit < m.steps + t.length) :
    ∃ m', outcome x m = (.error (.trap (.stepLimit m.limit)), m') ∧ m.Stops t m'

namespace Follows

variable {x : Exec Flow} {s : Store → Play}

theorem of_plays
    (hPlays : ∀ ⦃m : Machine⦄, m.limit ≤ fuel + m.steps → m.steps ≤ m.limit →
      m.Plays (fun _ => some .done) (r m.store) (outcome x m)) : Follows fuel x r where
  ok {m t σ} hFuel hPlay hLimit := by
    have hHere := hPlays hFuel (by omega)
    rw [hPlay] at hHere
    obtain ⟨flow, m', hOutcome, hFlow, hAfter⟩ := hHere.to_end hLimit
    cases flow <;> cases hFlow
    exact ⟨m', hOutcome, hAfter⟩
  fails {m t σ} hFuel hPlay hLimit := (hPlay ▸ hPlays hFuel (by omega)).to_failure hLimit
  stops {m t last} hFuel hSteps hPlay hLimit :=
    (hPlay ▸ hPlays hFuel hSteps : m.Plays _ (t, last) _).to_stop hLimit

theorem plays (hFollows : Follows fuel x r) (hFuel : m.limit ≤ fuel + m.steps)
    (hSteps : m.steps ≤ m.limit) : m.Plays (fun _ => some .done) (r m.store) (outcome x m) := by
  cases hPlay : r m.store with
  | mk t last =>
    by_cases hLimit : m.steps + t.length ≤ m.limit
    · cases last with
      | ok σ =>
        obtain ⟨m', hOutcome, hAfter⟩ := hFollows.ok hFuel hPlay hLimit
        exact hOutcome ▸ .ends hLimit rfl hAfter
      | error σ =>
        obtain ⟨e, m', hOutcome, hFails⟩ := hFollows.fails hFuel hPlay hLimit
        exact hOutcome ▸ .fails hLimit hFails
    · obtain ⟨m', hOutcome, hStops⟩ := hFollows.stops hFuel hSteps hPlay (by omega)
      exact hOutcome ▸ .stops (by omega) hStops

theorem congr (hFollows : Follows fuel x r) (hSame : ∀ σ, s σ = r σ) : Follows fuel x s :=
  funext hSame ▸ hFollows

/- Nothing is done and nothing is counted. -/
theorem done (fuel : Nat) : Follows fuel (pure .done) fun σ => ([], .ok σ) :=
  of_plays fun m _ hSteps => .ends hSteps rfl (.refl m)

/- One computation after the other. -/
theorem seq {k : Flow → Exec Flow} (hFirst : Follows fuel x r)
    (hSecond : Follows fuel (k .done) s) : Follows fuel (x >>= k) fun σ => andPlay (r σ) s := by
  refine of_plays fun m hFuel hSteps => (hFirst.plays hFuel hSteps).bind ?_
  intro m₁ hLimit hMore hSteps₁
  exact hSecond.plays (by omega) hSteps₁

/- A failure. -/
theorem throw (fuel : Nat) (e : Failure) :
    Follows fuel (MonadExcept.throw e) fun σ => ([], .error σ) :=
  of_plays fun m _ hSteps => .fails hSteps ((Machine.SameCounters.refl m).fails rfl)

/- A failure ends what comes after it. -/
theorem abort {α : Type} (fuel : Nat) (e : Failure)
    (k : α → Exec Flow) : Follows fuel (MonadExcept.throw e >>= k) fun σ => ([], .error σ) :=
  throw fuel e

/- A change of the store that is not counted. -/
theorem acts {α : Type} {q : Exec α} {f : Store → Option (α × Store)} {k : α → Exec Flow}
    {r : α → Store → Play} (hActs : Acts q f) (hRest : ∀ a, Follows fuel (k a) (r a)) :
    Follows fuel (q >>= k) fun σ =>
      orFail (f σ) σ fun (a, σ') => r a σ' := by
  refine of_plays fun m hFuel hSteps => ?_
  rw [outcome_bind]
  cases hF : f m.store with
  | none =>
    obtain ⟨e, m₁, hError, hEnv, hSame⟩ := hActs.fails hF
    rw [hError]
    exact .fails hSteps (hSame.fails hEnv)
  | some result =>
    obtain ⟨a, σ₁⟩ := result
    obtain ⟨m₁, hOutcome, rfl, hSame⟩ := hActs.ok hF
    rw [hOutcome]
    rw [← hSame.limit, ← hSame.steps] at hFuel
    exact hSame.after.plays hSteps
      ((hRest a).plays hFuel (by rwa [hSame.limit, hSame.steps]))

/- A question, then a computation that depends on the answer. -/
theorem read
    {α : Type} {q : Exec α} {f : Store → Option α} {k : α → Exec Flow} {r : α → Store → Play}
    (hReads : Reads q f) (hRest : ∀ a, Follows fuel (k a) (r a)) :
    Follows fuel (q >>= k) fun σ => orFail (f σ) σ fun a => r a σ := by
  refine (acts (.ofReads hReads) hRest).congr fun σ => ?_
  cases f σ <;> rfl

/- A change of the store that ends an operation. -/
theorem of_acts {f : Store → Option Store}
    (hActs : Acts x fun σ => (f σ).map fun σ' => (.done, σ')) :
    Follows fuel x fun σ => orFail (f σ) σ fun σ' => ([], .ok σ') := by
  refine of_plays fun m hFuel hSteps => ?_
  cases hF : f m.store with
  | none =>
    obtain ⟨e, m₁, hError, hEnv, hSame⟩ := hActs.fails (m := m) (by rw [hF]; rfl)
    exact hError ▸ .fails hSteps (hSame.fails hEnv)
  | some σ₁ =>
    obtain ⟨m₁, hOutcome, rfl, hSame⟩ := hActs.ok (m := m) (by rw [hF]; rfl)
    exact hOutcome ▸ .ends hSteps rfl hSame.after

end Follows

theorem after_counted (m : Machine) (a : Act) :
    m.After [(a, m.store)] m.store (counted m a.op) where
  store := rfl
  steps := rfl
  limit := rfl
  counts h := by
    change ((m.counts.insert a.op (m.count a.op + 1)).get? h).getD 0 = _
    rw [Table.get?_insert]
    by_cases hSame : h = a.op
    · subst hSame
      simp [Trace.times]
    · have hOther : a.op ≠ h := fun hEq => hSame hEq.symm
      simp [Trace.times, hSame, hOther, Machine.count]

/- The limit may not allow the operation to be counted. -/
theorem stops_tick (a : Act) (t : Trace) (hSteps : m.steps ≤ m.limit)
    (hLimit : m.limit < m.steps + 1) :
    m.Stops ((a, m.store) :: t) { m with steps := m.steps + 1 } := by
  have hZero : m.limit - m.steps = 0 := by omega
  constructor <;> rw [hZero]
  · rfl
  · exact fun h => rfl

theorem plays_tick {k : Unit → Exec Flow} {leave : Store → Option Flow} (a : Act)
    (hSteps : m.steps ≤ m.limit)
    (hRest : m.steps + 1 ≤ m.limit →
      (counted m a.op).Plays leave (r m.store) (outcome (k ()) (counted m a.op))) :
    m.Plays leave (andPlay ([(a, m.store)], .ok m.store) r)
      (outcome (Exec.tick a.op >>= k) m) := by
  rw [outcome_bind]
  by_cases hLimit : m.steps + 1 ≤ m.limit
  · rw [outcome_tick_of_le a.op hLimit]
    exact (after_counted m a).plays hLimit (hRest hLimit)
  · rw [outcome_tick_of_lt a.op (by omega)]
    refine .stops ?_ (stops_tick a _ hSteps (by omega))
    rw [length_append, length_singleton]
    omega

/- Count an operation, then go on with what is left of the fuel. -/
theorem Follows.tick {x : Exec Flow} (a : Act) (hRest : ∀ k, fuel = k + 1 → Follows k x r) :
    Follows fuel (Exec.tick a.op >>= fun _ => x) fun σ =>
      andPlay ([(a, σ)], .ok σ) r := by
  refine of_plays fun m hFuel hSteps => plays_tick a hSteps fun hLimit => ?_
  have hAfter := after_counted m a
  refine (hRest (fuel - 1) (by omega)).plays ?_ ?_ <;>
    rw [hAfter.limit, hAfter.steps, length_singleton] <;> omega

/- The iterations of a loop follow the values of its variable. -/
theorem follows_iterate {body : Int → Exec Flow} {var : ValueId}
    (hBody : ∀ i, Follows fuel (body i) fun σ => r (σ.count var i)) (upper step : Int) (n : Nat)
    (i : Int) :
    Follows fuel (iterateUpTo body upper step n i)
      (playEach r var (Act.iterations upper step n i)) := by
  induction n generalizing i with
  | zero => exact Follows.done fuel
  | succ n ih =>
    unfold iterateUpTo Act.iterations
    by_cases hBelow : i < upper
    · rw [if_pos hBelow, if_pos hBelow]
      cases hNext : Word.add? i step with
      | none => exact (hBody i).seq (Follows.done fuel)
      | some next => exact (hBody i).seq (ih next)
    · rw [if_neg hBelow, if_neg hBelow]
      exact Follows.done fuel

end Exec

end AffineIR
