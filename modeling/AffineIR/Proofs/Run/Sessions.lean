import AffineIR.Proofs.Run.Passes

/-
  Machines that run one function.

  A machine starts empty.  Buffers are added to it, and it runs
  its function any number of times, with any outcome.  What it
  has bound then are parameters of the function and values of
  its program.

  Main result: `Function.Session.within`
-/

namespace AffineIR

open List Exec Store

open Prog

section Outcomes

variable {g : Graph} {b : BlockId} {xs : List OpId} {p : Prog} {x : OpId} {o : Operation}
  {m : Machine} {fuel : Nat} {Q : Store → Prop}

/- What a program preserves holds where a run through its block ends. -/
theorem Exec.holds_of_block (hCourse : g.Course b xs p x o) (hOnly : ∀ s ∈ o.successors, s = b)
    (hPreserves : p.Preserves Q) (hEnv : ∀ {σ τ : Store}, τ.env = σ.env → Q σ → Q τ)
    (hFuel : m.limit + 1 ≤ fuel + m.steps) (hSteps : m.steps ≤ m.limit)
    (hHolds : Q m.store) : Q (outcome (blockUpTo g fuel b) m).2.store := by
  induction fuel generalizing m with
  | zero => omega
  | succ fuel ih =>
    have hFuel' : m.limit ≤ fuel + m.steps := by omega
    obtain ⟨hEvents, hLast⟩ := hPreserves.pass (g.actOf x o) hHolds
    by_cases hLimit : m.limit < m.steps + (p.pass (g.actOf x o) m.store).1.length
    · obtain ⟨m₁, hOutcome, hStops⟩ := (plays_course fuel hCourse hFuel' hSteps).to_stop hLimit
      rw [hCourse.outcome_block, outcome_bind, hOutcome]
      obtain ⟨e, hAt, hStore⟩ := Option.map_eq_some_iff.mp hStops.store
      exact hStore ▸ hEvents e (mem_of_getElem? hAt)
    · rcases outcome_pass hCourse hOnly hFuel' (by omega) with
        ⟨r, m₁, hOutcome, _, hSame, _⟩ | ⟨σ, m₁, hOutcome, hNext, hAfter⟩
      · rw [hOutcome]
        exact hEnv hSame hLast
      · have hSome := length_pass_pos hNext
        rw [hOutcome]
        refine ih ?_ ?_ ?_
        · rw [hAfter.limit, hAfter.steps]
          omega
        · rw [hAfter.limit, hAfter.steps]
          omega
        · rwa [hAfter.store, ← store_of_again? hNext]

end Outcomes

/- Preparing the contents of a buffer changes nothing. -/
theorem Exec.outcome_initialData (shape : Shape) (element : Ty) (init : Option (List Literal))
    (m : Machine) : (outcome (initialData shape element init) m).2 = m := by
  unfold initialData
  split
  · rfl
  · rw [outcome_bind]
    cases shape.numElements with
    | error e => rfl
    | ok n =>
      dsimp only [ask]
      rw [outcome_pure]
      dsimp only
      split
      · rfl
      · split <;> rfl

/- Adding a buffer binds nothing. -/
theorem Exec.env_allocBuffer (ty : Ty) (init : Option (List Literal))
    (m : Machine) : (outcome (allocBuffer ty init) m).2.env = m.env := by
  cases ty with
  | memref shape element =>
    have hSame := outcome_initialData shape element init m
    unfold allocBuffer
    dsimp only
    rw [outcome_bind]
    generalize outcome (initialData shape element init) m = r at hSame ⊢
    obtain ⟨e | data, m'⟩ := r
    · exact congrArg Machine.env hSame
    · cases hSame
      rfl
  | _ => rfl

namespace Function

variable {f : Function} {params : List ValueId} {b : BlockId} {xs : List OpId} {p : Prog} {x : OpId}
  {o : Operation} {args : List Datum} {m : Machine} {Q : Store → Prop}

theorem OneBlock.holds_of_run (hOne : f.OneBlock params b xs p x o) (hPreserves : p.Preserves Q)
    (hEnv : ∀ {σ τ : Store}, τ.env = σ.env → Q σ → Q τ) (hHolds : Q m.store)
    (hStart : Q (m.store.assignAll (params.zip args))) :
    Q (Exec.outcome (f.run args) m).2.store := by
  by_cases hArgs : params.length = args.length
  · obtain ⟨m₁, hStore, hSame, hRun⟩ := outcome_run hOne.starts hArgs m
    rw [← hStore] at hStart
    have hBlock : Q (Exec.outcome (Exec.blockUpTo f.graph (m.limit + 1) b) m₁).2.store := by
      by_cases hSteps : m₁.steps ≤ m₁.limit
      · refine holds_of_block hOne.course hOne.only hPreserves hEnv ?_ hSteps hStart
        rw [hSame.limit]
        omega
      · rcases outcome_exhausted (m := m₁) m.limit hOne.course (by omega) with
          ⟨m₂, hOutcome, hStore', _⟩
        rwa [hOutcome, hStore']
    rw [hRun, outcome_bind]
    generalize Exec.outcome (Exec.blockUpTo f.graph (m.limit + 1) b) m₁ = r at hBlock ⊢
    obtain ⟨e | flow, m₂⟩ := r
    · exact hBlock
    · exact hBlock
  · unfold run
    rw [hOne.starts.params]
    simp only [Exec.ask, pure_bind, ne_eq, hArgs, not_false_eq_true, if_true]
    exact hHolds

------
-- Sessions
------

/-
  Machines for a function: new ones, and those with another
  limit, with more buffers or after a run of the function.
-/
inductive Session (f : Function) : Machine → Prop
  | new : Session f {}
  | limit {m : Machine} (n : Nat) (hBefore : Session f m) :
      Session f { m with limit := n }
  | alloc {m : Machine} (ty : Ty) (init : Option (List Literal)) (hBefore : Session f m) :
      Session f (Exec.outcome (Exec.allocBuffer ty init) m).2
  | run {m : Machine} (args : List Datum) (hBefore : Session f m) :
      Session f (Exec.outcome (f.run args) m).2

end Function

/- Only parameters and what a program binds have a datum. -/
def Store.Within (σ : Store) (params : List ValueId) (p : Prog) : Prop :=
  ∀ ⦃v⦄, σ.env v ≠ none → v ∈ params ∨ p.Binds v

theorem Prog.preserves_within (p : Prog) (params : List ValueId) :
    p.Preserves fun σ => σ.Within params p where
  refl σ hWithin := ⟨nofun, hWithin⟩
  trans hFirst hSecond hWithin := by
    obtain ⟨hEvents, hBetween⟩ := hFirst hWithin
    obtain ⟨hEvents', hLast⟩ := hSecond hBetween
    exact ⟨fun e hMem => (mem_append.mp hMem).elim (hEvents e) (hEvents' e), hLast⟩
  head a σ hWithin := ⟨fun e hMem => mem_singleton.mp hMem ▸ hWithin, hWithin⟩
  step {a σ σ'} hDoes hStep hWithin := by
    refine ⟨fun e hMem => mem_singleton.mp hMem ▸ hWithin, ?_⟩
    intro v hSome
    by_cases hBound : v ∈ a.bound
    · exact .inr (binds_iff.mpr (.inl ⟨a, hDoes, hBound⟩))
    · exact hWithin (Act.env_of_step hStep hBound ▸ hSome)
  count {var} hCounts σ i hWithin := by
    refine ⟨nofun, ?_⟩
    intro v hSome
    by_cases hVar : v = var
    · exact .inr (binds_iff.mpr (.inr (hVar ▸ hCounts)))
    · rw [Store.count, env_assign_of_ne _ _ hVar] at hSome
      exact hWithin hSome

theorem Store.env_assignAll {σ : Store} {bindings : List (ValueId × Datum)} {v : ValueId}
    (hFree : ∀ d, (v, d) ∉ bindings) : (σ.assignAll bindings).env v = σ.env v := by
  induction bindings generalizing σ with
  | nil => rfl
  | cons e rest ih =>
    have hOther : v ≠ e.1 := fun hSame => hFree e.2 (hSame ▸ mem_cons_self)
    have hRest := ih (σ := σ.assign e.1 e.2) fun d hMem => hFree d (mem_cons_of_mem _ hMem)
    rwa [env_assign_of_ne _ _ hOther] at hRest

theorem Store.Within.assignAll {σ : Store} {params : List ValueId} {p : Prog}
    (hWithin : σ.Within params p)
    (args : List Datum) : (σ.assignAll (params.zip args)).Within params p := by
  intro v hSome
  by_cases hMem : v ∈ params
  · exact .inl hMem
  · refine hWithin ?_
    rwa [env_assignAll fun d hIn => hMem (of_mem_zip hIn).1] at hSome

/- What a machine for a function has bound. -/
theorem Function.Session.within
    {f : Function} {params : List ValueId} {b : BlockId} {xs : List OpId} {p : Prog} {x : OpId}
    {o : Operation} {m : Machine} (hSession : f.Session m)
    (hOne : f.OneBlock params b xs p x o) : m.store.Within params p := by
  induction hSession with
  | new =>
    intro v hSome
    exact absurd rfl hSome
  | limit n hBefore ih => exact ih
  | @alloc m ty init hBefore ih =>
    intro v hSome
    refine ih ?_
    rwa [Machine.store, env_allocBuffer] at hSome
  | run args hBefore ih =>
    exact hOne.holds_of_run (p.preserves_within params)
      (fun hSame hWithin v hSome => hWithin (hSame ▸ hSome)) ih (ih.assignAll args)

end AffineIR
