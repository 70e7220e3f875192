import AffineIR.Proofs.Graph.Bodies

/-
  Runs that return.

  No operation of a run that returns has failed: every action
  that the run comes to, other than control flow, takes its
  step there.

  Main result: `Function.Whole.step_of_comesTo`
-/

namespace AffineIR

open List

variable {values : List Datum} {is : List Int} {o : Operation}

namespace Act

variable {a : Act} {σ : Store}

/- What has iterations is a loop. -/
theorem isControl_of_values? (hValues : a.values? σ = some is) : a.kind.isControl = true := by
  unfold values? at hValues
  split at hValues
  next hKind =>
    rw [hKind]
    rfl
  next => cases hValues

/- What has a condition is a conditional. -/
theorem isControl_of_holds? {taken : Bool}
    (hHolds : a.holds? σ = some taken) : a.kind.isControl = true := by
  unfold holds? at hHolds
  split at hHolds
  next hKind =>
    rw [hKind]
    rfl
  next => cases hHolds

end Act

namespace Prog

variable {p : Prog} {σ τ : Store} {t : Trace} {e : Act × Store}

theorem step_of_mem_each {body : Prog} {var : ValueId}
    (hBody : ∀ {σ t τ}, body.run σ = some (t, τ) → e ∈ t → ∃ σ₁, e.1.step e.2 = some σ₁)
    (hEach : each body.run var is σ = some (t, τ))
    (hMem : e ∈ t) : ∃ σ₁, e.1.step e.2 = some σ₁ := by
  induction is generalizing σ t with
  | nil =>
    cases hEach
    cases hMem
  | cons i is ih =>
    obtain ⟨t₁, σ₁, t₂, hFirst, hRest, rfl⟩ := each_cons_iff.mp hEach
    rcases mem_append.mp hMem with hMem | hMem
    · exact hBody hFirst hMem
    · exact ih hRest hMem

/- The actions of a run that ends have taken their steps. -/
theorem step_of_mem_run (hRun : p.run σ = some (t, τ)) (hMem : e ∈ t)
    (hKind : e.1.kind.isControl = false) : ∃ σ₁, e.1.step e.2 = some σ₁ := by
  induction p generalizing σ t τ with
  | nil =>
    cases hRun
    cases hMem
  | act a rest ih =>
    obtain ⟨σ₁, t₁, hStep, hRest, rfl⟩ := run_act_iff.mp hRun
    rcases mem_cons.mp hMem with rfl | hMem
    · exact ⟨σ₁, hStep⟩
    · exact ih hRest hMem
  | loop a var body rest ihBody ih =>
    obtain ⟨is, t₁, σ₁, t₂, hValues, hEach, hRest, rfl⟩ := run_loop_iff.mp hRun
    rcases mem_cons.mp hMem with rfl | hMem
    · cases (Act.isControl_of_values? hValues).symm.trans hKind
    rcases mem_append.mp hMem with hMem | hMem
    · exact step_of_mem_each ihBody hEach hMem
    · exact ih hRest hMem
  | cond a branch rest ihBranch ih =>
    obtain ⟨taken, t₁, σ₁, t₂, hHolds, hBranch, hRest, rfl⟩ := run_cond_iff.mp hRun
    rcases mem_cons.mp hMem with rfl | hMem
    · cases (Act.isControl_of_holds? hHolds).symm.trans hKind
    rcases mem_append.mp hMem with hMem | hMem
    · exact ihBranch taken hBranch hMem
    · exact ih hRest hMem

end Prog

namespace Graph

variable {g : Graph} {b : BlockId} {xs : List OpId} {p q : Prog} {w : List Prog.Mark} {σ τ : Store}
  {t : Trace} {e : Act × Store}

/- What a way leads to is unfolded, too. -/
theorem Unfolds.leads (hLeads : p.Leads w q)
    (hUnfolds : g.Unfolds b xs p) : ∃ b' ys, g.Unfolds b' ys q := by
  induction hLeads generalizing b xs with
  | here => exact ⟨b, xs, hUnfolds⟩
  | act _ ih =>
    cases hUnfolds with
    | act _ _ _ hRest => exact ih hRest
  | body _ ih =>
    cases hUnfolds with
    | loop _ _ _ _ _ _ _ hBody _ => exact ih hBody
  | loop _ ih =>
    cases hUnfolds with
    | loop _ _ _ _ _ _ _ _ hRest => exact ih hRest
  | branch _ ih =>
    cases hUnfolds with
    | cond _ _ _ _ _ hInner _ => exact ih (hInner _)
  | cond _ ih =>
    cases hUnfolds with
    | cond _ _ _ _ _ _ hRest => exact ih hRest

/- What a run that ends comes to are operations. -/
theorem Unfolds.act_of_mem_run (hUnfolds : g.Unfolds b xs p) (hRun : p.run σ = some (t, τ))
    (hMem : e ∈ t) : ∃ o, g.op e.1.op = .ok o ∧ e.1 = g.actOf e.1.op o := by
  obtain ⟨w, t₁, q, hArrives, hHead⟩ := Prog.arrives_of_mem_run hRun hMem
  obtain ⟨b', ys, hThere⟩ := Unfolds.leads hArrives.leads hUnfolds
  obtain ⟨zs, o, _, hOp, hAct⟩ := hThere.head hHead
  exact ⟨o, hOp, hAct⟩

theorem Course.isControl {x : OpId} (hCourse : g.Course b xs p x o) : o.kind.isControl = true := by
  have hJumps := hCourse.jumps
  cases hKind : o.kind <;> simp [hKind, Kind.isJump] at hJumps <;> rfl

/- The actions of a trip have taken their steps. -/
theorem Trip.steps (hTrip : g.Trip b σ t values τ) (hMem : e ∈ t) (hOp : g.op e.1.op = .ok o)
    (hKind : o.kind.isControl = false) : ∃ σ₁, (g.actOf e.1.op o).step e.2 = some σ₁ := by
  have hCourseStep {b xs p x o' σ σ' t} (hCourse : g.Course b xs p x o')
      (hRun : p.run σ = some (t, σ')) (hIn : e ∈ t ++ [(g.actOf x o', σ')]) :
      ∃ σ₁, (g.actOf e.1.op o).step e.2 = some σ₁ := by
    rcases mem_append.mp hIn with hIn | hIn
    · obtain ⟨o₁, hOp₁, hAct⟩ := hCourse.unfolds.act_of_mem_run hRun hIn
      cases hOp.symm.trans hOp₁
      rw [← hAct]
      refine Prog.step_of_mem_run hRun hIn ?_
      rwa [hAct]
    · cases mem_singleton.mp hIn
      cases hOp.symm.trans hCourse.op
      cases hCourse.isControl.symm.trans hKind
  induction hTrip with
  | ret hCourse hRun _ => exact hCourseStep hCourse hRun hMem
  | branch hCourse hRun _ _ ih =>
    rcases mem_append.mp hMem with hMem | hMem
    · exact hCourseStep hCourse hRun hMem
    · exact ih hMem

end Graph

namespace Function

variable {f : Function} {params : List ValueId} {b : BlockId} {blk : Block} {xs : List OpId}
  {p : Prog} {x : OpId} {o' : Operation} {args : List Datum} {m m' r : Machine} {n : Nat} {h : OpId}

/- A run that returns may count something. -/
theorem OneBlock.steps_le (hOne : f.OneBlock params b xs p x o)
    (hArgs : params.length = args.length)
    (hRun : Exec.outcome (f.run args) m = (.ok values, m')) : m.steps ≤ m.limit := by
  apply Decidable.byContradiction
  intro hBelow
  obtain ⟨m₁, _, hSame, hOutcome⟩ := outcome_run hOne.starts hArgs m
  rcases Exec.outcome_exhausted (m := m₁) m.limit hOne.course
    (by rw [hSame.limit, hSame.steps]; omega) with ⟨m₂, hError, _⟩
  rw [hOutcome, Exec.outcome_bind, hError] at hRun
  cases hRun

/-
  Where a run that returns comes to an operation other than
  control flow, the operation succeeds.
-/
theorem Whole.step_of_comesTo (hWhole : f.Whole params b blk xs p x o)
    (hRun : Exec.outcome (f.run args) m = (.ok values, m')) (hComes : f.ComesTo args m n h r)
    (hOp : f.graph.op h = .ok o')
    (hKind : o'.kind.isControl = false) : ∃ σ₁, (f.graph.actOf h o').step r.store = some σ₁ := by
  have hArgs := hWhole.one.length_args hComes
  have hNavigable : f.graph.Navigable [b] := by
    constructor
    intro b' hMem
    cases mem_singleton.mp hMem
    exact ⟨xs, p, x, o, hWhole.one.course, fun s hIn => mem_singleton.mpr (hWhole.one.only s hIn)⟩
  rcases trip_of_run hWhole.one.starts hArgs hNavigable
    (mem_singleton_self b) (hWhole.one.steps_le hArgs hRun) hRun with ⟨t, hTrip, _⟩
  obtain ⟨k, _, rfl, _⟩ := hWhole.one.event_of_comesTo hComes
  -- The trip is not over where the run comes to the operation.
  cases hAt : t[k]? with
  | none =>
    have hOver := List.getElem?_eq_none_iff.mp hAt
    rcases run_of_trip (m := { m with limit := m.steps + k })
      hWhole.one.starts hArgs hTrip (Nat.add_le_add_left hOver _) with ⟨_, hReturns, _⟩
    cases hComes.1.symm.trans hReturns
  | some e =>
    rcases stage_of_trip hWhole.one.starts hArgs hTrip hAt with
      ⟨s, r', s', hStops, hNext, hStore, hCounts⟩
    obtain ⟨hStops', _, _, hNext', hCount⟩ := hComes
    cases hStops.symm.trans hStops'
    cases hNext.symm.trans hNext'
    have hHere : e.1.op = h := by
      apply Decidable.byContradiction
      intro hOther
      rw [hCounts, if_neg hOther] at hCount
      omega
    subst hHere
    rw [hStore]
    exact hTrip.steps (mem_of_getElem? hAt) hOp hKind

end Function

end AffineIR
