import AffineIR.Proofs.Constraint.Answers

/-
  Why the emptiness test ends.

  Every step of the test leads to rows in which no variable
  occurs that did not occur before.  The variable that a pivot
  or a round of elimination works on occurs in no later row, so
  there are at most as many rounds as variables.

  Main result: `Elimination.test_ends`
-/

namespace AffineIR

namespace Elimination

open List

def Stage.rows (t : Stage) : List Row := t.equalities ++ t.inequalities

variable {i k n v w : Nat} {s : ConstraintSystem} {eqs ges rows out : List Row} {t u : Stage}

/- Rows in which one variable is gone, and no other has come in. -/
def Drops (v : Nat) (rows out : List Row) : Prop := ∀ w, Occurs w out → w ≠ v ∧ Occurs w rows

------
-- Variables of a step
------

theorem occurs_append {xs ys : List Row} : Occurs w (xs ++ ys) ↔ Occurs w xs ∨ Occurs w ys := by
  simp only [Occurs, mem_append, or_and_right, exists_or]

theorem occurs_of_normalize (hSome : normalize rows = some out) (hOccurs : Occurs v out) :
    Occurs v rows :=
  (sorts_normalize rows).occurs hSome
    (fun _ _ hVerdict => ⟨_, (of_normalizeRow_eq_keep hVerdict).2.2⟩) hOccurs

theorem occurs_of_split? (hSome : split? rows = some out) (hOccurs : Occurs v out) :
    Occurs v rows := by
  obtain ⟨m, hMember, hCoeff⟩ := hOccurs
  obtain ⟨r, hIn, rfl | hNeg⟩ := ((mem_split?_iff hSome).2 m).mp hMember
  · exact ⟨m, hIn, hCoeff⟩
  · have hOpposite : m.coeff v = -1 * r.coeff v + 0 * r.coeff v :=
      Row.coeff_of_eval (d := 0) (fun x => by rw [(Row.fits_of_neg? hNeg).2 x]; ring) v
    refine ⟨r, hIn, fun hZero => hCoeff ?_⟩
    rw [hOpposite, hZero]
    rfl

/- Clearing a variable with a unit coefficient. -/
theorem drops_of_clearVar? {pivot : Row} (hPivot : pivot.Fits n) (hFits : ∀ r ∈ rows, r.Fits n)
    (hUnit : pivot.coeff v * pivot.coeff v = 1) (hSome : rows.mapM (clearVar? pivot v) = some out) :
    Drops v (pivot :: rows) out := by
  rintro w ⟨m, hMember, hCoeff⟩
  obtain ⟨r, hIn, hClear⟩ := Row.exists_of_mem_mapM hSome hMember
  have hCleared : m.coeff w = 1 * r.coeff w + -(r.coeff v * pivot.coeff v) * pivot.coeff w := by
    refine Row.coeff_of_eval (d := 0) (fun x => ?_) w
    rw [(exists_of_clearVar? hPivot (hFits r hIn) hClear).2 x]
    ring
  constructor
  · rintro rfl
    refine hCoeff ?_
    rw [hCleared, one_mul, neg_mul, mul_assoc, hUnit]
    ring
  · by_cases hOld : r.coeff w = 0
    · refine ⟨pivot, mem_cons_self, fun hZero => hCoeff ?_⟩
      rw [hCleared, hOld, hZero]
      ring
    · exact ⟨r, mem_cons_of_mem _ hIn, hOld⟩

theorem drops_of_pivotAt? (hFits : Stage.Fits n ⟨.substituting, eqs, ges⟩)
    (hPivot : pivotFrom 0 eqs = .ok (some (i, v))) (hNext : pivotAt? i v eqs ges = some u) :
    Drops v (eqs ++ ges) u.rows := by
  obtain ⟨eqs', ges', rfl, hEqs, hGes⟩ := exists_of_pivotAt? hNext
  obtain ⟨hOldEqs, hOldGes⟩ := forall_mem_append.mp hFits
  have hFrom := pivot_mem hPivot
  have hUnit := unit_of_pivotFrom hOldEqs hPivot
  have hFirst := drops_of_clearVar? (hOldEqs _ hFrom)
    (fun r hIn => hOldEqs r (mem_of_mem_swapRemove hIn)) hUnit hEqs
  have hSecond := drops_of_clearVar? (hOldEqs _ hFrom) hOldGes hUnit hGes
  intro w hOccurs
  rcases occurs_append.mp hOccurs with hLeft | hLeft
  · refine (hFirst w hLeft).imp_right ?_
    rintro ⟨r, hIn, hCoeff⟩
    refine ⟨r, mem_append_left _ ?_, hCoeff⟩
    rcases mem_cons.mp hIn with rfl | hIn
    · exact hFrom
    · exact mem_of_mem_swapRemove hIn
  · refine (hSecond w hLeft).imp_right ?_
    rintro ⟨r, hIn, hCoeff⟩
    refine ⟨r, ?_, hCoeff⟩
    rcases mem_cons.mp hIn with rfl | hIn
    · exact mem_append_left _ hFrom
    · exact mem_append_right _ hIn

/- One step brings no variable in. -/
theorem occurs_of_step (hFits : t.Fits n) (hStep : Step t u) (hOccurs : Occurs w u.rows) :
    Occurs w t.rows := by
  obtain ⟨_, hGes⟩ := forall_mem_append.mp hFits
  cases hStep with
  | divide hSome | divideAgain hSome =>
    exact occurs_append.mpr ((occurs_append.mp hOccurs).imp_left (occurs_of_normalize hSome))
  | pivot hPivot hSome => exact (drops_of_pivotAt? hFits hPivot hSome w hOccurs).2
  | @split _ ges pairs hSome =>
    have hHere : Occurs w (ges ++ pairs) := hOccurs
    exact occurs_append.mpr ((occurs_append.mp hHere).symm.imp_left (occurs_of_split? hSome))
  | tighten hSome =>
    exact occurs_append.mpr ((occurs_append.mp hOccurs).imp_right (occurs_of_tighten hSome))
  | eliminate hSome =>
    exact occurs_append.mpr ((occurs_append.mp hOccurs).imp_right fun hLeft =>
      (occurs_of_eliminateVar? hGes hSome hLeft).2)

/- Nor do all steps from a stage on. -/
theorem occurs_of_steps (hFits : t.Fits n)
    (hSteps : Relation.ReflTransGen (fun t u => next? n t = some u) t u)
    (hOccurs : Occurs w u.rows) : Occurs w t.rows := by
  induction hSteps using Relation.ReflTransGen.head_induction_on with
  | refl => exact hOccurs
  | head hNext _ ih =>
    have hStep := step_of_next? hNext
    exact occurs_of_step hFits hStep (ih (fits_of_step hFits hStep))

------
-- Rounds
------

/- Where no pivot is found, there is none. -/
theorem unitFree_of_pivotFrom (hFits : ∀ r ∈ rows, r.Fits n) (hNone : pivotFrom i rows = .ok none) :
    ∀ r ∈ rows, UnitFree r := by
  induction rows generalizing i with
  | nil => exact forall_mem_nil _
  | cons r rows ih =>
    obtain ⟨hRow, hRest⟩ := forall_mem_cons.mp hFits
    rw [pivotFrom] at hNone
    split at hNone
    · cases hNone
    · cases hNone
    · rename_i hUnit
      have hWords := ((Row.inRange_iff r).mp hRow.2).1
      exact forall_mem_cons.mpr ⟨of_unitVarFrom_eq_none hWords hUnit, ih hRest hNone⟩

/- Stages that the test comes to after a number of rounds of elimination. -/
inductive Rounds (s : ConstraintSystem) : Nat → Stage → Prop
  | start : Rounds s 0 (.ofSystem s)
  | step {k : Nat} {t u : Stage} (hRounds : Rounds s k t) (hPhase : t.phase ≠ .eliminating)
      (hNext : next? s.numVars t = some u) : Rounds s k u
  | round {k v : Nat} {ges ges' : List Row} (hRounds : Rounds s k ⟨.eliminating, [], ges⟩)
      (hPick : pickVar s.numVars ges = some v) (hSome : eliminateVar? v ges = some ges') :
      Rounds s (k + 1) ⟨.tightening, [], ges'⟩

/- No equality is left when variables are eliminated. -/
theorem equalities_of_reached (hReached : Reached s t)
    (hPhase : t.phase = .tightening ∨ t.phase = .eliminating) : t.equalities = [] := by
  induction hReached with
  | start => simp [Stage.ofSystem] at hPhase
  | next _ hNext ih =>
    cases step_of_next? hNext with
    | divide | divideAgain => simp at hPhase
    | pivot _ hSome => simp [(length_of_pivotAt? hSome).1] at hPhase
    | split => rfl
    | tighten => exact ih (.inl rfl)
    | eliminate => exact ih (.inr rfl)

theorem exists_rounds (hReached : Reached s t) : ∃ k, Rounds s k t := by
  induction hReached with
  | start => exact ⟨0, .start⟩
  | @next t u hReached hNext ih =>
    obtain ⟨k, hRounds⟩ := ih
    by_cases hPhase : t.phase = .eliminating
    · obtain ⟨phase, eqs, ges⟩ := t
      cases hPhase
      cases equalities_of_reached hReached (.inr rfl)
      obtain ⟨v, hPick, hNext⟩ := Option.bind_eq_some_iff.mp hNext
      obtain ⟨ges', hSome, hNext⟩ := Option.bind_eq_some_iff.mp hNext
      cases hNext
      exact ⟨k + 1, .round hRounds hPick hSome⟩
    · exact ⟨k, .step hRounds hPhase hNext⟩

/- Every round uses up a variable. -/
theorem card_live_of_rounds (hForm : s.WellFormed) (hRounds : Rounds s k t) :
    t.Fits s.numVars ∧ k + (live s.numVars t.rows).card ≤ s.numVars := by
  induction hRounds with
  | start =>
    refine ⟨hForm, ?_⟩
    rw [zero_add]
    exact (Finset.card_filter_le _ _).trans (Finset.card_range _).le
  | step _ _ hNext ih =>
    obtain ⟨hFits, hRoom⟩ := ih
    have hStep := step_of_next? hNext
    refine ⟨fits_of_step hFits hStep, (Nat.add_le_add_left (Finset.card_le_card ?_) _).trans hRoom⟩
    exact Finset.monotone_filter_right _ fun _ _ => occurs_of_step hFits hStep
  | round _ hPick hSome ih =>
    obtain ⟨hFits, hRoom⟩ := ih
    obtain ⟨hLess, hOccurs⟩ := occurs_of_pickVar hPick
    have hFewer := card_live_lt hLess hOccurs fun w => occurs_of_eliminateVar? hFits hSome
    refine ⟨fits_of_eliminateVar? hFits hSome, ?_⟩
    simp only [Stage.rows, nil_append] at hRoom ⊢
    omega

/-
  The test ends, after at most as many rounds of elimination
  as there are variables.  A pivot uses up one equality, its
  variable occurs in no later row, and no unit is left when no
  pivot is; a round removes its variable and brings none in.
-/
theorem test_ends (hForm : s.WellFormed) :
    (∃ k t, k ≤ s.numVars ∧ Rounds s k t ∧ Ends s.numVars t (run s)) ∧
    (∀ eqs ges i v u, Reached s ⟨.substituting, eqs, ges⟩ → pivotFrom 0 eqs = .ok (some (i, v)) →
      pivotAt? i v eqs ges = some u → u.equalities.length + 1 = eqs.length ∧
      ∀ t, Relation.ReflTransGen (fun t u => next? s.numVars t = some u) u t →
        ¬Occurs v (t.equalities ++ t.inequalities)) ∧
    (∀ eqs eqs' ges', normalize s.equalities = some eqs →
      substitute eqs s.inequalities = .ok (some (eqs', ges')) → ∀ r ∈ eqs', UnitFree r) ∧
    ∀ ges v ges', Reached s ⟨.eliminating, [], ges⟩ → pickVar s.numVars ges = some v →
      eliminateVar? v ges = some ges' → ¬Occurs v ges' ∧ ∀ w, Occurs w ges' → Occurs w ges := by
  refine ⟨?_, ?_, ?_, ?_⟩
  · obtain ⟨t, hReached, hEnds⟩ := leads_run hForm
    obtain ⟨k, hRounds⟩ := exists_rounds hReached
    have hRoom := (card_live_of_rounds hForm hRounds).2
    exact ⟨k, t, by omega, hRounds, hEnds⟩
  · intro eqs ges i v u hReached hPivot hNext
    have hFits := fits_of_reached hForm hReached
    have hLength := (length_of_pivotAt? hNext).2
    have hLess := (pivotFrom_lt hPivot).2
    refine ⟨by omega, fun t hSteps hOccurs => ?_⟩
    have hLeft := occurs_of_steps (fits_of_pivotAt? hFits hPivot hNext) hSteps hOccurs
    exact (drops_of_pivotAt? hFits hPivot hNext v hLeft).1 rfl
  · intro eqs eqs' ges' hDivide hLeft
    have hDivided : Reached s ⟨.substituting, eqs, s.inequalities⟩ :=
      Reached.start.next (by simp [Stage.ofSystem, next?, hDivide])
    have hLeaves : Leaves s (substitute eqs s.inequalities) :=
      leads_of_substituteUpTo hDivided le_rfl
    rw [hLeft] at hLeaves
    exact unitFree_of_pivotFrom (forall_mem_append.mp (fits_of_reached hForm hLeaves.1)).1 hLeaves.2
  · intro ges v ges' hReached hPick hSome
    have hDrops := fun w => occurs_of_eliminateVar? (w := w) (fits_of_reached hForm hReached) hSome
    exact ⟨fun hOccurs => (hDrops v hOccurs).1 rfl, fun w hOccurs => (hDrops w hOccurs).2⟩

/- Two variables are equal, and one of them is between multiples of a third. -/
def twins : ConstraintSystem := ⟨3, [⟨[1, -1, 0], 0⟩], [⟨[2, 0, -3], 1⟩, ⟨[-1, 0, 2], 0⟩]⟩

theorem twins_test_ends :
    (∃ k t, k ≤ 3 ∧ Rounds twins k t ∧ Ends 3 t (.ok (some false))) ∧
    ∃ u, pivotAt? 0 0 twins.equalities twins.inequalities = some u ∧ u.equalities = [] ∧
      u.inequalities = [⟨[0, 2, -3], 1⟩, ⟨[0, -1, 2], 0⟩] ∧
      ∀ t, Relation.ReflTransGen (fun t u => next? 3 t = some u) u t →
        ¬Occurs 0 (t.equalities ++ t.inequalities) := by
  obtain ⟨hEnds, hPivots, _⟩ := test_ends (s := twins) (by decide)
  have hRun : run twins = .ok (some false) := by decide
  have hReached : Reached twins ⟨.substituting, twins.equalities, twins.inequalities⟩ :=
    Reached.start.next (by decide)
  exact ⟨hRun ▸ hEnds, _, rfl, rfl, rfl, (hPivots _ _ 0 0 _ hReached (by decide) rfl).2⟩

end Elimination

end AffineIR
