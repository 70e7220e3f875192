import AffineIR.Proofs.Constraint.Emptiness
import Mathlib.Algebra.BigOperators.Ring.Finset
import Mathlib.Algebra.Order.Field.Basic
import Mathlib.Algebra.Order.Field.Rat
import Mathlib.Data.Finset.Max
import Mathlib.Tactic.FieldSimp
import Mathlib.Tactic.LinearCombination

/-
  Completeness of the emptiness test over the rationals.

  A rational point of the rows that a step leaves gives a
  rational point of the rows it was made from: the variable
  that the step has removed is given the value that the pivot
  asks for, or one between all lower and upper bounds.  When
  no variable is left no row is left, so that a system that is
  not found empty has a rational point.

  Main result: `ConstraintSystem.exists_rational_solution`
-/

namespace AffineIR

open List

variable {i n v : Nat} {t u : Stage} {lower pivot r s upper : Row} {x : Nat → ℚ}
  {eqs ges out rows : List Row}

namespace Row

/- The value of a row at rational values of the variables. -/
def valueAt (r : Row) (x : Nat → ℚ) : ℚ := ∑ i ∈ Finset.range r.width, r.coeff i * x i + r.constant

theorem valueAt_update (r : Row) (x : Nat → ℚ) (v : Nat) (y : ℚ) :
    r.valueAt (Function.update x v y) = r.valueAt x + r.coeff v * (y - x v) := by
  have hTerm (i : Nat) :
      r.coeff i * Function.update x v y i = r.coeff i * x i +
          if i = v then r.coeff v * (y - x v) else 0 := by
    by_cases hSame : i = v
    · subst hSame
      rw [Function.update_self, if_pos rfl]
      ring
    · rw [Function.update_of_ne hSame, if_neg hSame, add_zero]
  have hSum :
      ∑ i ∈ Finset.range r.width, (if i = v then r.coeff v * (y - x v) else 0) =
        r.coeff v * (y - x v) := by
    rw [Finset.sum_ite_eq']
    split
    · rfl
    · rename_i hWidth
      rw [Finset.mem_range, not_lt] at hWidth
      rw [coeff_eq_zero hWidth]
      simp
  unfold valueAt
  simp only [hTerm, Finset.sum_add_distrib, hSum]
  ring

/-
  Rows whose values are combined at every integer point have
  their values combined at every rational point.
-/
theorem valueAt_of_eval {t : Row} {a b d : Int} (hWidth : t.width = n ∧ r.width = n ∧ s.width = n)
    (hEval : ∀ x, t.eval x = a * r.eval x + b * s.eval x + d)
    (x : Nat → ℚ) : t.valueAt x = a * r.valueAt x + b * s.valueAt x + d := by
  obtain ⟨hT, hR, hS⟩ := hWidth
  unfold valueAt
  rw [hT, hR, hS, constant_of_eval hEval]
  simp only [coeff_of_eval hEval, Int.cast_add, Int.cast_mul, add_mul,
    Finset.sum_add_distrib, mul_add, Finset.mul_sum, mul_assoc]
  ring

end Row

/- A rational assignment that satisfies every constraint. -/
def ConstraintSystem.HoldsAt (s : ConstraintSystem) (x : Nat → ℚ) : Prop :=
  (∀ r ∈ s.equalities, r.valueAt x = 0) ∧ ∀ r ∈ s.inequalities, 0 ≤ r.valueAt x

namespace Elimination

/- The rows of the stage have a rational point. -/
def Stage.Solvable (t : Stage) : Prop := ∃ x : Nat → ℚ, (∀ r ∈ t.equalities, r.valueAt x = 0) ∧
    ∀ r ∈ t.inequalities, 0 ≤ r.valueAt x

/- A row without content has the value of its constant. -/
theorem valueAt_of_content_eq_zero (hDivides : Divides r) (hContent : content r = 0)
    (x : Nat → ℚ) : r.valueAt x = r.constant := by
  have hEval (x : Nat → Int) : r.eval x = 0 * r.eval x + 0 * r.eval x + r.constant := by
    rw [eval_of_content_eq_zero hDivides hContent]
    ring
  rw [Row.valueAt_of_eval ⟨rfl, rfl, rfl⟩ hEval]
  simp

theorem valueAt_of_normalize (hFits : ∀ r ∈ rows, r.Fits n) (hDivides : ∀ r ∈ rows, Divides r)
    (hSome : normalize rows = some out)
    (hZero : ∀ s ∈ out, s.valueAt x = 0) : ∀ r ∈ rows, r.valueAt x = 0 := by
  intro r hIn
  rcases (sorts_normalize _).of_mem hSome hIn with hTrivial | ⟨s, hOut, hKept⟩
  · obtain ⟨hContent, hConstant⟩ := of_normalizeRow_eq_trivial hTrivial
    rw [valueAt_of_content_eq_zero (hDivides r hIn) hContent, hConstant, Int.cast_zero]
  · have hEval (x : Nat → Int) : r.eval x = content r * s.eval x + 0 * s.eval x + 0 := by
      rw [eval_of_normalizeRow (hDivides r hIn) hKept]
      ring
    have hRow := hFits r hIn
    have hNew := fits_of_normalizeRow hRow hKept
    rw [Row.valueAt_of_eval ⟨hRow.1, hNew.1, hNew.1⟩ hEval, hZero s hOut]
    simp

theorem valueAt_of_tighten (hFits : ∀ r ∈ rows, r.Fits n) (hDivides : ∀ r ∈ rows, Divides r)
    (hSome : tighten rows = some out)
    (hNonneg : ∀ s ∈ out, 0 ≤ s.valueAt x) : ∀ r ∈ rows, 0 ≤ r.valueAt x := by
  intro r hIn
  rcases (sorts_tighten _).of_mem hSome hIn with hTrivial | ⟨s, hOut, hKept⟩
  · obtain ⟨hContent, hConstant⟩ := of_tightenRow_eq_trivial hTrivial
    rw [valueAt_of_content_eq_zero (hDivides r hIn) hContent]
    exact_mod_cast hConstant
  · -- rounding the constant down only asks for more
    obtain ⟨d, hLost, _, hScaled⟩ := eval_of_tightenRow (hDivides r hIn) hKept
    have hEval (x : Nat → Int) : r.eval x = content r * s.eval x + 0 * s.eval x + d := by
      rw [hScaled x]
      ring
    have hRow := hFits r hIn
    have hNew := fits_of_tightenRow hRow hKept
    rw [Row.valueAt_of_eval ⟨hRow.1, hNew.1, hNew.1⟩ hEval]
    have hContent : (0 : ℚ) ≤ content r := by exact_mod_cast content_nonneg r
    have hConstant : (0 : ℚ) ≤ d := by exact_mod_cast hLost
    have hProduct := mul_nonneg hContent (hNonneg s hOut)
    simp only [Int.cast_zero, zero_mul, add_zero]
    linarith

theorem valueAt_of_split? (hSome : split? rows = some out)
    (hNonneg : ∀ s ∈ out, 0 ≤ s.valueAt x) : ∀ r ∈ rows, r.valueAt x = 0 := by
  intro r hIn
  obtain ⟨hAll, hMem⟩ := mem_split?_iff hSome
  obtain ⟨m, hNeg⟩ := hAll r hIn
  have hEval (x : Nat → Int) : m.eval x = -1 * r.eval x + 0 * r.eval x + 0 := by
    rw [(Row.fits_of_neg? hNeg).2]
    ring
  have hOpposite := Row.valueAt_of_eval ⟨(Row.fits_of_neg? hNeg).1.1, rfl, rfl⟩ hEval x
  have hLower := hNonneg r ((hMem r).mpr ⟨r, hIn, .inl rfl⟩)
  have hUpper := hNonneg m ((hMem m).mpr ⟨r, hIn, .inr hNeg⟩)
  rw [hOpposite] at hUpper
  push_cast at hUpper
  linarith

/-
  The value that the pivot asks for.  A cleared row does not
  see it, and differs from the given one by a multiple of the
  pivot.
-/
theorem valueAt_of_clearVar? (hPivot : pivot.Fits n) (hUnit : pivot.coeff v * pivot.coeff v = 1)
    (hFits : r.Fits n) (hClear : clearVar? pivot v r = some s) {y : ℚ}
    (hZero : pivot.valueAt (Function.update x v y) = 0) :
    r.valueAt (Function.update x v y) = s.valueAt x := by
  obtain ⟨hNew, hCleared⟩ := exists_of_clearVar? hPivot hFits hClear
  have hEval (x : Nat → Int) :
      s.eval x = 1 * r.eval x + -(r.coeff v * pivot.coeff v) * pivot.eval x + 0 := by
    rw [hCleared x]
    ring
  have hCoeff : s.coeff v = 0 := by
    rw [Row.coeff_of_eval hEval]
    linear_combination -r.coeff v * hUnit
  have hValue := Row.valueAt_of_eval ⟨hNew.1, hFits.1, hPivot.1⟩ hEval (Function.update x v y)
  rw [Row.valueAt_update s, hCoeff, hZero] at hValue
  push_cast at hValue
  linarith

theorem solvable_of_pivotAt? (hFits : Stage.Fits n ⟨.substituting, eqs, ges⟩)
    (hPivot : pivotFrom 0 eqs = .ok (some (i, v))) (hNext : pivotAt? i v eqs ges = some u)
    (hSolvable : u.Solvable) : Stage.Solvable ⟨.substituting, eqs, ges⟩ := by
  obtain ⟨eqs', ges', rfl, hEqs, hGes⟩ := exists_of_pivotAt? hNext
  obtain ⟨x, hZero, hNonneg⟩ := hSolvable
  obtain ⟨hOldEqs, hOldGes⟩ := forall_mem_append.mp hFits
  have hPivotFits := hOldEqs _ (pivot_mem hPivot)
  have hUnit := unit_of_pivotFrom hOldEqs hPivot
  have hLess : i < eqs.length := by simpa using (pivotFrom_lt hPivot).2
  rw [Nat.sub_zero] at hUnit
  generalize hName : eqs.getD i default = pivot at *
  have hSquare : (pivot.coeff v : ℚ) * pivot.coeff v = 1 := by
    exact_mod_cast hUnit
  let y : ℚ := x v - pivot.coeff v * pivot.valueAt x
  have hPivotZero : pivot.valueAt (Function.update x v y) = 0 := by
    rw [Row.valueAt_update]
    linear_combination -pivot.valueAt x * hSquare
  refine ⟨Function.update x v y, ?_, ?_⟩
  · intro r hIn
    rcases mem_swapRemove_or_eq hLess hIn with hSame | hOther
    · rwa [hSame, hName]
    · obtain ⟨s, hOut, hClear⟩ := Row.exists_mem_of_mapM hEqs hOther
      rw [valueAt_of_clearVar? hPivotFits hUnit (hOldEqs r hIn) hClear hPivotZero]
      exact hZero s hOut
  · intro r hIn
    obtain ⟨s, hOut, hClear⟩ := Row.exists_mem_of_mapM hGes hIn
    rw [valueAt_of_clearVar? hPivotFits hUnit (hOldGes r hIn) hClear hPivotZero]
    exact hNonneg s hOut

/- A number between two lists, one of which is below the other. -/
theorem exists_between {lows highs : Finset ℚ}
    (hBelow : ∀ a ∈ lows, ∀ b ∈ highs, a ≤ b) : ∃ y, (∀ a ∈ lows, a ≤ y) ∧ ∀ b ∈ highs, y ≤ b := by
  rcases lows.eq_empty_or_nonempty with rfl | hLows
  · rcases highs.eq_empty_or_nonempty with rfl | hHighs
    · exact ⟨0, by simp, by simp⟩
    · exact ⟨highs.min' hHighs, by simp, fun b => highs.min'_le b⟩
  · exact ⟨lows.max' hLows, fun a => lows.le_max' a, hBelow _ (lows.max'_mem hLows)⟩

/- Where a row bounds a variable, the others having their values. -/
def boundAt (r : Row) (v : Nat) (x : Nat → ℚ) : ℚ := x v - r.valueAt x / r.coeff v

theorem valueAt_update_boundAt (hCoeff : r.coeff v ≠ 0) (x : Nat → ℚ) (y : ℚ) :
    r.valueAt (Function.update x v y) = r.coeff v * (y - boundAt r v x) := by
  have hCast : (r.coeff v : ℚ) ≠ 0 := by exact_mod_cast hCoeff
  rw [Row.valueAt_update]
  unfold boundAt
  field_simp
  ring

/- A sum of bounds that holds puts the lower below the upper. -/
theorem boundAt_le (hLower : lower.Fits n) (hUpper : upper.Fits n) (hPos : 0 < lower.coeff v)
    (hNeg : upper.coeff v < 0) (hAdd : addBounds? v lower upper = some s)
    (hNonneg : 0 ≤ s.valueAt x) : boundAt lower v x ≤ boundAt upper v x := by
  obtain ⟨hNew, hSum⟩ := exists_of_addBounds? hLower hUpper hAdd
  have hEval (x : Nat → Int) :
      s.eval x = -upper.coeff v * lower.eval x + lower.coeff v * upper.eval x + 0 := by
    rw [hSum x, add_zero]
  rw [Row.valueAt_of_eval ⟨hNew.1, hLower.1, hUpper.1⟩ hEval] at hNonneg
  have hPos' : (0 : ℚ) < lower.coeff v := by exact_mod_cast hPos
  have hNeg' : (upper.coeff v : ℚ) < 0 := by exact_mod_cast hNeg
  unfold boundAt
  have hRatio : upper.valueAt x / upper.coeff v ≤ lower.valueAt x / lower.coeff v := by
    rw [div_le_iff_of_neg hNeg', div_mul_eq_mul_div, div_le_iff₀ hPos']
    push_cast at hNonneg
    linarith
  linarith

theorem solvable_of_eliminateVar? (hFits : ∀ r ∈ rows, r.Fits n)
    (hSome : eliminateVar? v rows = some out) (hNonneg : ∀ s ∈ out, 0 ≤ s.valueAt x) :
    ∃ y, ∀ r ∈ rows, 0 ≤ r.valueAt (Function.update x v y) := by
  obtain ⟨hRest, hPairs⟩ := mem_of_eliminateVar? hSome
  have hBelow :
      ∀ a ∈ ((lowerBounds v rows).map (boundAt · v x)).toFinset,
        ∀ b ∈ ((upperBounds v rows).map (boundAt · v x)).toFinset, a ≤ b := by
    simp only [mem_toFinset, mem_map, lowerBounds,
      upperBounds, mem_filter, decide_eq_true_eq]
    rintro _ ⟨lower, ⟨hLower, hPos⟩, rfl⟩ _ ⟨upper, ⟨hUpper, hNeg⟩, rfl⟩
    obtain ⟨s, hOut, hAdd⟩ := hPairs lower hLower upper hUpper hPos hNeg
    exact boundAt_le (hFits _ hLower) (hFits _ hUpper) hPos hNeg hAdd (hNonneg s hOut)
  obtain ⟨y, hLows, hHighs⟩ := exists_between hBelow
  refine ⟨y, ?_⟩
  intro r hIn
  rcases lt_trichotomy (r.coeff v) 0 with hNeg | hZero | hPos
  · have hBound : y ≤ boundAt r v x := by
      apply hHighs
      simp only [mem_toFinset, mem_map, upperBounds, mem_filter, decide_eq_true_eq]
      exact ⟨r, ⟨hIn, hNeg⟩, rfl⟩
    rw [valueAt_update_boundAt hNeg.ne]
    have hNeg' : (r.coeff v : ℚ) < 0 := by exact_mod_cast hNeg
    nlinarith
  · rw [Row.valueAt_update, hZero]
    simpa using hNonneg r (hRest r hIn hZero)
  · have hBound : boundAt r v x ≤ y := by
      apply hLows
      simp only [mem_toFinset, mem_map, lowerBounds, mem_filter, decide_eq_true_eq]
      exact ⟨r, ⟨hIn, hPos⟩, rfl⟩
    rw [valueAt_update_boundAt hPos.ne']
    have hPos' : (0 : ℚ) < r.coeff v := by exact_mod_cast hPos
    nlinarith

------
-- Steps
------

/-
  Equalities are used up before variables are eliminated, and
  tightened rows are not constant.
-/
def Stage.Ordered (t : Stage) : Prop := (t.phase = .tightening ∨ t.phase = .eliminating →
    t.equalities = []) ∧ (t.phase = .eliminating → ∀ r ∈ t.inequalities, ∃ v, r.coeff v ≠ 0)

theorem exists_coeff_of_tighten (hDivides : ∀ r ∈ rows, Divides r)
    (hSome : tighten rows = some out) : ∀ s ∈ out, ∃ v, s.coeff v ≠ 0 := by
  intro s hMember
  obtain ⟨r, hIn, hKept⟩ := (sorts_tighten _).of_kept hSome hMember
  obtain ⟨hPos, rfl⟩ := of_tightenRow_eq_keep hKept
  obtain ⟨v, hCoeff⟩ := exists_of_content_ne_zero hPos.ne'
  refine ⟨v, ?_⟩
  rw [coeff_quotient]
  intro hZero
  -- the content divides the coefficient, so the quotient is not zero
  apply hCoeff
  rw [← Int.mul_tdiv_cancel' (hDivides r hIn _ (Row.coeff_mem hCoeff)), hZero, mul_zero]

theorem ordered_of_step (hFits : t.Fits n) (hLeast : t.LeastFree) (hOrdered : t.Ordered)
    (hStep : Step t u) : u.Ordered := by
  cases hStep with
  | divide | divideAgain | split => simp [Stage.Ordered]
  | pivot _ hSome => simp [Stage.Ordered, (length_of_pivotAt? hSome).1]
  | tighten hSome =>
    exact ⟨fun _ => hOrdered.1 (.inl rfl), fun _ =>
      exists_coeff_of_tighten (forall_mem_append.mp (hFits.divides hLeast)).2 hSome⟩
  | eliminate => exact ⟨fun _ => hOrdered.1 (.inr rfl), by simp⟩

theorem ordered_of_reached {s : ConstraintSystem} (hForm : s.WellFormed)
    (hLeast : ∀ t, Reached s t → t.LeastFree) (hReached : Reached s t) : t.Ordered := by
  induction hReached with
  | start => simp [Stage.Ordered, Stage.ofSystem]
  | next hBefore hNext ih =>
    exact ordered_of_step (fits_of_reached hForm hBefore)
      (hLeast _ hBefore) ih (step_of_next? hNext)

/- One step back: a rational point is found for the rows before. -/
theorem solvable_of_step (hFits : t.Fits n) (hLeast : t.LeastFree) (hOrdered : t.Ordered)
    (hStep : Step t u) (hSolvable : u.Solvable) : t.Solvable := by
  obtain ⟨hEqs, hGes⟩ := forall_mem_append.mp hFits
  obtain ⟨hEqsDivide, hGesDivide⟩ := forall_mem_append.mp (hFits.divides hLeast)
  cases hStep with
  | divide hSome | divideAgain hSome =>
    obtain ⟨x, hZero, hNonneg⟩ := hSolvable
    exact ⟨x, valueAt_of_normalize hEqs hEqsDivide hSome hZero, hNonneg⟩
  | pivot hPivot hSome => exact solvable_of_pivotAt? hFits hPivot hSome hSolvable
  | split hSome =>
    obtain ⟨x, _, hNonneg⟩ := hSolvable
    obtain ⟨hOld, hPairs⟩ := forall_mem_append.mp hNonneg
    exact ⟨x, valueAt_of_split? hSome hPairs, hOld⟩
  | tighten hSome =>
    obtain ⟨x, hZero, hNonneg⟩ := hSolvable
    exact ⟨x, hZero, valueAt_of_tighten hGes hGesDivide hSome hNonneg⟩
  | @eliminate eqs _ _ v hSome =>
    obtain ⟨x, _, hNonneg⟩ := hSolvable
    obtain ⟨y, hHolds⟩ := solvable_of_eliminateVar? hGes hSome hNonneg
    have hNil : eqs = [] := hOrdered.1 (.inr rfl)
    exact ⟨Function.update x v y, by simp [hNil], hHolds⟩

/- All the way back: a point of a stage gives one of the system. -/
theorem solvable_of_reached {s : ConstraintSystem} (hForm : s.WellFormed)
    (hLeast : ∀ t, Reached s t → t.LeastFree) (hReached : Reached s t)
    (hSolvable : t.Solvable) : ∃ x, s.HoldsAt x := by
  induction hReached with
  | start => exact hSolvable
  | next hBefore hNext ih =>
    exact ih (solvable_of_step (fits_of_reached hForm hBefore)
      (hLeast _ hBefore) (ordered_of_reached hForm hLeast hBefore) (step_of_next? hNext) hSolvable)

/- No row is left when no variable is. -/
theorem solvable_of_pickVar (hFits : Stage.Fits n ⟨.eliminating, eqs, ges⟩)
    (hOrdered : Stage.Ordered ⟨.eliminating, eqs, ges⟩)
    (hPick : pickVar n ges = none) : Stage.Solvable ⟨.eliminating, eqs, ges⟩ := by
  have hEqs : eqs = [] := hOrdered.1 (.inr rfl)
  have hGes : ges = [] := by
    apply eq_nil_iff_forall_not_mem.mpr
    intro r hIn
    obtain ⟨v, hCoeff⟩ := hOrdered.2 rfl r hIn
    have hWidth := (hFits r (mem_append_right _ hIn)).1
    have hLess : v < n := by
      by_contra hBeyond
      exact hCoeff (Row.coeff_eq_zero (by omega))
    exact not_occurs_of_pickVar hPick hLess ⟨r, hIn, hCoeff⟩
  exact ⟨fun _ => 0, by simp [hEqs], by simp [hGes]⟩

/- A search for a unit coefficient that meets no least word. -/
theorem not_meetsLeast_of_leastFree (hLeast : t.LeastFree) : ¬ MeetsLeast t.equalities := by
  rintro ⟨before, r, after, hRows, _, front, c, back, hCoeffs, _, rfl⟩
  refine hLeast r (mem_append_left _ ?_) ?_
  · rw [hRows]
    simp
  · rw [hCoeffs]
    simp

end Elimination

namespace ConstraintSystem

/-
  If no coefficient of a row is the least word at any stage, a
  system that elimination does not find empty has a rational
  solution: a system without one is found empty, unless the
  test gives up.
-/
theorem exists_rational_solution (s : ConstraintSystem) (hForm : s.WellFormed)
    (hLeast : ∀ t, Elimination.Reached s t → t.LeastFree) :
    (Elimination.run s = .ok (some false) → ∃ x : Nat → ℚ, s.HoldsAt x) ∧
      ((¬ ∃ x : Nat → ℚ, s.HoldsAt x) → s.isEmpty = .ok true ∨ ∃ t, Elimination.Reached s t ∧
            Elimination.GivesUp s.numVars t) := by
  have hEmpty (hRun : Elimination.run s = .ok (some true)) : s.isEmpty = .ok true := by
    unfold isEmpty
    rw [hRun]
    rfl
  have hSolvable {eqs ges : List Row} (hReached : Elimination.Reached s ⟨.eliminating, eqs, ges⟩)
      (hPick : Elimination.pickVar s.numVars ges = none) : ∃ x : Nat → ℚ, s.HoldsAt x :=
    Elimination.solvable_of_reached hForm hLeast hReached (Elimination.solvable_of_pickVar
        (Elimination.fits_of_reached hForm hReached)
        (Elimination.ordered_of_reached hForm hLeast hReached) hPick)
  constructor
  · intro hRun
    obtain ⟨t, hReached, hEnds⟩ := (Elimination.run_eq_iff hForm).mp hRun
    cases hEnds with
    | eliminating hPick => exact hSolvable hReached hPick
  · intro hNone
    obtain ⟨t, hReached, hEnds⟩ := (Elimination.run_eq_iff hForm).mp rfl
    generalize hRun : Elimination.run s = answer at hEnds
    cases hEnds with
    | given _ | substituting _ _ | tightening _ => exact .inl (hEmpty hRun)
    | eliminating hPick => exact absurd (hSolvable hReached hPick) hNone
    | fault hFault =>
      have hFits := Elimination.fits_of_reached hForm hReached
      have hMeets := ((Elimination.pivotFrom_eq_error_iff
        (forall_mem_append.mp hFits).1).mp hFault).2
      exact absurd hMeets (Elimination.not_meetsLeast_of_leastFree (hLeast _ hReached))
    | gaveUp hGivesUp => exact .inr ⟨t, hReached, hGivesUp⟩

/-
  `x = 3 * y` with `1 ≤ 4 * y` and `x ≤ 5` leaves only `y = 1`,
  for which `2 * y + 3 * z = 1` asks that `z` be minus a third.
-/
def minusThird : ConstraintSystem where
  numVars := 3
  equalities := [⟨[1, -3, 0], 0⟩, ⟨[0, 2, 3], -1⟩]
  inequalities := [⟨[0, 4, 0], -1⟩, ⟨[-1, 0, 0], 5⟩]

/- The stages that elimination takes this system through. -/
def minusThirdStages : List Elimination.Stage := [⟨.given, [⟨[1, -3, 0], 0⟩, ⟨[0, 2, 3], -1⟩],
      [⟨[0, 4, 0], -1⟩, ⟨[-1, 0, 0], 5⟩]⟩, ⟨.substituting, [⟨[1, -3, 0], 0⟩, ⟨[0, 2, 3], -1⟩],
      [⟨[0, 4, 0], -1⟩, ⟨[-1, 0, 0], 5⟩]⟩, ⟨.substituting, [⟨[0, 2, 3], -1⟩],
      [⟨[0, 4, 0], -1⟩, ⟨[0, -3, 0], 5⟩]⟩, ⟨.splitting, [⟨[0, 2, 3], -1⟩],
      [⟨[0, 4, 0], -1⟩, ⟨[0, -3, 0], 5⟩]⟩, ⟨.tightening, [], [⟨[0, 4, 0], -1⟩, ⟨[0, -3, 0], 5⟩,
        ⟨[0, 2, 3], -1⟩, ⟨[0, -2, -3], 1⟩]⟩, ⟨.eliminating, [], [⟨[0, 1, 0], -1⟩, ⟨[0, -1, 0], 1⟩,
        ⟨[0, 2, 3], -1⟩, ⟨[0, -2, -3], 1⟩]⟩, ⟨.tightening, [],
      [⟨[0, 1, 0], -1⟩, ⟨[0, -1, 0], 1⟩, ⟨[0, 0, 0], 0⟩]⟩,
    ⟨.eliminating, [], [⟨[0, 1, 0], -1⟩, ⟨[0, -1, 0], 1⟩]⟩, ⟨.tightening, [], [⟨[0, 0, 0], 0⟩]⟩,
    ⟨.eliminating, [], []⟩]

theorem exists_rational_solution_minusThird :
    Elimination.run minusThird = .ok (some false) ∧ ∃ x : Nat → ℚ, minusThird.HoldsAt x := by
  have hRun : Elimination.run minusThird = .ok (some false) := rfl
  have hLeast : ∀ t ∈ minusThirdStages, t.LeastFree := by decide
  refine ⟨hRun, (exists_rational_solution minusThird (by decide) ?_).1 hRun⟩
  intro t hReached
  exact hLeast t (hReached.mem_of_closed (by decide) (by decide))

end ConstraintSystem

end AffineIR
