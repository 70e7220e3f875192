import AffineIR.Proofs.Constraint.Answers

/-
  Soundness of the emptiness test.

  Every step of elimination keeps all integer points of the
  rows it works on, as long as no coefficient is the least
  word, whose absolute value is not a word.  So a row without
  integer solutions at any stage shows that the system had
  none to begin with.

  Main result: `ConstraintSystem.no_solution_of_isEmpty`
-/

namespace AffineIR

open List

variable {x : Nat → Int} {t u : Stage} {i n v : Nat} {s : ConstraintSystem} {r : Row} {a c : Int}

------
-- Rows of a system
------

namespace Row

/- No coefficient of the row is the least word. -/
def LeastFree (r : Row) : Prop := Word.least ∉ r.coeffs

instance (r : Row) : Decidable r.LeastFree := by
  unfold LeastFree
  infer_instance

/- Coefficients whose absolute values are words, too. -/
theorem natAbs_le_of_leastFree (hRange : r.InRange) (hLeast : r.LeastFree)
    (hMember : c ∈ r.coeffs) : (c.natAbs : Int) ≤ Word.greatest := by
  have hWord : Word.IsWord c := ((inRange_iff r).mp hRange).1 c hMember
  have hNe : c ≠ Word.least := by
    intro hEq
    exact hLeast (hEq ▸ hMember)
  unfold Word.IsWord Word.least Word.greatest at *
  omega

end Row

namespace Elimination

namespace Stage

/- The least word is no coefficient at this stage. -/
def LeastFree (t : Stage) : Prop := ∀ r ∈ t.equalities ++ t.inequalities, r.LeastFree

instance (t : Stage) : Decidable t.LeastFree := by
  unfold LeastFree
  infer_instance

/- An assignment that satisfies the rows of the stage. -/
def Holds (t : Stage) (x : Nat → Int) : Prop := (∀ r ∈ t.equalities, r.eval x = 0) ∧
    (∀ r ∈ t.inequalities, 0 ≤ r.eval x)

end Stage

theorem gcdWord_eq (hAcc : (a.natAbs : Int) ≤ Word.greatest)
    (hCoeff : (c.natAbs : Int) ≤ Word.greatest) : gcdWord a c = Int.gcd a c := by
  have hBound : (Int.gcd a c : Int) ≤ Word.greatest := by
    by_cases hZero : c = 0
    · subst hZero
      simpa using hAcc
    · have hLe : Int.gcd a c ≤ c.natAbs := Nat.le_of_dvd (Int.natAbs_pos.mpr hZero)
          (Int.gcd_dvd_natAbs_right a c)
      omega
  unfold gcdWord
  exact min_eq_left hBound

/-
  Folding over coefficients whose absolute values are words
  gives a number that divides all of them and where it began.
-/
theorem foldl_gcdWord {cs : List Int} (hCoeffs : ∀ c ∈ cs, (c.natAbs : Int) ≤ Word.greatest)
    (hNonneg : 0 ≤ a) (hAcc : a ≤ Word.greatest) :
    0 ≤ cs.foldl gcdWord a ∧ cs.foldl gcdWord a ∣ a ∧ ∀ c ∈ cs, cs.foldl gcdWord a ∣ c := by
  induction cs generalizing a with
  | nil => exact ⟨hNonneg, dvd_refl a, by simp⟩
  | cons c cs ih =>
    have hHead : gcdWord a c = Int.gcd a c := gcdWord_eq (by omega) (hCoeffs c mem_cons_self)
    have hBound : gcdWord a c ≤ Word.greatest := min_le_right _ _
    rcases ih (fun d hMember =>
          hCoeffs d (mem_cons_of_mem _ hMember))
        (a := gcdWord a c) (by omega) hBound with
      ⟨hSign, hDvd, hRest⟩
    rw [foldl_cons]
    refine ⟨hSign, ?_, ?_⟩
    · refine dvd_trans hDvd ?_
      rw [hHead]
      exact Int.gcd_dvd_left a c
    · intro d hMember
      rcases mem_cons.mp hMember with rfl | hTail
      · refine dvd_trans hDvd ?_
        rw [hHead]
        exact Int.gcd_dvd_right a d
      · exact hRest d hTail

/- The content of the row divides each of its coefficients. -/
def Divides (r : Row) : Prop := ∀ c ∈ r.coeffs, content r ∣ c

theorem divides_of_leastFree (hRange : r.InRange) (hLeast : r.LeastFree) : Divides r :=
  (foldl_gcdWord (fun _ => Row.natAbs_le_of_leastFree hRange hLeast) le_rfl (by decide)).2.2

theorem Stage.Fits.divides (hFits : t.Fits n)
    (hLeast : t.LeastFree) : ∀ r ∈ t.equalities ++ t.inequalities, Divides r :=
  fun r hIn => divides_of_leastFree (hFits r hIn).2 (hLeast r hIn)

------
-- Division of single rows
------

section

variable {s : Row}

section

variable (hDivides : Divides r)

include hDivides

/- A row without content has the value of its constant. -/
theorem eval_of_content_eq_zero (hContent : content r = 0)
    (x : Nat → Int) : r.eval x = r.constant := by
  have hZero : Row.sumFrom x 0 r.coeffs = 0 := by
    apply zero_dvd_iff.mp
    rw [← hContent]
    exact Row.dvd_sumFrom x hDivides 0
  simp [Row.eval, hZero]

/- An equality that is found contradictory is never satisfied. -/
theorem eval_ne_zero_of_normalizeRow (hVerdict : normalizeRow r = .contradiction)
    (x : Nat → Int) : r.eval x ≠ 0 := by
  intro hZero
  -- The constant would be a multiple of the content.
  apply of_normalizeRow_eq_contradiction hVerdict
  have hConstant : r.constant = -Row.sumFrom x 0 r.coeffs := by
    unfold Row.eval at hZero
    omega
  rw [hConstant]
  exact (Int.dvd_neg).mpr (Row.dvd_sumFrom x hDivides 0)

/- A divided equality times the content is the given one. -/
theorem eval_of_normalizeRow (hVerdict : normalizeRow r = .keep s)
    (x : Nat → Int) : r.eval x = content r * s.eval x := by
  obtain ⟨_, hDvd, rfl⟩ := of_normalizeRow_eq_keep hVerdict
  simp only [Row.eval, quotient]
  rw [mul_add, Row.sumFrom_divide x hDivides 0, Int.mul_tdiv_cancel' hDvd]

/- A divided equality has the same solutions. -/
theorem eval_eq_zero_iff_of_normalizeRow (hVerdict : normalizeRow r = .keep s)
    (x : Nat → Int) : s.eval x = 0 ↔ r.eval x = 0 := by
  have hPos := (of_normalizeRow_eq_keep hVerdict).1
  rw [eval_of_normalizeRow hDivides hVerdict x]
  simp [hPos.ne']

/- An inequality that is found contradictory is never satisfied. -/
theorem eval_neg_of_tightenRow (hVerdict : tightenRow r = .contradiction)
    (x : Nat → Int) : r.eval x < 0 := by
  obtain ⟨hContent, hNeg⟩ := of_tightenRow_eq_contradiction hVerdict
  rwa [eval_of_content_eq_zero hDivides hContent]

/-
  A tightened inequality times the content is the given one,
  but for what was lost by rounding the constant down.
-/
theorem eval_of_tightenRow (hVerdict : tightenRow r = .keep s) :
    ∃ d, 0 ≤ d ∧ d < content r ∧ ∀ x, r.eval x = content r * s.eval x + d := by
  obtain ⟨hPos, rfl⟩ := of_tightenRow_eq_keep hVerdict
  refine ⟨r.constant.fmod (content r), Int.fmod_nonneg_of_pos _ hPos, Int.fmod_lt_of_pos _ hPos, ?_⟩
  intro x
  have hConstant := Int.mul_fdiv_add_fmod r.constant (content r)
  simp only [Row.eval, quotient]
  rw [mul_add, Row.sumFrom_divide x hDivides 0]
  omega

/- A tightened inequality has the same integer solutions. -/
theorem eval_nonneg_iff_of_tightenRow (hVerdict : tightenRow r = .keep s)
    (x : Nat → Int) : 0 ≤ s.eval x ↔ 0 ≤ r.eval x := by
  obtain ⟨d, hNonneg, hLess, hEval⟩ := eval_of_tightenRow hDivides hVerdict
  rw [hEval x]
  constructor
  · intro hHolds
    nlinarith
  · intro hHolds
    -- what was lost is less than the content
    by_contra hNeg
    nlinarith

end

end

------
-- Steps
------

section

variable {rows out : List Row}

theorem holds_of_normalize (hDivides : ∀ r ∈ rows, Divides r) (hSome : normalize rows = some out)
    (hZero : ∀ r ∈ rows, r.eval x = 0) : ∀ s ∈ out, s.eval x = 0 := by
  intro s hMember
  obtain ⟨r, hIn, hKept⟩ := (sorts_normalize _).of_kept hSome hMember
  exact (eval_eq_zero_iff_of_normalizeRow (hDivides r hIn) hKept x).mpr (hZero r hIn)

theorem holds_of_tighten (hDivides : ∀ r ∈ rows, Divides r) (hSome : tighten rows = some out)
    (hNonneg : ∀ r ∈ rows, 0 ≤ r.eval x) : ∀ s ∈ out, 0 ≤ s.eval x := by
  intro s hMember
  obtain ⟨r, hIn, hKept⟩ := (sorts_tighten _).of_kept hSome hMember
  exact (eval_nonneg_iff_of_tightenRow (hDivides r hIn) hKept x).mpr (hNonneg r hIn)

theorem holds_of_split? (hSome : split? rows = some out)
    (hZero : ∀ r ∈ rows, r.eval x = 0) : ∀ s ∈ out, 0 ≤ s.eval x := by
  intro s hMember
  obtain ⟨r, hIn, rfl | hNeg⟩ := ((mem_split?_iff hSome).2 s).mp hMember
  · exact (hZero s hIn).ge
  · rw [(Row.fits_of_neg? hNeg).2 x, hZero r hIn, mul_zero]

theorem holds_of_eliminateVar? (hFits : ∀ r ∈ rows, r.Fits n)
    (hSome : eliminateVar? v rows = some out)
    (hNonneg : ∀ r ∈ rows, 0 ≤ r.eval x) : ∀ s ∈ out, 0 ≤ s.eval x := by
  intro s hMember
  rcases exists_of_mem_eliminateVar? hSome hMember with
    ⟨hOld, _⟩ | ⟨lower, hLower, upper, hUpper, hPos, hNeg, hAdd⟩
  · exact hNonneg s hOld
  · rw [(exists_of_addBounds? (hFits _ hLower) (hFits _ hUpper) hAdd).2 x]
    have hFirst : 0 ≤ -upper.coeff v * lower.eval x := mul_nonneg (by omega) (hNonneg _ hLower)
    have hSecond : 0 ≤ lower.coeff v * upper.eval x := mul_nonneg (by omega) (hNonneg _ hUpper)
    omega

/- Using a satisfied equality as a pivot keeps all points. -/
theorem holds_of_pivotAt? {eqs ges : List Row} (hFits : Stage.Fits n ⟨.substituting, eqs, ges⟩)
    (hPivot : pivotFrom 0 eqs = .ok (some (i, v))) (hNext : pivotAt? i v eqs ges = some u)
    (hHolds : Stage.Holds ⟨.substituting, eqs, ges⟩ x) : u.Holds x := by
  obtain ⟨eqs', ges', rfl, hEqs, hGes⟩ := exists_of_pivotAt? hNext
  obtain ⟨hOldEqs, hOldGes⟩ := forall_mem_append.mp hFits
  have hMember := pivot_mem hPivot
  have hPivotZero := hHolds.1 _ hMember
  refine ⟨?_, ?_⟩
  · intro s hIn
    obtain ⟨r, hOld, hClear⟩ := Row.exists_of_mem_mapM hEqs hIn
    have hRow := mem_of_mem_swapRemove hOld
    rw [(exists_of_clearVar? (hOldEqs _ hMember) (hOldEqs r hRow)
      hClear).2 x, hPivotZero, mul_zero, sub_zero]
    exact hHolds.1 r hRow
  · intro s hIn
    obtain ⟨r, hOld, hClear⟩ := Row.exists_of_mem_mapM hGes hIn
    rw [(exists_of_clearVar? (hOldEqs _ hMember) (hOldGes r hOld)
      hClear).2 x, hPivotZero, mul_zero, sub_zero]
    exact hHolds.2 r hOld

end

/- One step keeps every integer point. -/
theorem holds_of_step (hFits : t.Fits n) (hLeast : t.LeastFree) (hStep : Step t u)
    (hHolds : t.Holds x) : u.Holds x := by
  have hDivides := hFits.divides hLeast
  obtain ⟨hEqs, hGes⟩ := forall_mem_append.mp hDivides
  cases hStep with
  | divide hSome | divideAgain hSome => exact ⟨holds_of_normalize hEqs hSome hHolds.1, hHolds.2⟩
  | pivot hPivot hSome => exact holds_of_pivotAt? hFits hPivot hSome hHolds
  | split hSome => exact ⟨by simp, forall_mem_append.mpr ⟨hHolds.2, holds_of_split? hSome hHolds.1⟩⟩
  | tighten hSome => exact ⟨hHolds.1, holds_of_tighten hGes hSome hHolds.2⟩
  | eliminate hSome =>
    exact ⟨hHolds.1, holds_of_eliminateVar? (forall_mem_append.mp hFits).2 hSome hHolds.2⟩

/- A whole run: every stage keeps the points of the system. -/
theorem holds_of_reached (hForm : s.WellFormed) (hLeast : ∀ t, Reached s t → t.LeastFree)
    (hReached : Reached s t) : t.Fits s.numVars ∧ ∀ x, s.Holds x → t.Holds x := by
  refine ⟨fits_of_reached hForm hReached, ?_⟩
  intro x hHolds
  induction hReached with
  | start => exact hHolds
  | next hBefore hNext ih =>
    exact holds_of_step (fits_of_reached hForm hBefore) (hLeast _ hBefore) (step_of_next? hNext) ih

/- A row without integer solutions is found in some stage. -/
def Contradicts (t : Stage) : Prop := normalize t.equalities = none ∨ tighten t.inequalities = none

/-
  When the test answers that a system is empty, one of the
  stages it came to holds a row without integer solutions.
-/
theorem reached_contradiction (hForm : s.WellFormed)
    (hRun : run s = .ok (some true)) : ∃ t, Reached s t ∧ Contradicts t := by
  obtain ⟨t, hReached, hEnds⟩ := (run_eq_iff hForm).mp hRun
  refine ⟨t, hReached, ?_⟩
  cases hEnds with
  | given hNone => exact .inl hNone
  | substituting _ hNone => exact .inl hNone
  | tightening hNone => exact .inr hNone

/- A contradictory row rules out every point of its stage. -/
theorem not_holds_of_contradicts (hFits : t.Fits n) (hLeast : t.LeastFree)
    (hContradicts : Contradicts t) (x : Nat → Int) : ¬ t.Holds x := by
  rintro ⟨hZero, hNonneg⟩
  have hDivides := hFits.divides hLeast
  rcases hContradicts with hNone | hNone
  · obtain ⟨r, hIn, hVerdict⟩ := (sorts_normalize _).of_none hNone
    exact eval_ne_zero_of_normalizeRow (hDivides r (mem_append_left _ hIn)) hVerdict x
      (hZero r hIn)
  · obtain ⟨r, hIn, hVerdict⟩ := (sorts_tighten _).of_none hNone
    exact absurd (hNonneg r hIn) (not_le.mpr (eval_neg_of_tightenRow
        (hDivides r (mem_append_right _ hIn)) hVerdict x))

end Elimination

namespace ConstraintSystem

theorem run_of_isEmpty (hEmpty : s.isEmpty = .ok true) : Elimination.run s = .ok (some true) := by
  unfold isEmpty at hEmpty
  rcases hRun : Elimination.run s with e | _ | found
  all_goals
    rw [hRun] at hEmpty
    cases hEmpty
  rfl

/-
  A system that the test calls empty has no integer solution,
  if no coefficient of a row is the least word at any stage.
-/
theorem no_solution_of_isEmpty (s : ConstraintSystem) (hForm : s.WellFormed)
    (hLeast : ∀ t, Elimination.Reached s t → t.LeastFree)
    (hEmpty : s.isEmpty = .ok true) : ¬ ∃ x : Nat → Int, s.Holds x := by
  rintro ⟨x, hHolds⟩
  rcases Elimination.reached_contradiction hForm (run_of_isEmpty hEmpty) with
    ⟨t, hReached, hContradicts⟩
  obtain ⟨hFits, hKeep⟩ := Elimination.holds_of_reached hForm hLeast hReached
  exact Elimination.not_holds_of_contradicts hFits
    (hLeast t hReached) hContradicts x (hKeep x hHolds)

/- Twice a number that is one: `x = 2 * y` and `x = 1`. -/
def doubledToOne : ConstraintSystem where
  numVars := 2
  equalities := [⟨[1, -2], 0⟩]
  inequalities := [⟨[1, 0], -1⟩, ⟨[-1, 0], 1⟩]

/- The stages that elimination takes this system through. -/
def doubledToOneStages : List Elimination.Stage :=
  [⟨.given, [⟨[1, -2], 0⟩], [⟨[1, 0], -1⟩, ⟨[-1, 0], 1⟩]⟩, ⟨.substituting, [⟨[1, -2], 0⟩],
      [⟨[1, 0], -1⟩, ⟨[-1, 0], 1⟩]⟩, ⟨.substituting, [], [⟨[0, 2], -1⟩, ⟨[0, -2], 1⟩]⟩,
    ⟨.splitting, [], [⟨[0, 2], -1⟩, ⟨[0, -2], 1⟩]⟩, ⟨.tightening, [], [⟨[0, 2], -1⟩, ⟨[0, -2], 1⟩]⟩,
    ⟨.eliminating, [], [⟨[0, 1], -1⟩, ⟨[0, -1], 0⟩]⟩, ⟨.tightening, [], [⟨[0, 0], -1⟩]⟩]

theorem no_solution_doubledToOne :
    doubledToOne.isEmpty = .ok true ∧ ¬ ∃ x : Nat → Int, doubledToOne.Holds x := by
  have hEmpty : doubledToOne.isEmpty = .ok true := rfl
  refine ⟨hEmpty, ?_⟩
  have hLeast : ∀ t ∈ doubledToOneStages, t.LeastFree := by decide
  refine no_solution_of_isEmpty doubledToOne (by decide) ?_ hEmpty
  intro t hReached
  exact hLeast t (hReached.mem_of_closed (by decide) (by decide))

end ConstraintSystem

end AffineIR
