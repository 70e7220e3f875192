import AffineIR.Proofs.Constraint.Stages
import AffineIR.Proofs.Constraint.Steps

/-
  How the emptiness test ends.

  The answer of the test is the one of the last stage it comes
  to: the rounds it allows itself are always enough, because a
  round of substitution uses up an equality and a round of
  elimination removes a variable.  All entries stay words, so
  that the only fault is the absolute value of the least word
  in the search for a unit coefficient; whatever else does not
  fit makes the test give up.

  Main result: `ConstraintSystem.isEmpty_of_givesUp`
-/

namespace AffineIR

open List

variable {i j n rounds v : Nat} {s : ConstraintSystem} {eqs ges rows rows' rows'' : List Row}
  {t u : Stage} {cs : List Int} {e : Fault} {c : Int}

namespace Elimination

------
-- Rows of stages
------

/- Every row of the stage fits a system of `n` variables. -/
def Stage.Fits (n : Nat) (t : Stage) : Prop := ∀ r ∈ t.equalities ++ t.inequalities, r.Fits n

section

variable {out : List Row}

theorem fits_of_normalize (hFits : ∀ r ∈ rows, r.Fits n)
    (hSome : normalize rows = some out) : ∀ s ∈ out, s.Fits n := by
  intro s hMember
  obtain ⟨r, hIn, hKept⟩ := (sorts_normalize _).of_kept hSome hMember
  exact fits_of_normalizeRow (hFits r hIn) hKept

theorem fits_of_tighten (hFits : ∀ r ∈ rows, r.Fits n)
    (hSome : tighten rows = some out) : ∀ s ∈ out, s.Fits n := by
  intro s hMember
  obtain ⟨r, hIn, hKept⟩ := (sorts_tighten _).of_kept hSome hMember
  exact fits_of_tightenRow (hFits r hIn) hKept

theorem fits_of_split? (hFits : ∀ r ∈ rows, r.Fits n)
    (hSome : split? rows = some out) : ∀ s ∈ out, s.Fits n := by
  intro s hMember
  obtain ⟨r, hIn, rfl | hNeg⟩ := ((mem_split?_iff hSome).2 s).mp hMember
  · exact hFits s hIn
  · exact (hFits r hIn).1 ▸ (Row.fits_of_neg? hNeg).1

theorem fits_of_eliminateVar? (hFits : ∀ r ∈ rows, r.Fits n)
    (hSome : eliminateVar? v rows = some out) : ∀ s ∈ out, s.Fits n := by
  intro s hMember
  rcases exists_of_mem_eliminateVar? hSome hMember with
    ⟨hOld, _⟩ | ⟨lower, hLower, upper, hUpper, _, _, hAdd⟩
  · exact hFits s hOld
  · exact (exists_of_addBounds? (hFits _ hLower) (hFits _ hUpper) hAdd).1

theorem fits_of_clearVar? {pivot : Row} (hPivot : pivot.Fits n) (hFits : ∀ r ∈ rows, r.Fits n)
    (hSome : rows.mapM (clearVar? pivot v) = some out) : ∀ s ∈ out, s.Fits n := by
  intro s hMember
  obtain ⟨r, hIn, hClear⟩ := Row.exists_of_mem_mapM hSome hMember
  exact (exists_of_clearVar? hPivot (hFits r hIn) hClear).1

end

theorem fits_of_pivotAt? (hFits : Stage.Fits n ⟨.substituting, eqs, ges⟩)
    (hPivot : pivotFrom 0 eqs = .ok (some (i, v)))
    (hNext : pivotAt? i v eqs ges = some u) : u.Fits n := by
  obtain ⟨eqs', ges', rfl, hEqs, hGes⟩ := exists_of_pivotAt? hNext
  obtain ⟨hOldEqs, hOldGes⟩ := forall_mem_append.mp hFits
  have hPivotFits := hOldEqs _ (pivot_mem hPivot)
  refine forall_mem_append.mpr ⟨?_, ?_⟩
  · refine fits_of_clearVar? hPivotFits ?_ hEqs
    intro r hIn
    exact hOldEqs r (mem_of_mem_swapRemove hIn)
  · exact fits_of_clearVar? hPivotFits hOldGes hGes

/- One step keeps all entries words. -/
theorem fits_of_step (hFits : t.Fits n) (hStep : Step t u) : u.Fits n := by
  obtain ⟨hEqs, hGes⟩ := forall_mem_append.mp hFits
  cases hStep with
  | divide hSome | divideAgain hSome =>
    exact forall_mem_append.mpr ⟨fits_of_normalize hEqs hSome, hGes⟩
  | pivot hPivot hSome => exact fits_of_pivotAt? hFits hPivot hSome
  | split hSome =>
    have hNew := forall_mem_append.mpr ⟨hGes, fits_of_split? hEqs hSome⟩
    exact hNew
  | tighten hSome => exact forall_mem_append.mpr ⟨hEqs, fits_of_tighten hGes hSome⟩
  | eliminate hSome => exact forall_mem_append.mpr ⟨hEqs, fits_of_eliminateVar? hGes hSome⟩

/- All entries are words at every stage. -/
theorem fits_of_reached (hForm : s.WellFormed) (hReached : Reached s t) : t.Fits s.numVars := by
  induction hReached with
  | start => exact hForm
  | next _ hNext ih => exact fits_of_step ih (step_of_next? hNext)

------
-- Rounds of substitution
------

theorem length_swapRemove {α : Type} (xs : List α)
    (i : Nat) : (swapRemove xs i).length = xs.length - 1 := by
  unfold swapRemove
  cases hLast : xs.getLast? with
  | none =>
    rw [List.getLast?_eq_none_iff] at hLast
    simp [hLast]
  | some last => simp

/- A round goes on from the stage that its pivot leads to. -/
theorem substituteUpTo_succ (rounds : Nat) (eqs ges : List Row) :
    substituteUpTo (rounds + 1) eqs ges =
      match pivotFrom 0 eqs with
      | .error e => .error e
      | .ok none => .ok (some (eqs, ges))
      | .ok (some (i, v)) =>
        match pivotAt? i v eqs ges with
        | none => .ok none
        | some u => substituteUpTo rounds u.equalities u.inequalities := by
  rw [substituteUpTo]
  match pivotFrom 0 eqs with
  | .error e => rfl
  | .ok none => rfl
  | .ok (some (i, v)) =>
    simp only [pivotAt?]
    cases (swapRemove eqs i).mapM (clearVar? (eqs.getD i default) v) with
    | none => rfl
    | some eqs' => cases ges.mapM (clearVar? (eqs.getD i default) v) <;> rfl

theorem length_of_pivotAt? (hNext : pivotAt? i v eqs ges = some u) :
    u.phase = .substituting ∧ u.equalities.length = eqs.length - 1 := by
  obtain ⟨eqs', ges', rfl, hEqs, _⟩ := exists_of_pivotAt? hNext
  exact ⟨rfl, by rw [Row.length_of_mapM hEqs, length_swapRemove]⟩

/- What a run of a part of the test has come to. -/
def Leads (s : ConstraintSystem) (answer : Except Fault (Option Bool)) : Prop :=
  ∃ t, Reached s t ∧ Ends s.numVars t answer

/- What substitution comes to: an answer, or rows without a unit equality. -/
def Leaves (s : ConstraintSystem) :
    Except Fault (Option (List Row × List Row)) → Prop
  | .error e => Leads s (.error e)
  | .ok none => Leads s (.ok none)
  | .ok (some (eqs, ges)) => Reached s ⟨.substituting, eqs, ges⟩ ∧ pivotFrom 0 eqs = .ok none

/-
  Substitution ends the test or leaves a stage without a unit
  equality; each round uses up one equality.
-/
theorem leads_of_substituteUpTo (hReached : Reached s ⟨.substituting, eqs, ges⟩)
    (hRounds : eqs.length ≤ rounds) : Leaves s (substituteUpTo rounds eqs ges) := by
  induction rounds generalizing eqs ges with
  | zero =>
    have hNil : eqs = [] := length_eq_zero_iff.mp (Nat.le_zero.mp hRounds)
    subst hNil
    exact ⟨hReached, rfl⟩
  | succ rounds ih =>
    rw [substituteUpTo_succ]
    cases hPivot : pivotFrom 0 eqs with
    | error e => exact ⟨_, hReached, .fault hPivot⟩
    | ok found =>
      cases found with
      | none => exact ⟨hReached, hPivot⟩
      | some place =>
        obtain ⟨i, v⟩ := place
        simp only
        cases hNext : pivotAt? i v eqs ges with
        | none => exact ⟨_, hReached, .gaveUp (.substituting hPivot hNext)⟩
        | some u =>
          obtain ⟨phase, eqs', ges'⟩ := u
          obtain ⟨rfl, hLength⟩ := length_of_pivotAt? hNext
          have hFewer : eqs'.length ≤ rounds := by
            simp only at hLength
            omega
          refine ih (hReached.next ?_) hFewer
          simp only [next?, hPivot, hNext]

/- The variables that are left in rows. -/
def live (n : Nat) (rows : List Row) : Finset Nat := (Finset.range n).filter fun v => Occurs v rows

/- Rows without one of the variables have fewer of them. -/
theorem card_live_lt (hLess : v < n) (hOccurs : Occurs v rows)
    (hFewer : ∀ w, Occurs w rows' → w ≠ v ∧ Occurs w rows) :
    (live n rows').card < (live n rows).card := by
  apply Finset.card_lt_card
  rw [Finset.ssubset_iff]
  refine ⟨v, fun hMember => (hFewer v (Finset.mem_filter.mp hMember).2).1 rfl, ?_⟩
  intro w hMember
  rcases Finset.mem_insert.mp hMember with rfl | hMember
  · exact Finset.mem_filter.mpr ⟨Finset.mem_range.mpr hLess, hOccurs⟩
  · obtain ⟨hRange, hLeft⟩ := Finset.mem_filter.mp hMember
    exact Finset.mem_filter.mpr ⟨hRange, (hFewer w hLeft).2⟩

theorem leads_of_eliminateUpTo? (hForm : s.WellFormed)
    (hReached : Reached s ⟨.tightening, [], rows⟩) (hRounds : (live s.numVars rows).card < rounds) :
    Leads s (.ok (eliminateUpTo? s.numVars rounds rows)) := by
  induction rounds generalizing rows with
  | zero => cases hRounds
  | succ rounds ih =>
    rw [eliminateUpTo?]
    cases hTighten : tighten rows with
    | none => exact ⟨_, hReached, .tightening hTighten⟩
    | some rows' =>
      have hTight : Reached s ⟨.eliminating, [], rows'⟩ := hReached.next (by simp [next?, hTighten])
      simp only
      cases hPick : pickVar s.numVars rows' with
      | none => exact ⟨_, hTight, .eliminating hPick⟩
      | some v =>
        simp only
        cases hVar : eliminateVar? v rows' with
        | none => exact ⟨_, hTight, .gaveUp (.eliminating hPick hVar)⟩
        | some rows'' =>
          have hNext : Reached s ⟨.tightening, [], rows''⟩ :=
            hTight.next (by simp [next?, hPick, hVar])
          have hFits : ∀ r ∈ rows', r.Fits s.numVars := fits_of_reached hForm hTight
          obtain ⟨hLess, hOccurs⟩ := occurs_of_pickVar hPick
          have hFewer := card_live_lt hLess (occurs_of_tighten hTighten hOccurs) fun w hLeft =>
            (occurs_of_eliminateVar? hFits hVar hLeft).imp_right (occurs_of_tighten hTighten)
          exact ih hNext (by omega)

theorem leads_of_eliminate? (hForm : s.WellFormed)
    (hReached : Reached s ⟨.tightening, [], rows⟩) : Leads s (.ok (eliminate? s.numVars rows)) := by
  refine leads_of_eliminateUpTo? hForm hReached ?_
  have hCard : (live s.numVars rows).card ≤ (Finset.range s.numVars).card :=
    Finset.card_le_card (Finset.filter_subset _ _)
  rw [Finset.card_range] at hCard
  omega

/- The test comes to a stage at which it ends with its answer. -/
theorem leads_run (hForm : s.WellFormed) : Leads s (run s) := by
  unfold run
  cases hFirst : normalize s.equalities with
  | none => exact ⟨_, .start, .given hFirst⟩
  | some eqs =>
    have hDivided : Reached s ⟨.substituting, eqs, s.inequalities⟩ :=
      Reached.start.next (by simp [Stage.ofSystem, next?, hFirst])
    have hLeft := leads_of_substituteUpTo hDivided le_rfl
    change Leaves s (substitute eqs s.inequalities) at hLeft
    simp only [bind, Except.bind, pure, Except.pure]
    cases hSub : substitute eqs s.inequalities with
    | error e => rwa [hSub] at hLeft
    | ok left =>
      rw [hSub] at hLeft
      cases left with
      | none => exact hLeft
      | some rows =>
        obtain ⟨eqs', ges'⟩ := rows
        obtain ⟨hUsed, hNoPivot⟩ := hLeft
        simp only
        cases hSecond : normalize eqs' with
        | none => exact ⟨_, hUsed, .substituting hNoPivot hSecond⟩
        | some eqs'' =>
          have hNormal : Reached s ⟨.splitting, eqs'', ges'⟩ :=
            hUsed.next (by simp [next?, hNoPivot, hSecond])
          simp only
          cases hSplit : split? eqs'' with
          | none => exact ⟨_, hNormal, .gaveUp (.splitting hSplit)⟩
          | some pairs => exact leads_of_eliminate? hForm (hNormal.next (by simp [next?, hSplit]))

/- The answers of the test are those of the stages it comes to. -/
theorem run_eq_iff (hForm : s.WellFormed) {answer : Except Fault (Option Bool)} :
    run s = answer ↔ ∃ t, Reached s t ∧ Ends s.numVars t answer := by
  constructor
  · rintro rfl
    exact leads_run hForm
  · rintro ⟨t, hReached, hEnds⟩
    obtain ⟨u, hReached', hEnds'⟩ := leads_run hForm
    have hSame := hReached.eq_of_last hReached' hEnds.next?_eq_none hEnds'.next?_eq_none
    subst hSame
    exact hEnds'.unique hEnds

------
-- Faults
------

/- An entry with `Q` that only entries with `P` come before. -/
def Until {α : Type} (P Q : α → Prop) (xs : List α) : Prop :=
  ∃ front a back, xs = front ++ a :: back ∧
    (∀ b ∈ front, P b) ∧ Q a

theorem not_until_nil {α : Type} {P Q : α → Prop} : ¬ Until P Q [] := by
  rintro ⟨front, a, back, hEq, _⟩
  cases front <;> cases hEq

theorem until_cons_iff {α : Type} {P Q : α → Prop} {a : α}
    {xs : List α} : Until P Q (a :: xs) ↔ Q a ∨ P a ∧ Until P Q xs := by
  constructor
  · rintro ⟨_ | ⟨c, front⟩, b, back, hEq, hBefore, hHere⟩
    · cases hEq
      exact .inl hHere
    · cases hEq
      obtain ⟨hFirst, hBefore⟩ := forall_mem_cons.mp hBefore
      exact .inr ⟨hFirst, front, b, back, rfl, hBefore, hHere⟩
  · rintro (hHere | ⟨hFirst, front, b, back, rfl, hBefore, hHere⟩)
    · exact ⟨[], a, xs, rfl, by simp, hHere⟩
    · exact ⟨a :: front, b, back, rfl, forall_mem_cons.mpr ⟨hFirst, hBefore⟩, hHere⟩

/- No coefficient is one or minus one. -/
def UnitFree (r : Row) : Prop := ∀ c ∈ r.coeffs, c.natAbs ≠ 1

/- The least word is a coefficient, and no unit comes before it. -/
def HidesUnits (r : Row) : Prop := Until (·.natAbs ≠ 1) (· = Word.least) r.coeffs

/-
  The search for a unit coefficient comes to the least word:
  no coefficient before it, in its row or in a row before, is
  one or minus one.
-/
def MeetsLeast (rows : List Row) : Prop := Until UnitFree HidesUnits rows

theorem magnitude_least : magnitude Word.least = .error .overflow := by
  decide

theorem magnitude_eq_ok (hWord : Word.IsWord c)
    (hNe : c ≠ Word.least) : magnitude c = .ok c.natAbs := by
  have hAbs : Word.IsWord c.natAbs := by
    unfold Word.IsWord Word.least Word.greatest at *
    omega
  unfold magnitude Word.word
  rw [if_pos hAbs]

/- The search through one row, coefficient by coefficient. -/
theorem unitVarFrom_cons (hWord : Word.IsWord c) (i : Nat) (cs : List Int) :
    unitVarFrom i (c :: cs) =
      if c = Word.least then .error .overflow
      else if c.natAbs = 1 then .ok (some i)
      else unitVarFrom (i + 1) cs := by
  rw [unitVarFrom]
  by_cases hLeast : c = Word.least
  · rw [hLeast, magnitude_least, if_pos rfl]
  · rw [magnitude_eq_ok hWord hLeast, if_neg hLeast]
    simp only [Nat.cast_eq_one]

theorem unitVarFrom_eq_error_iff (hWords : ∀ c ∈ cs, Word.IsWord c) :
    unitVarFrom i cs = .error e ↔ e = .overflow ∧ Until (·.natAbs ≠ 1) (· = Word.least) cs := by
  induction cs generalizing i with
  | nil => simp [unitVarFrom, not_until_nil]
  | cons c cs ih =>
    obtain ⟨hWord, hRest⟩ := forall_mem_cons.mp hWords
    rw [unitVarFrom_cons hWord, until_cons_iff]
    grind

/- A row without a unit coefficient. -/
theorem of_unitVarFrom_eq_none (hWords : ∀ c ∈ cs, Word.IsWord c)
    (hNone : unitVarFrom i cs = .ok none) : ∀ c ∈ cs, c.natAbs ≠ 1 := by
  induction cs generalizing i with
  | nil => simp
  | cons c cs ih =>
    obtain ⟨hWord, hRest⟩ := forall_mem_cons.mp hWords
    rw [unitVarFrom_cons hWord] at hNone
    grind

/- A row in which a unit coefficient is found. -/
theorem unit_of_unitVarFrom (hWords : ∀ c ∈ cs, Word.IsWord c)
    (hSome : unitVarFrom i cs = .ok (some v)) : ∃ j, v = i + j ∧ (cs.getD j 0).natAbs = 1 := by
  induction cs generalizing i with
  | nil => cases hSome
  | cons c cs ih =>
    obtain ⟨hWord, hRest⟩ := forall_mem_cons.mp hWords
    rw [unitVarFrom_cons hWord] at hSome
    split at hSome
    · cases hSome
    · split at hSome
      · rename_i hUnit
        cases hSome
        exact ⟨0, rfl, hUnit⟩
      · obtain ⟨j, rfl, hUnit⟩ := ih hRest hSome
        exact ⟨j + 1, by omega, hUnit⟩

/- The search faults where it comes to the least word. -/
theorem pivotFrom_eq_error_iff (hFits : ∀ r ∈ rows, r.Fits n) :
    pivotFrom i rows = .error e ↔ e = .overflow ∧ MeetsLeast rows := by
  unfold MeetsLeast
  induction rows generalizing i with
  | nil => simp [pivotFrom, not_until_nil]
  | cons r rows ih =>
    obtain ⟨hRow, hRest⟩ := forall_mem_cons.mp hFits
    have hWords := ((Row.inRange_iff r).mp hRow.2).1
    rw [pivotFrom, until_cons_iff]
    cases hUnit : unitVarFrom 0 r.coeffs with
    | error e' =>
      obtain ⟨rfl, hMeets⟩ := (unitVarFrom_eq_error_iff hWords).mp hUnit
      have hHides : HidesUnits r := hMeets
      simp [hHides, eq_comm]
    | ok found =>
      have hNot : ¬ HidesUnits r := by
        intro hMeets
        have hError := (unitVarFrom_eq_error_iff hWords (i := 0)).mpr ⟨rfl, hMeets⟩
        cases hUnit.symm.trans hError
      cases found with
      | none =>
        have hFree : UnitFree r := of_unitVarFrom_eq_none hWords hUnit
        simp only [ih hRest, hNot, hFree, false_or, true_and]
      | some v =>
        obtain ⟨j, _, hOne⟩ := unit_of_unitVarFrom hWords hUnit
        have hIn : r.coeff j ∈ r.coeffs := Row.coeff_mem (by grind [Row.coeff])
        simp only [reduceCtorEq, hNot, false_or, false_iff]
        rintro ⟨_, hFree, _⟩
        exact hFree _ hIn hOne

/- The pivot has a unit coefficient. -/
theorem unit_of_pivotFrom (hFits : ∀ r ∈ rows, r.Fits n)
    (hPivot : pivotFrom i rows = .ok (some (j, v))) :
    (rows.getD (j - i) default).coeff v * (rows.getD (j - i) default).coeff v = 1 := by
  induction rows generalizing i with
  | nil => cases hPivot
  | cons r rows ih =>
    obtain ⟨hRow, hRest⟩ := forall_mem_cons.mp hFits
    have hWords := ((Row.inRange_iff r).mp hRow.2).1
    have hLess := (pivotFrom_lt hPivot).1
    rw [pivotFrom] at hPivot
    split at hPivot
    · cases hPivot
    · rename_i hUnit
      cases hPivot
      obtain ⟨k, rfl, hOne⟩ := unit_of_unitVarFrom hWords hUnit
      simpa [Row.coeff] using Int.isUnit_mul_self (Int.isUnit_iff_natAbs_eq.mpr hOne)
    · have hLess' := (pivotFrom_lt hPivot).1
      have hAt : j - i = j - (i + 1) + 1 := by omega
      rw [hAt, getD_cons_succ]
      exact ih hRest hPivot

end Elimination

namespace ConstraintSystem

/-
  The test of a system of words faults exactly when a search
  for a unit coefficient comes to the least word.
-/
theorem isEmpty_eq_error_iff (hForm : s.WellFormed) :
    s.isEmpty = .error e ↔ e = .overflow ∧ ∃ t, Elimination.Reached s t ∧ t.phase = .substituting ∧
          Elimination.MeetsLeast t.equalities := by
  have hRun : s.isEmpty = .error e ↔ Elimination.run s = .error e := by
    unfold isEmpty
    cases Elimination.run s <;> simp [bind, Except.bind, pure, Except.pure]
  rw [hRun, Elimination.run_eq_iff hForm]
  constructor
  · rintro ⟨t, hReached, hEnds⟩
    cases hEnds with
    | fault hFault =>
      have hFits := Elimination.fits_of_reached hForm hReached
      rcases (Elimination.pivotFrom_eq_error_iff (forall_mem_append.mp hFits).1).mp hFault with
        ⟨rfl, hMeets⟩
      exact ⟨rfl, _, hReached, rfl, hMeets⟩
  · rintro ⟨rfl, ⟨phase, eqs, ges⟩, hReached, rfl, hMeets⟩
    have hFits := Elimination.fits_of_reached hForm hReached
    exact ⟨_, hReached, .fault ((Elimination.pivotFrom_eq_error_iff
      (forall_mem_append.mp hFits).1).mpr ⟨rfl, hMeets⟩)⟩

/- An equality with solutions whose test faults. -/
theorem isEmpty_least_eq_error :
    isEmpty ⟨2, [⟨[Word.least, 3], 0⟩], []⟩ = .error .overflow ∧
      Holds ⟨2, [⟨[Word.least, 3], 0⟩], []⟩ fun _ => 0 := by
  constructor
  · rfl
  · simp [Holds, Row.eval, Row.sumFrom]

/- A test that gives up answers that there may be solutions. -/
theorem isEmpty_of_givesUp (hForm : s.WellFormed) {t : Elimination.Stage}
    (hReached : Elimination.Reached s t)
    (hGivesUp : Elimination.GivesUp s.numVars t) : s.isEmpty = .ok false := by
  have hRun : Elimination.run s = .ok none := (Elimination.run_eq_iff hForm).mpr
      ⟨t, hReached, .gaveUp hGivesUp⟩
  unfold isEmpty
  rw [hRun]
  rfl

end ConstraintSystem

end AffineIR
