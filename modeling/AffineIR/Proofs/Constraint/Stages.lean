import AffineIR.Constraint.Elimination
import Mathlib.Logic.Relation

/-
  The stages that elimination takes a system through.

  A stage holds the rows that are left and says which step
  comes next.  Every stage but the first comes from the one
  before by one step of the test.  A stage that no other
  follows is where the test ends: with an answer, with a
  fault, or because it gives up.  There is only one such
  stage for each system.

  Main result: `Elimination.Reached.eq_of_last`
-/

namespace AffineIR

open Option

variable {n : Nat} {s : ConstraintSystem} {answer answer' : Except Fault (Option Bool)}

namespace Elimination

------
-- Stages
------

/- What is done next to the rows of a stage. -/
inductive Phase where
  /- The equalities as they were given are divided. -/
  | given
  /- Unit equalities are used up one by one. -/
  | substituting
  /- Equalities are turned into inequalities. -/
  | splitting
  /- The inequalities are tightened. -/
  | tightening
  /- A variable is eliminated. -/
  | eliminating
deriving DecidableEq

structure Stage where
  phase : Phase
  equalities : List Row
  inequalities : List Row
deriving DecidableEq

/- Use the equality at `i` to clear `v` from all other rows. -/
def pivotAt? (i v : Nat) (eqs ges : List Row) : Option Stage := do
  let pivot := eqs.getD i default
  let eqs' ← (swapRemove eqs i).mapM (clearVar? pivot v)
  let ges' ← ges.mapM (clearVar? pivot v)
  return ⟨.substituting, eqs', ges'⟩

theorem exists_of_pivotAt? {i v : Nat} {eqs ges : List Row} {u : Stage}
    (hNext : pivotAt? i v eqs ges = some u) :
    ∃ eqs' ges', u = ⟨.substituting, eqs', ges'⟩ ∧
      (swapRemove eqs i).mapM (clearVar? (eqs.getD i default) v) = some eqs' ∧
      ges.mapM (clearVar? (eqs.getD i default) v) = some ges' := by
  obtain ⟨eqs', hEqs, hNext⟩ := bind_eq_some_iff.mp hNext
  obtain ⟨ges', hGes, hNext⟩ := bind_eq_some_iff.mp hNext
  exact ⟨eqs', ges', (Option.some.inj hNext).symm, hEqs, hGes⟩

/-
  The stage after a given one; none if the test ends there or
  gives up.
-/
def next? (numVars : Nat) : Stage → Option Stage
  | ⟨.given, eqs, ges⟩ => (normalize eqs).map (⟨.substituting, ·, ges⟩)
  | ⟨.substituting, eqs, ges⟩ =>
    match pivotFrom 0 eqs with
    | .error _ => none
    | .ok none => (normalize eqs).map (⟨.splitting, ·, ges⟩)
    | .ok (some (i, v)) => pivotAt? i v eqs ges
  | ⟨.splitting, eqs, ges⟩ => (split? eqs).map fun pairs => ⟨.tightening, [], ges ++ pairs⟩
  | ⟨.tightening, eqs, ges⟩ => (tighten ges).map (⟨.eliminating, eqs, ·⟩)
  | ⟨.eliminating, eqs, ges⟩ => do
      let v ← pickVar numVars ges
      let ges' ← eliminateVar? v ges
      return ⟨.tightening, eqs, ges'⟩

/- What one step does to the rows of a stage. -/
inductive Step : Stage → Stage → Prop where
  | divide {eqs eqs' ges : List Row} (hSome : normalize eqs = some eqs') :
      Step ⟨.given, eqs, ges⟩ ⟨.substituting, eqs', ges⟩
  | pivot {eqs ges : List Row} {i v : Nat} {u : Stage}
      (hPivot : pivotFrom 0 eqs = .ok (some (i, v))) (hSome : pivotAt? i v eqs ges = some u) :
      Step ⟨.substituting, eqs, ges⟩ u
  | divideAgain {eqs eqs' ges : List Row} (hSome : normalize eqs = some eqs') :
      Step ⟨.substituting, eqs, ges⟩ ⟨.splitting, eqs', ges⟩
  | split {eqs ges pairs : List Row} (hSome : split? eqs = some pairs) :
      Step ⟨.splitting, eqs, ges⟩ ⟨.tightening, [], ges ++ pairs⟩
  | tighten {eqs ges ges' : List Row} (hSome : tighten ges = some ges') :
      Step ⟨.tightening, eqs, ges⟩ ⟨.eliminating, eqs, ges'⟩
  | eliminate {eqs ges ges' : List Row} {v : Nat} (hSome : eliminateVar? v ges = some ges') :
      Step ⟨.eliminating, eqs, ges⟩ ⟨.tightening, eqs, ges'⟩

theorem step_of_next? {t u : Stage} (hNext : next? n t = some u) : Step t u := by
  obtain ⟨phase, eqs, ges⟩ := t
  cases phase with
  | given =>
    obtain ⟨eqs', hSome, rfl⟩ := map_eq_some_iff.mp hNext
    exact .divide hSome
  | substituting =>
    simp only [next?] at hNext
    split at hNext
    · cases hNext
    · obtain ⟨eqs', hSome, rfl⟩ := map_eq_some_iff.mp hNext
      exact .divideAgain hSome
    · rename_i hPivot
      exact .pivot hPivot hNext
  | splitting =>
    obtain ⟨pairs, hSome, rfl⟩ := map_eq_some_iff.mp hNext
    exact .split hSome
  | tightening =>
    obtain ⟨ges', hSome, rfl⟩ := map_eq_some_iff.mp hNext
    exact .tighten hSome
  | eliminating =>
    obtain ⟨v, _, hRest⟩ := bind_eq_some_iff.mp hNext
    obtain ⟨ges', hSome, hSame⟩ := bind_eq_some_iff.mp hRest
    cases hSame
    exact .eliminate hSome

/- The system as it is given. -/
def Stage.ofSystem (s : ConstraintSystem) : Stage := ⟨.given, s.equalities, s.inequalities⟩

/- The stages that the test comes to. -/
inductive Reached (s : ConstraintSystem) : Stage → Prop where
  | start : Reached s (.ofSystem s)
  | next {t u : Stage} (hReached : Reached s t) (hNext : next? s.numVars t = some u) : Reached s u

/- Stages that no step leads out of hold all that are reached. -/
theorem Reached.mem_of_closed {stages : List Stage} (hStart : Stage.ofSystem s ∈ stages)
    (hClosed :
      ∀ t ∈ stages, ∀ u ∈ next? s.numVars t, u ∈ stages)
    {t : Stage}
    (hReached : Reached s t) : t ∈ stages := by
  induction hReached with
  | start => exact hStart
  | next _ hNext ih => exact hClosed _ ih _ hNext

------
-- Last stages
------

/- Some entry does not fit a word, or the rows are too many. -/
inductive GivesUp (numVars : Nat) : Stage → Prop where
  | substituting {eqs ges : List Row} {i v : Nat} (hPivot : pivotFrom 0 eqs = .ok (some (i, v)))
      (hNone : pivotAt? i v eqs ges = none) : GivesUp numVars ⟨.substituting, eqs, ges⟩
  | splitting {eqs ges : List Row} (hNone : split? eqs = none) :
      GivesUp numVars ⟨.splitting, eqs, ges⟩
  | eliminating {eqs ges : List Row} {v : Nat} (hPick : pickVar numVars ges = some v)
      (hNone : eliminateVar? v ges = none) : GivesUp numVars ⟨.eliminating, eqs, ges⟩

/- The stages at which the test ends, with what it ends. -/
inductive Ends (numVars : Nat) :
    Stage → Except Fault (Option Bool) → Prop where
  /- An equality has no integer solution. -/
  | given {eqs ges : List Row} (hNone : normalize eqs = none) :
      Ends numVars ⟨.given, eqs, ges⟩ (.ok (some true))
  | substituting {eqs ges : List Row} (hPivot : pivotFrom 0 eqs = .ok none)
      (hNone : normalize eqs = none) : Ends numVars ⟨.substituting, eqs, ges⟩ (.ok (some true))
  /- An inequality has no integer solution. -/
  | tightening {eqs ges : List Row} (hNone : tighten ges = none) :
      Ends numVars ⟨.tightening, eqs, ges⟩ (.ok (some true))
  /- No variable is left. -/
  | eliminating {eqs ges : List Row} (hPick : pickVar numVars ges = none) :
      Ends numVars ⟨.eliminating, eqs, ges⟩ (.ok (some false))
  | fault {eqs ges : List Row} {e : Fault} (hFault : pivotFrom 0 eqs = .error e) :
      Ends numVars ⟨.substituting, eqs, ges⟩ (.error e)
  | gaveUp {t : Stage} (hGivesUp : GivesUp numVars t) : Ends numVars t (.ok none)

theorem GivesUp.next?_eq_none {t : Stage} (hGivesUp : GivesUp n t) : next? n t = none := by
  cases hGivesUp with
  | substituting hPivot hNone => simp [next?, hPivot, hNone]
  | splitting hNone => simp [next?, hNone]
  | eliminating hPick hNone => simp [next?, hPick, hNone]

/- No stage follows one at which the test ends. -/
theorem Ends.next?_eq_none {t : Stage} (hEnds : Ends n t answer) : next? n t = none := by
  cases hEnds with
  | given hNone => simp [next?, hNone]
  | substituting hPivot hNone => simp [next?, hPivot, hNone]
  | tightening hNone => simp [next?, hNone]
  | eliminating hPick => simp [next?, hPick]
  | fault hFault => simp [next?, hFault]
  | gaveUp hGivesUp => exact hGivesUp.next?_eq_none

/- A stage ends the test in one way only. -/
theorem Ends.unique {t : Stage} (hEnds : Ends n t answer)
    (hEnds' : Ends n t answer') : answer = answer' := by
  cases hEnds <;> cases hEnds' <;> grind [cases GivesUp]

theorem reached_iff {t : Stage} :
    Reached s t ↔ Relation.ReflTransGen
        (fun t u => next? s.numVars t = some u) (.ofSystem s) t := by
  constructor
  · intro hReached
    induction hReached with
    | start => exact .refl
    | next _ hNext ih => exact ih.tail hNext
  · intro hSteps
    induction hSteps with
    | refl => exact .start
    | tail _ hNext ih => exact ih.next hNext

/- Only one of the stages that are reached is the last. -/
theorem Reached.eq_of_last {t u : Stage} (hReached : Reached s t) (hReached' : Reached s u)
    (hLast : next? s.numVars t = none) (hLast' : next? s.numVars u = none) : t = u := by
  have hUnique : Relator.RightUnique (fun t u => next? s.numVars t = some u) := by
    intro t u u' hNext hNext'
    exact Option.some.inj (hNext.symm.trans hNext')
  have hStuck {t u : Stage} (hLast : next? s.numVars t = none) (hSteps : Relation.ReflTransGen
        (fun t u => next? s.numVars t = some u) t u) : t = u := by
    rcases hSteps.cases_head with hSame | ⟨w, hNext, _⟩
    · exact hSame
    · cases hLast.symm.trans hNext
  rcases Relation.ReflTransGen.total_of_right_unique hUnique
      (reached_iff.mp hReached) (reached_iff.mp hReached') with hSteps | hSteps
  · exact hStuck hLast hSteps
  · exact (hStuck hLast' hSteps).symm

end Elimination

end AffineIR
