import AffineIR.Constraint.Elimination
import AffineIR.Proofs.Constraint.Rows

/-
  What single steps of elimination make of rows.

  Every row that a step leaves is made from rows that were
  there before: it is one of them, the quotient of one by its
  content, one less a multiple of a pivot, or the sum of two
  bounds.  Rows whose entries are words stay such rows.

  Main result: `Elimination.occurs_of_pickVar`
-/

namespace AffineIR

open List

variable {eqs kept out rows : List Row} {i j n v w : Nat} {lower pivot r s upper : Row}
  {vars : List Nat} {best : Option Nat}

/- Every row has a coefficient for each variable; entries are words. -/
def ConstraintSystem.WellFormed (s : ConstraintSystem) : Prop :=
  ∀ r ∈ s.equalities ++ s.inequalities, r.Fits s.numVars

instance (s : ConstraintSystem) : Decidable s.WellFormed := by
  unfold ConstraintSystem.WellFormed
  infer_instance

namespace Elimination

------
-- Division of single rows
------

theorem gcdWord_nonneg (a b : Int) : 0 ≤ gcdWord a b :=
  le_min (Int.natCast_nonneg _) (by decide)

theorem content_nonneg (r : Row) : 0 ≤ content r := by
  have hFold (cs : List Int) (a : Int) (hNonneg : 0 ≤ a) : 0 ≤ cs.foldl gcdWord a := by
    induction cs generalizing a with
    | nil => exact hNonneg
    | cons c cs ih => exact ih _ (gcdWord_nonneg a c)
  exact hFold r.coeffs 0 le_rfl

/- The quotient of a row by its content, with some constant. -/
def quotient (r : Row) (constant : Int) : Row := ⟨r.coeffs.map (·.tdiv (content r)), constant⟩

theorem coeff_quotient (r : Row) (constant : Int) (v : Nat) :
    (quotient r constant).coeff v = (r.coeff v).tdiv (content r) := by
  simp only [quotient, Row.coeff, getD_eq_getElem?_getD, List.getElem?_map]
  cases r.coeffs[v]? <;> simp

/- What is found of an equality. -/
theorem normalizeRow_cases (r : Row) :
    (normalizeRow r = .contradiction ∧ ¬ content r ∣ r.constant) ∨
    (normalizeRow r = .trivial ∧ content r = 0 ∧ r.constant = 0) ∨
    (normalizeRow r = .keep (quotient r (r.constant.tdiv (content r))) ∧
      0 < content r ∧ content r ∣ r.constant) := by
  have hNonneg := content_nonneg r
  rw [Int.dvd_iff_tmod_eq_zero]
  unfold normalizeRow quotient
  grind [Int.tmod_zero]

theorem of_normalizeRow_eq_contradiction
    (hVerdict : normalizeRow r = .contradiction) : ¬ content r ∣ r.constant := by
  simpa [hVerdict] using normalizeRow_cases r

theorem of_normalizeRow_eq_trivial
    (hVerdict : normalizeRow r = .trivial) : content r = 0 ∧ r.constant = 0 := by
  simpa [hVerdict] using normalizeRow_cases r

theorem of_normalizeRow_eq_keep (hVerdict : normalizeRow r = .keep s) :
    0 < content r ∧ content r ∣ r.constant ∧ s = quotient r (r.constant.tdiv (content r)) := by
  have hCases := normalizeRow_cases r
  grind

/- What is found of an inequality; a content of one divides nothing. -/
theorem tightenRow_cases (r : Row) :
    (tightenRow r = .contradiction ∧ content r = 0 ∧ r.constant < 0) ∨
    (tightenRow r = .trivial ∧ content r = 0 ∧ 0 ≤ r.constant) ∨
    (tightenRow r = .keep (quotient r (r.constant.fdiv (content r))) ∧ 0 < content r) := by
  have hNonneg := content_nonneg r
  have hOne (hContent : content r = 1) : quotient r (r.constant.fdiv (content r)) = r := by
    simp [quotient, hContent]
  unfold tightenRow
  grind [quotient]

theorem of_tightenRow_eq_contradiction
    (hVerdict : tightenRow r = .contradiction) : content r = 0 ∧ r.constant < 0 := by
  simpa [hVerdict] using tightenRow_cases r

theorem of_tightenRow_eq_trivial
    (hVerdict : tightenRow r = .trivial) : content r = 0 ∧ 0 ≤ r.constant := by
  simpa [hVerdict] using tightenRow_cases r

theorem of_tightenRow_eq_keep (hVerdict : tightenRow r = .keep s) :
    0 < content r ∧ s = quotient r (r.constant.fdiv (content r)) := by
  have hCases := tightenRow_cases r
  grind

theorem fits_quotient (hFits : r.Fits n) (hPos : 0 < content r) {d : Int}
    (hConstant : Word.IsWord d) : (quotient r d).Fits n := by
  refine ⟨?_, (Row.inRange_iff _).mpr ⟨?_, hConstant⟩⟩
  · have hWidth := hFits.1
    simpa [quotient, Row.width] using hWidth
  · intro c hMember
    obtain ⟨c', hIn, rfl⟩ := mem_map.mp hMember
    exact (((Row.inRange_iff r).mp hFits.2).1 c' hIn).tdiv hPos

theorem fits_of_normalizeRow (hFits : r.Fits n)
    (hVerdict : normalizeRow r = .keep s) : s.Fits n := by
  obtain ⟨hPos, _, rfl⟩ := of_normalizeRow_eq_keep hVerdict
  exact fits_quotient hFits hPos (((Row.inRange_iff r).mp hFits.2).2.tdiv hPos)

theorem fits_of_tightenRow (hFits : r.Fits n) (hVerdict : tightenRow r = .keep s) : s.Fits n := by
  obtain ⟨hPos, rfl⟩ := of_tightenRow_eq_keep hVerdict
  refine fits_quotient hFits hPos ?_
  have hWord := ((Row.inRange_iff r).mp hFits.2).2
  rw [Int.fdiv_eq_ediv_of_nonneg _ hPos.le]
  have hLower : Word.least ≤ r.constant / content r := by
    rw [Int.le_ediv_iff_mul_le hPos]
    have hLeastNeg : Word.least ≤ 0 := by decide
    nlinarith [hWord.1]
  have hUpper : r.constant / content r ≤ Word.greatest := by
    apply Int.ediv_le_of_le_mul hPos
    have hGreatestPos : 0 ≤ Word.greatest := by decide
    nlinarith [hWord.2]
  exact ⟨hLower, hUpper⟩

------
-- Lists of rows
------

/-
  What a pass over rows gives that asks for a verdict on each
  of them: nothing if there is a contradiction, and otherwise
  the rows to keep beside those that were kept before.
-/
def Sorts (verdict : Row → Verdict) (kept rows : List Row) : Option (List Row) → Prop
  | none => ∃ r ∈ rows, verdict r = .contradiction
  | some out => (∀ r ∈ rows, verdict r ≠ .contradiction) ∧
      ∀ s, s ∈ out ↔ s ∈ kept ∨ ∃ r ∈ rows, verdict r = .keep s

section Sorting

variable {verdict : Row → Verdict} {answer : Option (List Row)} {kept' : List Row}

theorem Sorts.trivial (hSorts : Sorts verdict kept rows answer)
    (hVerdict : verdict r = .trivial) : Sorts verdict kept (r :: rows) answer := by
  cases answer <;> simpa [Sorts, hVerdict] using hSorts

theorem Sorts.keep (hSorts : Sorts verdict kept rows answer) (hVerdict : verdict r = .keep s)
    (hKept : ∀ t, t ∈ kept ↔ t = s ∨ t ∈ kept') : Sorts verdict kept' (r :: rows) answer := by
  cases answer with
  | none => simpa [Sorts, hVerdict] using hSorts
  | some out =>
    refine ⟨by simpa [hVerdict] using hSorts.1, fun t => ?_⟩
    rw [hSorts.2, hKept]
    simp [hVerdict, eq_comm (a := s), or_left_comm, or_assoc]

theorem Sorts.of_none (hSorts : Sorts verdict kept rows answer)
    (hNone : answer = none) : ∃ r ∈ rows, verdict r = .contradiction := by
  rwa [hNone] at hSorts

/- Every row that is kept comes from a given one. -/
theorem Sorts.of_kept (hSorts : Sorts verdict [] rows answer) (hSome : answer = some out)
    (hMember : s ∈ out) : ∃ r ∈ rows, verdict r = .keep s := by
  rw [hSome] at hSorts
  simpa using (hSorts.2 s).mp hMember

/- What becomes of each given row. -/
theorem Sorts.of_mem (hSorts : Sorts verdict kept rows answer) (hSome : answer = some out)
    (hMember : r ∈ rows) : verdict r = .trivial ∨ ∃ s ∈ out, verdict r = .keep s := by
  rw [hSome] at hSorts
  cases hVerdict : verdict r with
  | contradiction => exact absurd hVerdict (hSorts.1 r hMember)
  | trivial => exact .inl rfl
  | keep s => exact .inr ⟨s, (hSorts.2 s).mpr (.inr ⟨r, hMember, hVerdict⟩), rfl⟩

end Sorting

theorem sorts_normalize (rows : List Row) : Sorts normalizeRow [] rows (normalize rows) := by
  induction rows with
  | nil => simp [normalize, Sorts]
  | cons r rest ih =>
    rw [normalize]
    cases hVerdict : normalizeRow r with
    | contradiction => exact ⟨r, mem_cons_self, hVerdict⟩
    | trivial => exact ih.trivial hVerdict
    | keep s =>
      have hRest : Sorts normalizeRow [s] rest ((normalize rest).map (s :: ·)) := by
        cases hRest : normalize rest with
        | none => rwa [hRest] at ih
        | some out =>
          rw [hRest] at ih
          exact ⟨ih.1, fun t => by simpa using or_congr_right (ih.2 t)⟩
      exact hRest.keep hVerdict (by simp)

/- Repeats are kept once. -/
theorem sorts_tightenInto
    (kept rows : List Row) : Sorts tightenRow kept rows (tightenInto kept rows) := by
  induction rows generalizing kept with
  | nil => simp [tightenInto, Sorts]
  | cons r rest ih =>
    rw [tightenInto]
    cases hVerdict : tightenRow r with
    | contradiction => exact ⟨r, mem_cons_self, hVerdict⟩
    | trivial => exact (ih kept).trivial hVerdict
    | keep s =>
      dsimp only
      split
      next hRepeat =>
        have hOld : s ∈ kept := contains_iff_mem.mp hRepeat
        refine (ih kept).keep hVerdict fun t => (or_iff_right_of_imp ?_).symm
        rintro rfl
        exact hOld
      next => exact (ih (s :: kept)).keep hVerdict fun t => mem_cons

theorem sorts_tighten (rows : List Row) : Sorts tightenRow [] rows (tighten rows) :=
  sorts_tightenInto [] rows

/- Every row is split into itself and its negation. -/
theorem mem_split?_iff (hSome : split? rows = some out) :
    (∀ r ∈ rows, ∃ m, r.neg? = some m) ∧
      ∀ s, s ∈ out ↔ ∃ r ∈ rows, s = r ∨ r.neg? = some s := by
  induction rows generalizing out with
  | nil =>
    cases hSome
    simp
  | cons r rest ih =>
    simp only [split?, Option.bind_eq_bind, Option.pure_def,
      Option.bind_eq_some_iff, Option.some.injEq] at hSome
    obtain ⟨n, hNeg, others, hOthers, rfl⟩ := hSome
    obtain ⟨hAll, hMem⟩ := ih hOthers
    refine ⟨forall_mem_cons.mpr ⟨⟨n, hNeg⟩, hAll⟩, fun s => ?_⟩
    simp [hMem, hNeg, or_assoc, eq_comm (a := n)]

theorem mem_of_mem_swapRemove {α : Type} {xs : List α} {a : α}
    (hMember : a ∈ swapRemove xs i) : a ∈ xs := by
  unfold swapRemove at hMember
  cases hLast : xs.getLast? with
  | none => simp [hLast] at hMember
  | some last =>
    simp only [hLast] at hMember
    have hSet := (dropLast_sublist _).subset hMember
    rcases mem_or_eq_of_mem_set hSet with hOld | rfl
    · exact hOld
    · exact mem_of_getLast? hLast

/- Only the entry at the position is removed. -/
theorem mem_swapRemove_or_eq {α : Type} [Inhabited α] {xs : List α} (hLess : i < xs.length) {a : α}
    (hMember : a ∈ xs) : a = xs.getD i default ∨ a ∈ swapRemove xs i := by
  obtain ⟨j, hAt⟩ := List.getElem?_of_mem hMember
  obtain ⟨hBound, _⟩ := List.getElem?_eq_some_iff.mp hAt
  by_cases hHere : j = i
  · left
    subst hHere
    rw [getD_eq_getElem?_getD, hAt]
    rfl
  · right
    have hNe : xs ≠ [] := ne_nil_of_mem hMember
    unfold swapRemove
    rw [List.getLast?_eq_some_getLast hNe]
    simp only [dropLast_eq_take, length_set]
    apply mem_of_getElem? (i := if j = xs.length - 1 then i else j)
    split
    · -- the last entry now stands where one was removed
      rename_i hLast
      subst hLast
      rw [List.getElem?_take_of_lt (by omega),
        List.getElem?_set_self hLess, ← hAt, getLast_eq_getElem, List.getElem?_eq_getElem]
    · rename_i hLast
      rw [List.getElem?_take_of_lt (by omega), List.getElem?_set_ne (Ne.symm hHere), hAt]

theorem pivotFrom_lt
    (hPivot : pivotFrom i rows = .ok (some (j, v))) : i ≤ j ∧ j < i + rows.length := by
  induction rows generalizing i with
  | nil => cases hPivot
  | cons r rest ih =>
    rw [pivotFrom] at hPivot
    grind

/- The pivot is one of the equalities. -/
theorem pivot_mem (hPivot : pivotFrom 0 eqs = .ok (some (i, v))) : eqs.getD i default ∈ eqs := by
  have hLt : i < eqs.length := by simpa using (pivotFrom_lt hPivot).2
  rw [getD_eq_getElem?_getD, List.getElem?_eq_getElem hLt]
  exact getElem_mem hLt

/- Clearing a variable subtracts a multiple of the pivot. -/
theorem exists_of_clearVar? (hPivot : pivot.Fits n) (hFits : r.Fits n)
    (hClear : clearVar? pivot v r = some s) :
    s.Fits n ∧ ∀ x, s.eval x = r.eval x - r.coeff v * pivot.coeff v * pivot.eval x := by
  simp only [clearVar?] at hClear
  split at hClear
  · rename_i hZero
    cases hClear
    exact ⟨hFits, by simp [hZero]⟩
  · simp only [Option.bind_eq_bind, Option.bind_eq_some_iff] at hClear
    obtain ⟨scale, hScale, hCombine⟩ := hClear
    obtain ⟨rfl, _⟩ := Word.fit?_eq_some_iff.mp hScale
    have hEntry : ∀ c d e, (do Word.sub? c (← Word.mul? (r.coeff v * pivot.coeff v) d)) = some e →
          e = 1 * c + -(r.coeff v * pivot.coeff v) * d ∧ Word.IsWord e := by
      intro c d e hSome
      simp only [Word.sub?, Word.mul?, Option.bind_eq_bind, Option.bind_eq_some_iff,
        Word.fit?_eq_some_iff] at hSome
      obtain ⟨_, ⟨rfl, _⟩, rfl, hWord⟩ := hSome
      exact ⟨by ring, hWord⟩
    rcases Row.fits_of_combine? hEntry (hFits.1.trans hPivot.1.symm) hCombine with ⟨hNew, hEval⟩
    refine ⟨hFits.1 ▸ hNew, fun x => ?_⟩
    rw [hEval]
    ring

/-
  The sum of a lower and an upper bound is their combination
  with the positive factors that make the variable cancel.
-/
theorem exists_of_addBounds? (hLower : lower.Fits n) (hUpper : upper.Fits n)
    (hAdd : addBounds? v lower upper = some s) :
    s.Fits n ∧ ∀ x, s.eval x = -upper.coeff v * lower.eval x + lower.coeff v * upper.eval x := by
  simp only [addBounds?, Option.bind_eq_bind, Option.bind_eq_some_iff] at hAdd
  obtain ⟨b, hNeg, hCombine⟩ := hAdd
  obtain ⟨rfl, _⟩ := Word.fit?_eq_some_iff.mp hNeg
  have hEntry : ∀ l u e,
      (do Word.add? (← Word.mul? (-upper.coeff v) l) (← Word.mul? (lower.coeff v) u)) = some e →
      e = -upper.coeff v * l + lower.coeff v * u ∧ Word.IsWord e := by
    intro l u e hSome
    simp only [Word.add?, Word.mul?, Option.bind_eq_bind, Option.bind_eq_some_iff,
      Word.fit?_eq_some_iff] at hSome
    obtain ⟨_, ⟨rfl, _⟩, _, ⟨rfl, _⟩, rfl, hWord⟩ := hSome
    exact ⟨rfl, hWord⟩
  rcases Row.fits_of_combine? hEntry (hLower.1.trans hUpper.1.symm) hCombine with ⟨hNew, hEval⟩
  exact ⟨hLower.1 ▸ hNew, hEval⟩

/-
  What is left are the old rows without the variable and the
  sums of two bounds.
-/
theorem exists_of_eliminateVar? (hSome : eliminateVar? v rows = some out) :
    ∃ sums, out = rows.filter (·.coeff v = 0) ++ sums ∧
      ((lowerBounds v rows).flatMap fun l => (upperBounds v rows).map fun u => (l, u)).mapM
        (fun p => addBounds? v p.1 p.2) = some sums := by
  simp only [eliminateVar?] at hSome
  split at hSome
  · cases hSome
  · obtain ⟨sums, hSums, hSome⟩ := Option.bind_eq_some_iff.mp hSome
    exact ⟨sums, (Option.some.inj hSome).symm, hSums⟩

theorem exists_of_mem_eliminateVar? (hSome : eliminateVar? v rows = some out) (hMember : s ∈ out) :
    (s ∈ rows ∧ s.coeff v = 0) ∨ ∃ lower ∈ rows, ∃ upper ∈ rows,
        0 < lower.coeff v ∧ upper.coeff v < 0 ∧ addBounds? v lower upper = some s := by
  obtain ⟨sums, rfl, hSums⟩ := exists_of_eliminateVar? hSome
  rcases mem_append.mp hMember with hRest | hSum
  · left
    simpa using mem_filter.mp hRest
  · obtain ⟨⟨lower, upper⟩, hPair, hAdd⟩ := Row.exists_of_mem_mapM hSums hSum
    simp only [mem_flatMap, mem_map, lowerBounds, upperBounds, mem_filter, decide_eq_true_eq,
      Prod.mk.injEq] at hPair
    obtain ⟨_, ⟨hLower, hPos⟩, _, ⟨hUpper, hNeg⟩, rfl, rfl⟩ := hPair
    exact .inr ⟨_, hLower, _, hUpper, hPos, hNeg, hAdd⟩

/- What becomes of each row and each pair of bounds. -/
theorem mem_of_eliminateVar? (hSome : eliminateVar? v rows = some out) :
    (∀ r ∈ rows, r.coeff v = 0 → r ∈ out) ∧ ∀ lower ∈ rows, ∀ upper ∈ rows,
        0 < lower.coeff v → upper.coeff v < 0 → ∃ s ∈ out, addBounds? v lower upper = some s := by
  obtain ⟨sums, rfl, hSums⟩ := exists_of_eliminateVar? hSome
  constructor
  · intro r hIn hZero
    exact mem_append_left _ (by simp [hIn, hZero])
  · intro lower hLower upper hUpper hPos hNeg
    have hPair : (lower, upper) ∈ (lowerBounds v rows).flatMap fun l =>
          (upperBounds v rows).map fun u => (l, u) := by
      simp [lowerBounds, upperBounds, hLower, hUpper, hPos, hNeg]
    obtain ⟨s, hIn, hAdd⟩ := Row.exists_mem_of_mapM hSums hPair
    exact ⟨s, mem_append_right _ hIn, hAdd⟩

------
-- Variables that occur
------

/- A row with content has a coefficient other than zero. -/
theorem exists_of_content_ne_zero (hContent : content r ≠ 0) : ∃ v, r.coeff v ≠ 0 := by
  have hFold (cs : List Int) (hZero : ∀ c ∈ cs, c = 0) : cs.foldl gcdWord 0 = 0 := by
    induction cs with
    | nil => rfl
    | cons c cs ih =>
      obtain ⟨rfl, hRest⟩ := forall_mem_cons.mp hZero
      exact ih hRest
  by_contra hNone
  push Not at hNone
  apply hContent
  apply hFold
  intro c hMember
  obtain ⟨v, hAt⟩ := List.getElem?_of_mem hMember
  have hCoeff := hNone v
  unfold Row.coeff at hCoeff
  rwa [getD_eq_getElem?_getD, hAt] at hCoeff

theorem mem_of_foldl_cheaper
    (hFold : vars.foldl (cheaper rows) best = some v) : best = some v ∨ v ∈ vars := by
  induction vars generalizing best with
  | nil => exact .inl hFold
  | cons w vars ih =>
    rcases ih hFold with hHead | hTail
    · unfold cheaper at hHead
      grind
    · exact .inr (mem_cons_of_mem _ hTail)

theorem foldl_cheaper_ne_none
    (hSome : best ≠ none ∨ vars ≠ []) : vars.foldl (cheaper rows) best ≠ none := by
  induction vars generalizing best with
  | nil => exact hSome.resolve_right (fun hNe => hNe rfl)
  | cons w vars ih =>
    apply ih
    left
    unfold cheaper
    grind

/- The variable that is picked occurs. -/
theorem occurs_of_pickVar (hPick : pickVar n rows = some v) : v < n ∧ Occurs v rows := by
  rcases mem_of_foldl_cheaper hPick with hNone | hMember
  · cases hNone
  · simpa using hMember

/- Some variable is picked as long as one occurs. -/
theorem not_occurs_of_pickVar (hPick : pickVar n rows = none)
    (hLess : v < n) : ¬ Occurs v rows := by
  intro hOccurs
  refine foldl_cheaper_ne_none (.inr ?_) hPick
  apply ne_nil_of_mem (a := v)
  simpa using ⟨hLess, hOccurs⟩

/- Quotients of rows bring no variable in. -/
theorem Sorts.occurs (hSorts : Sorts verdict [] rows answer) (hSome : answer = some out)
    (hKeep : ∀ r s, verdict r = .keep s → ∃ d, s = quotient r d) (hOccurs : Occurs v out) :
    Occurs v rows := by
  obtain ⟨s, hMember, hCoeff⟩ := hOccurs
  obtain ⟨r, hIn, hVerdict⟩ := hSorts.of_kept hSome hMember
  obtain ⟨d, rfl⟩ := hKeep r s hVerdict
  refine ⟨r, hIn, ?_⟩
  intro hZero
  rw [coeff_quotient, hZero, Int.zero_tdiv] at hCoeff
  exact hCoeff rfl

theorem occurs_of_tighten (hSome : tighten rows = some out) (hOccurs : Occurs v out) :
    Occurs v rows :=
  (sorts_tighten rows).occurs hSome (fun _ _ hVerdict => ⟨_, (of_tightenRow_eq_keep hVerdict).2⟩)
    hOccurs

/- Elimination removes its variable and brings no other in. -/
theorem occurs_of_eliminateVar? (hFits : ∀ r ∈ rows, r.Fits n)
    (hSome : eliminateVar? v rows = some out) (hOccurs : Occurs w out) : w ≠ v ∧ Occurs w rows := by
  obtain ⟨s, hMember, hCoeff⟩ := hOccurs
  rcases exists_of_mem_eliminateVar? hSome hMember with
    ⟨hOld, hZero⟩ | ⟨lower, hLower, upper, hUpper, _, _, hAdd⟩
  · refine ⟨?_, s, hOld, hCoeff⟩
    rintro rfl
    exact hCoeff hZero
  · have hSum : s.coeff w = -upper.coeff v * lower.coeff w + lower.coeff v * upper.coeff w := by
      apply Row.coeff_of_eval (d := 0)
      intro x
      rw [(exists_of_addBounds? (hFits _ hLower) (hFits _ hUpper) hAdd).2 x, add_zero]
    constructor
    · rintro rfl
      exact hCoeff (by rw [hSum]; ring)
    · by_cases hFirst : lower.coeff w = 0
      · refine ⟨upper, hUpper, ?_⟩
        intro hSecond
        exact hCoeff (by rw [hSum, hFirst, hSecond]; ring)
      · exact ⟨lower, hLower, hFirst⟩

end Elimination

end AffineIR
