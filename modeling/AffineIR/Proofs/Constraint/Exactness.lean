import AffineIR.Proofs.Constraint.Emptiness

/-
  Where division by the content of rows is exact.

  The content of a row is a common divisor of its coefficients
  unless the first of them that is not zero is the least word:
  its absolute value is cut off at the greatest word, which
  has no divisor but one in common with it.  Otherwise, and if
  the content is one, division of equalities and tightening of
  inequalities find a contradiction only where there is one
  and keep the integer solutions as they are.

  Main result: `Elimination.tighten_exact`
-/

namespace AffineIR

open List

namespace Elimination

------
-- Leading coefficients
------

/- The first coefficient that is not zero. -/
def leading? (r : Row) : Option Int := r.coeffs.find? (· ≠ 0)

/- Once it is not zero, a common divisor is never cut off. -/
theorem foldl_gcdWord_dvd {a : Int} (hPos : 0 < a) (hLe : a ≤ Word.greatest)
    (cs : List Int) : cs.foldl gcdWord a ∣ a ∧ ∀ c ∈ cs, cs.foldl gcdWord a ∣ c := by
  induction cs generalizing a with
  | nil => exact ⟨dvd_refl a, by simp⟩
  | cons c cs ih =>
    have hGcd : (Int.gcd a c : Int) ≤ a := Int.le_of_dvd hPos (Int.gcd_dvd_left a c)
    have hHead : gcdWord a c = Int.gcd a c := min_eq_left (hGcd.trans hLe)
    have hGcdPos : 0 < (Int.gcd a c : Int) :=
      Int.natCast_pos.mpr (Int.gcd_pos_of_ne_zero_left c hPos.ne')
    rw [foldl_cons, hHead]
    obtain ⟨hDvd, hRest⟩ := ih hGcdPos (hGcd.trans hLe)
    refine ⟨hDvd.trans (Int.gcd_dvd_left a c), forall_mem_cons.mpr ⟨?_, hRest⟩⟩
    exact hDvd.trans (Int.gcd_dvd_right a c)

theorem gcdWord_zero {c : Int} (hWord : Word.IsWord c)
    (hNe : c ≠ Word.least) : gcdWord 0 c = c.natAbs := by
  unfold gcdWord
  rw [Int.gcd_zero_left, min_eq_left]
  unfold Word.IsWord Word.least Word.greatest at *
  omega

theorem gcdWord_least : gcdWord 0 Word.least = Word.greatest := by
  decide

/- The cut-off absolute value of the least word is prime to it. -/
theorem eq_one_of_dvd_least {g : Int} (hNonneg : 0 ≤ g) (hGreatest : g ∣ Word.greatest)
    (hLeast : g ∣ Word.least) : g = 1 := by
  have hOne : g ∣ 1 := by
    have hSum : g ∣ -(Word.greatest + Word.least) := Int.dvd_neg.mpr (Int.dvd_add hGreatest hLeast)
    simpa [Word.greatest, Word.least] using hSum
  exact Int.eq_one_of_dvd_one hNonneg hOne

theorem foldl_gcdWord_dvd_iff {cs : List Int} (hWords : ∀ c ∈ cs, Word.IsWord c) :
    (∀ c ∈ cs, cs.foldl gcdWord 0 ∣ c) ↔ cs.find? (· ≠ 0) ≠ some Word.least ∨
        cs.foldl gcdWord 0 = 1 := by
  induction cs with
  | nil => simp
  | cons c cs ih =>
    obtain ⟨hWord, hRest⟩ := forall_mem_cons.mp hWords
    rw [foldl_cons]
    by_cases hZero : c = 0
    · subst hZero
      have hHead : gcdWord 0 0 = 0 := by decide
      simpa [hHead] using ih hRest
    · have hFind : (c :: cs).find? (· ≠ 0) = some c := by simp [hZero]
      rw [hFind]
      by_cases hLeast : c = Word.least
      · subst hLeast
        rw [gcdWord_least]
        have hDvd := foldl_gcdWord_dvd (a := Word.greatest) (by decide) le_rfl cs
        have hNonneg : 0 ≤ cs.foldl gcdWord Word.greatest := by
          exact content_nonneg ⟨Word.greatest :: cs, 0⟩
        constructor
        · intro hAll
          exact .inr (eq_one_of_dvd_least hNonneg hDvd.1 (hAll _ mem_cons_self))
        · rintro (hNe | hOne)
          · exact absurd rfl hNe
          · intro d _
            rw [hOne]
            exact one_dvd d
      · rw [gcdWord_zero hWord hLeast]
        have hPos : 0 < (c.natAbs : Int) := by omega
        have hLe : (c.natAbs : Int) ≤ Word.greatest := by
          unfold Word.IsWord Word.least Word.greatest at *
          omega
        have hDvd := foldl_gcdWord_dvd hPos hLe cs
        constructor
        · intro _
          exact .inl (by simpa using hLeast)
        · intro _
          exact forall_mem_cons.mpr ⟨Int.dvd_natAbs.mp hDvd.1, hDvd.2⟩

/- The rows whose content is a common divisor. -/
theorem divides_iff {r : Row} (hRange : r.InRange) :
    Divides r ↔ leading? r ≠ some Word.least ∨ content r = 1 :=
  foldl_gcdWord_dvd_iff ((Row.inRange_iff r).mp hRange).1

------
-- Equalities and inequalities
------

section

variable {rows : List Row}

/-
  Division of equalities is exact as long as no row with a
  content other than one starts with the least word.
-/
theorem normalize_exact (hRange : ∀ r ∈ rows, r.InRange)
    (hLeading :
      ∀ r ∈ rows, leading? r ≠ some Word.least ∨ content r = 1) :
    match normalize rows with
    | none => ¬ ∃ x : Nat → Int, ∀ r ∈ rows, r.eval x = 0
    | some out => ∀ x : Nat → Int, (∀ s ∈ out, s.eval x = 0) ↔ ∀ r ∈ rows, r.eval x = 0 := by
  have hDivides (r : Row) (hIn : r ∈ rows) : Divides r :=
    (divides_iff (hRange r hIn)).mpr (hLeading r hIn)
  cases hNormalize : normalize rows with
  | none =>
    rintro ⟨x, hZero⟩
    obtain ⟨r, hIn, hVerdict⟩ := (sorts_normalize _).of_none hNormalize
    exact eval_ne_zero_of_normalizeRow (hDivides r hIn) hVerdict x (hZero r hIn)
  | some out =>
    intro x
    refine ⟨?_, holds_of_normalize hDivides hNormalize⟩
    intro hZero r hIn
    rcases (sorts_normalize _).of_mem hNormalize hIn with hTrivial | ⟨s, hOut, hKept⟩
    · obtain ⟨hContent, hConstant⟩ := of_normalizeRow_eq_trivial hTrivial
      rw [eval_of_content_eq_zero (hDivides r hIn) hContent, hConstant]
    · exact (eval_eq_zero_iff_of_normalizeRow (hDivides r hIn) hKept x).mp (hZero s hOut)

/- Tightening of inequalities is exact for the same rows. -/
theorem tighten_exact (hRange : ∀ r ∈ rows, r.InRange)
    (hLeading :
      ∀ r ∈ rows, leading? r ≠ some Word.least ∨ content r = 1) :
    match tighten rows with
    | none => ¬ ∃ x : Nat → Int, ∀ r ∈ rows, 0 ≤ r.eval x
    | some out => ∀ x : Nat → Int, (∀ s ∈ out, 0 ≤ s.eval x) ↔ ∀ r ∈ rows, 0 ≤ r.eval x := by
  have hDivides (r : Row) (hIn : r ∈ rows) : Divides r :=
    (divides_iff (hRange r hIn)).mpr (hLeading r hIn)
  cases hTighten : tighten rows with
  | none =>
    rintro ⟨x, hNonneg⟩
    obtain ⟨r, hIn, hVerdict⟩ := (sorts_tighten _).of_none hTighten
    have hNeg := eval_neg_of_tightenRow (hDivides r hIn) hVerdict x
    have hHolds := hNonneg r hIn
    omega
  | some out =>
    intro x
    refine ⟨?_, holds_of_tighten hDivides hTighten⟩
    intro hNonneg r hIn
    rcases (sorts_tighten _).of_mem hTighten hIn with hTrivial | ⟨s, hOut, hKept⟩
    · obtain ⟨hContent, hConstant⟩ := of_tightenRow_eq_trivial hTrivial
      rwa [eval_of_content_eq_zero (hDivides r hIn) hContent]
    · exact (eval_nonneg_iff_of_tightenRow (hDivides r hIn) hKept x).mp (hNonneg s hOut)

end

/- An equality with a solution that division takes to have none. -/
theorem normalize_least_eq_none :
    normalize [⟨[Word.least], Word.least⟩] = none ∧
      Row.eval ⟨[Word.least], Word.least⟩ (fun _ => -1) = 0 := by
  decide

/- An inequality that tightening lets a point into. -/
theorem tighten_least_eq_some :
    tighten [⟨[Word.least], Word.greatest⟩] = some [⟨[-1], 1⟩] ∧
      Row.eval ⟨[Word.least], Word.greatest⟩ (fun _ => 1) < 0 ∧
        0 ≤ Row.eval ⟨[-1], 1⟩ (fun _ => 1) := by
  decide

end Elimination

end AffineIR
