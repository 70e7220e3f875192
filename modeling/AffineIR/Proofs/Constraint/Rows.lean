import AffineIR.Row
import Mathlib.Algebra.BigOperators.Intervals
import Mathlib.Tactic.Linarith
import Mathlib.Tactic.Ring

/-
  Values of rows under the checked arithmetic of rows.

  Whenever an operation on rows succeeds, the value of its
  result is the same combination of the values of its inputs,
  and the entries of the result are words.

  Main result: `Row.coeff_of_eval`
-/

namespace AffineIR

open List Option

variable {r s t : Row} {cs ds es : List Int} {g x y α β : Int} {f : Int → Int → Option Int}

namespace Word

theorem fit?_eq_some_iff : fit? x = some y ↔ x = y ∧ IsWord y := by
  unfold fit?
  split <;> grind

/- Truncated division by a positive number keeps words words. -/
theorem IsWord.tdiv (hWord : IsWord x) (hPos : 0 < g) : IsWord (x.tdiv g) := by
  have hAbs : (x.tdiv g).natAbs ≤ x.natAbs := by
    rw [Int.natAbs_tdiv]
    exact Nat.div_le_self _ _
  have hSign : 0 ≤ x → 0 ≤ x.tdiv g := by
    intro hNonneg
    exact Int.tdiv_nonneg hNonneg hPos.le
  have hSign' : x ≤ 0 → x.tdiv g ≤ 0 := by
    intro hNonpos
    have hNonneg : 0 ≤ (-x).tdiv g := Int.tdiv_nonneg (by omega) hPos.le
    rw [Int.neg_tdiv] at hNonneg
    omega
  unfold IsWord least greatest at *
  omega

end Word

namespace Row

/- Every entry of the row is a word. -/
def InRange (r : Row) : Prop := ∀ c ∈ r.entries, Word.IsWord c

instance (r : Row) : Decidable r.InRange := by
  unfold InRange
  infer_instance

theorem inRange_iff (r : Row) :
    r.InRange ↔ (∀ c ∈ r.coeffs, Word.IsWord c) ∧ Word.IsWord r.constant := by
  simp [InRange, entries, or_imp, forall_and]

/- The row has `n` coefficients, and its entries are words. -/
def Fits (n : Nat) (r : Row) : Prop := r.width = n ∧ r.InRange

instance (n : Nat) (r : Row) : Decidable (r.Fits n) := by
  unfold Fits
  infer_instance

------
-- Sums
------

/- What a successful map over a list says about every entry. -/
theorem mapM_eq_some_cons {α β : Type} {f : α → Option β} {a : α} {rest : List α} {out : List β}
    (hMap : (a :: rest).mapM f = some out) :
    ∃ b bs, f a = some b ∧ rest.mapM f = some bs ∧ out = b :: bs := by
  rw [mapM_cons] at hMap
  obtain ⟨b, hHead, hMap⟩ := Option.bind_eq_some_iff.mp hMap
  obtain ⟨bs, hTail, hMap⟩ := Option.bind_eq_some_iff.mp hMap
  exact ⟨b, bs, hHead, hTail, (Option.some.inj hMap).symm⟩

theorem forall₂_of_mapM {α β : Type} {f : α → Option β} {xs : List α} {out : List β}
    (hMap : xs.mapM f = some out) : Forall₂ (fun a b => f a = some b) xs out := by
  induction xs generalizing out with
  | nil =>
    cases hMap
    exact .nil
  | cons a rest ih =>
    obtain ⟨b, bs, hHead, hRest, rfl⟩ := mapM_eq_some_cons hMap
    exact .cons hHead (ih hRest)

theorem length_of_mapM {α β : Type} {f : α → Option β} {xs : List α} {out : List β}
    (hMap : xs.mapM f = some out) : out.length = xs.length :=
  (forall₂_of_mapM hMap).length_eq.symm

/- Every entry of the output comes from an entry of the input. -/
theorem exists_of_mem_mapM {α β : Type} {f : α → Option β} {xs : List α} {out : List β}
    (hMap : xs.mapM f = some out) {b : β} (hMember : b ∈ out) : ∃ a ∈ xs, f a = some b := by
  have hAll := forall₂_of_mapM hMap
  clear hMap
  induction hAll <;> grind

/- Every entry of the input gives an entry of the output. -/
theorem exists_mem_of_mapM {α β : Type} {f : α → Option β} {xs : List α} {out : List β}
    (hMap : xs.mapM f = some out) {a : α} (hMember : a ∈ xs) : ∃ b ∈ out, f a = some b := by
  have hAll := forall₂_of_mapM hMap
  clear hMap
  induction hAll <;> grind

/-
  The sum of an entry-wise linear combination of two lists of
  coefficients is that combination of their sums.
-/
theorem sumFrom_of_mapM_zip (hLinear : ∀ c d e, f c d = some e → e = α * c + β * d) (x : Nat → Int)
    (hLength : cs.length = ds.length) (hMap : (cs.zip ds).mapM (fun p => f p.1 p.2) = some es)
    (i : Nat) : sumFrom x i es = α * sumFrom x i cs + β * sumFrom x i ds := by
  induction cs generalizing ds es i with
  | nil =>
    cases ds with
    | nil =>
      simp only [List.zip_nil_left, List.mapM_nil, Option.pure_def, Option.some.injEq] at hMap
      subst hMap
      simp [sumFrom]
    | cons d rest => cases hLength
  | cons c cs ih =>
    cases ds with
    | nil => cases hLength
    | cons d ds =>
      rw [List.zip_cons_cons] at hMap
      obtain ⟨e, rest, hHead, hRest, rfl⟩ := mapM_eq_some_cons hMap
      have hTail := ih (Nat.succ.inj hLength) hRest (i + 1)
      simp only [sumFrom]
      rw [hTail, hLinear c d e hHead]
      ring

/-
  Entry-wise combinations of rows combine their values, keep
  the width and stay within the words.
-/
theorem fits_of_combine? (hEntry : ∀ c d e, f c d = some e → e = α * c + β * d ∧ Word.IsWord e)
    (hWidth : r.width = s.width) (hCombine : r.combine? f s = some t) :
    t.Fits r.width ∧ ∀ x, t.eval x = α * r.eval x + β * s.eval x := by
  simp only [combine?, Option.bind_eq_bind, Option.pure_def,
    Option.bind_eq_some_iff, Option.some.injEq] at hCombine
  obtain ⟨coeffs, hCoeffs, constant, hConstant, rfl⟩ := hCombine
  obtain ⟨hSum, hWord⟩ := hEntry _ _ _ hConstant
  refine ⟨⟨?_, (inRange_iff _).mpr ⟨?_, hWord⟩⟩, fun x => ?_⟩
  · have hLength := length_of_mapM hCoeffs
    unfold width at *
    rw [hLength, List.length_zip, hWidth, Nat.min_self]
  · intro e hMember
    obtain ⟨p, _, hSome⟩ := exists_of_mem_mapM hCoeffs hMember
    exact (hEntry _ _ _ hSome).2
  · simp only [eval]
    rw [sumFrom_of_mapM_zip (fun c d e hSome => (hEntry c d e hSome).1) x hWidth hCoeffs 0, hSum]
    ring

/- A change of every entry combines the row with itself. -/
theorem fits_of_mapM? {f : Int → Option Int} (hEntry : ∀ c e, f c = some e → e = α * c ∧
    Word.IsWord e) (hMap : r.mapM? f = some t) : t.Fits r.width ∧ ∀ x, t.eval x = α * r.eval x := by
  have hSelf : r.combine? (fun c _ => f c) r = some t := by
    have hZip : r.coeffs.zip r.coeffs = r.coeffs.map fun c => (c, c) := by
      simpa using zip_map' (f := id) (g := id) (l := r.coeffs)
    rw [← hMap, combine?, hZip, List.mapM_map]
    rfl
  simpa using fits_of_combine? (β := 0) (by simpa using hEntry) rfl hSelf

theorem fits_of_neg? (hNeg : r.neg? = some s) : s.Fits r.width ∧ ∀ x, s.eval x = -1 * r.eval x := by
  refine fits_of_mapM? (fun c e hEntry => ?_) hNeg
  obtain ⟨rfl, hWord⟩ := Word.fit?_eq_some_iff.mp hEntry
  exact ⟨by ring, hWord⟩

/- Dividing all coefficients by a common divisor divides the sum. -/
theorem sumFrom_divide (x : Nat → Int) (hDivides : ∀ c ∈ cs, g ∣ c)
    (i : Nat) : g * sumFrom x i (cs.map (·.tdiv g)) = sumFrom x i cs := by
  induction cs generalizing i with
  | nil => simp [sumFrom]
  | cons c cs ih =>
    have hHead : g * c.tdiv g = c := Int.mul_tdiv_cancel' (hDivides c mem_cons_self)
    have hTail := ih (fun d hMember => hDivides d (mem_cons_of_mem _ hMember)) (i + 1)
    simp only [map_cons, sumFrom]
    calc
      g * (c.tdiv g * x i + sumFrom x (i + 1) (cs.map (·.tdiv g))) = (g * c.tdiv g) * x i +
              g * sumFrom x (i + 1) (cs.map (·.tdiv g)) := by
            ring
      _ = c * x i + sumFrom x (i + 1) cs := by rw [hHead, hTail]

/- The sum of coefficients with a common divisor is a multiple of it. -/
theorem dvd_sumFrom (x : Nat → Int) (hDivides : ∀ c ∈ cs, g ∣ c) (i : Nat) : g ∣ sumFrom x i cs :=
  ⟨_, (sumFrom_divide x hDivides i).symm⟩

------
-- Coefficients
------

theorem coeff_eq_zero {v : Nat} (hWidth : r.width ≤ v) : r.coeff v = 0 := by
  unfold coeff
  rw [getD_eq_getElem?_getD, List.getElem?_eq_none hWidth]
  rfl

theorem coeff_mem {v : Nat} (hCoeff : r.coeff v ≠ 0) : r.coeff v ∈ r.coeffs := by
  unfold coeff at *
  rw [getD_eq_getElem?_getD] at *
  cases hAt : r.coeffs[v]? with
  | none => simp [hAt] at hCoeff
  | some c => exact mem_of_getElem? hAt

theorem sumFrom_eq_sum (x : Nat → Int) (cs : List Int) (i : Nat) :
    sumFrom x i cs = ∑ j ∈ Finset.range cs.length, cs.getD j 0 * x (i + j) := by
  induction cs generalizing i with
  | nil => rfl
  | cons c cs ih =>
    rw [sumFrom, ih, length_cons, Finset.sum_range_succ']
    simp only [getD_cons_succ, getD_cons_zero,
      Nat.add_zero, Nat.add_assoc, Nat.add_comm 1]
    rw [Int.add_comm]

theorem eval_eq_sum (r : Row) (x : Nat → Int) :
    r.eval x = ∑ i ∈ Finset.range r.width, r.coeff i * x i + r.constant := by
  simp only [eval, sumFrom_eq_sum, width, coeff, Nat.zero_add]

theorem eval_zero (r : Row) : r.eval (fun _ => 0) = r.constant := by
  simp [eval_eq_sum]

/- The value where one variable is one and all others are zero. -/
theorem eval_indicator (r : Row) (v : Nat) :
    r.eval (fun i => if i = v then 1 else 0) = r.coeff v + r.constant := by
  have hSum : ∑ i ∈ Finset.range r.width, r.coeff i * (if i = v then 1 else 0) = r.coeff v := by
    simp only [mul_ite, mul_one, mul_zero, Finset.sum_ite_eq', Finset.mem_range]
    split
    · rfl
    · rename_i hWidth
      exact (coeff_eq_zero (not_lt.mp hWidth)).symm
  rw [eval_eq_sum, hSum]

section

variable {a b d : Int}

/-
  Rows whose values are combined at every point have their
  constants and coefficients combined in the same way.
-/
theorem constant_of_eval (hEval : ∀ x, t.eval x = a * r.eval x + b * s.eval x + d) :
    t.constant = a * r.constant + b * s.constant + d := by
  simpa only [eval_zero] using hEval fun _ => 0

theorem coeff_of_eval (hEval : ∀ x, t.eval x = a * r.eval x + b * s.eval x + d)
    (v : Nat) : t.coeff v = a * r.coeff v + b * s.coeff v := by
  have hPoint := hEval fun i => if i = v then 1 else 0
  have hConstant := constant_of_eval hEval
  simp only [eval_indicator] at hPoint
  linarith

end

end Row

end AffineIR
