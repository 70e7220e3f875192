import AffineIR.Affine.IntegerSet
import AffineIR.Proofs.Constraint.Rows

/-
  The value of an affine expression over the integers.

  Evaluation with words gives this value whenever it gives
  one, and a flattened expression has the value of its row at
  every point.

  Main result: `Affine.Expr.value?_of_flatten?`
-/

namespace AffineIR

open List Option

variable {bits i k n numDims numSymbols p : Nat} {e l r : Expr} {factor v : Int}
  {f g : Int → Int → Option Int} {cs dims ds symbols : List Int}

------
-- Checked arithmetic
------

namespace Word

variable {x y z : Int}

theorem eq_of_add? (hSum : add? x y = some z) : z = x + y := (fit?_eq_some_iff.mp hSum).1.symm

theorem eq_of_mul? (hProduct : mul? x y = some z) : z = x * y :=
  (fit?_eq_some_iff.mp hProduct).1.symm

theorem eq_of_count (hCount : count bits n = .ok k) : k = n := by
  unfold count at hCount
  split at hCount
  · exact (Except.ok.inj hCount).symm
  · cases hCount

/- A quotient or remainder by a number other than zero. -/
def divided? (f : Int → Int → Int) (x y : Int) : Option Int :=
  if y = 0 then none else some (f x y)

/- Quotient rounded up. -/
def ceilDiv (x y : Int) : Int := -((-x).fdiv y)

/- Cutting off and taking one away rounds down, for either sign. -/
theorem floorDiv?_eq :
    floorDiv? x y = if y = 0 then none else (fit? (x.tdiv y)).map fun _ => x.fdiv y := by
  unfold floorDiv?
  split
  · rfl
  · rename_i hDivisor
    cases hFit : fit? (x.tdiv y) with
    | none => rfl
    | some quotient =>
      cases (fit?_eq_some_iff.mp hFit).1
      simp only [map_some, Option.some.injEq, Int.fdiv_eq_tdiv, Int.dvd_iff_tmod_eq_zero]
      rcases Int.lt_or_gt_of_ne hDivisor with hNeg | hPos
      · rw [Int.sign_eq_neg_one_of_neg hNeg]
        split_ifs <;> omega
      · rw [Int.sign_eq_one_of_pos hPos]
        split_ifs <;> omega

theorem divided?_of_floorDiv?
    (hQuotient : floorDiv? x y = some z) : divided? Int.fdiv x y = some z := by
  rw [floorDiv?_eq] at hQuotient
  split at hQuotient
  · cases hQuotient
  · rename_i hDivisor
    obtain ⟨_, _, rfl⟩ := map_eq_some_iff.mp hQuotient
    exact if_neg hDivisor

theorem divided?_of_ceilDiv?
    (hQuotient : ceilDiv? x y = some z) : divided? ceilDiv x y = some z := by
  unfold ceilDiv? at hQuotient
  simp only [bind_eq_bind, bind_eq_some_iff] at hQuotient
  obtain ⟨negated, hNegated, quotient, hFloor, hNeg⟩ := hQuotient
  have hExact := divided?_of_floorDiv? hFloor
  unfold divided? at hExact ⊢
  split at hExact
  · cases hExact
  · rename_i hDivisor
    cases hExact
    rw [if_neg hDivisor, ← (fit?_eq_some_iff.mp hNeg).1,
      ← (fit?_eq_some_iff.mp hNegated).1, ceilDiv]

theorem divided?_of_floorMod?
    (hRest : floorMod? x y = some z) : divided? Int.fmod x y = some z := by
  unfold floorMod? at hRest
  simp only [bind_eq_bind, bind_eq_some_iff] at hRest
  obtain ⟨quotient, hFloor, whole, hWhole, hSub⟩ := hRest
  have hExact := divided?_of_floorDiv? hFloor
  unfold divided? at hExact ⊢
  split at hExact
  · cases hExact
  · rename_i hDivisor
    cases hExact
    rw [if_neg hDivisor, Int.fmod_def, ← eq_of_mul? hWhole, (fit?_eq_some_iff.mp hSub).1]

end Word

namespace Affine

namespace Expr

/-
  The value at a point, over the integers.  Nothing is given
  for an input that does not exist or a zero divisor.
-/
def value? (dims symbols : List Int) : Expr → Option Int
  | dim p => dims[p]?
  | symbol p => symbols[p]?
  | constant c => some c
  | add l r => do
      return (← l.value? dims symbols) + (← r.value? dims symbols)
  | mul l r => do
      return (← l.value? dims symbols) * (← r.value? dims symbols)
  | mod l r => do
      Word.divided? Int.fmod (← l.value? dims symbols) (← r.value? dims symbols)
  | floorDiv l r => do
      Word.divided? Int.fdiv (← l.value? dims symbols) (← r.value? dims symbols)
  | ceilDiv l r => do
      Word.divided? Word.ceilDiv (← l.value? dims symbols) (← r.value? dims symbols)

/- An operation that refines another one, on values that may be missing. -/
theorem bind_of_bind {x y x' y' : Option Int} (hExact : ∀ {a b c}, f a b = some c → g a b = some c)
    (hLeft : ∀ {a}, x = some a → x' = some a) (hRight : ∀ {b}, y = some b → y' = some b)
    (hSome : (x.bind fun a => y.bind (f a)) = some v) :
    (x'.bind fun a => y'.bind (g a)) = some v := by
  obtain ⟨a, hX, hRest⟩ := bind_eq_some_iff.mp hSome
  obtain ⟨b, hY, hValue⟩ := bind_eq_some_iff.mp hRest
  rw [hLeft hX, hRight hY]
  exact hExact hValue

/- What evaluation with words gives is the value. -/
theorem value?_of_eval?
    (hEval : e.eval? dims symbols = some v) : e.value? dims symbols = some v := by
  induction e generalizing v with
  | dim p => exact hEval
  | symbol p => exact hEval
  | constant c => exact hEval
  | add l r ihLeft ihRight =>
    exact bind_of_bind (g := fun a b => some (a + b))
      (fun hSum => by rw [Word.eq_of_add? hSum]) ihLeft ihRight hEval
  | mul l r ihLeft ihRight =>
    exact bind_of_bind (g := fun a b => some (a * b))
      (fun hProduct => by rw [Word.eq_of_mul? hProduct]) ihLeft ihRight hEval
  | mod l r ihLeft ihRight => exact bind_of_bind Word.divided?_of_floorMod? ihLeft ihRight hEval
  | floorDiv l r ihLeft ihRight =>
    exact bind_of_bind Word.divided?_of_floorDiv? ihLeft ihRight hEval
  | ceilDiv l r ihLeft ihRight => exact bind_of_bind Word.divided?_of_ceilDiv? ihLeft ihRight hEval

end Expr

end Affine

------
-- Rows
------

namespace Row

variable {r s t : Row} {x : Nat → Int}

theorem fits_of_add? (hWidth : r.width = s.width) (hAdd : r.add? s = some t) :
    t.Fits r.width ∧ ∀ x, t.eval x = r.eval x + s.eval x := by
  simpa using fits_of_combine? (α := 1) (β := 1) (fun c d e hSum => by
    simpa [eq_comm] using Word.fit?_eq_some_iff.mp hSum) hWidth hAdd

theorem fits_of_scale? (hScale : r.scale? factor = some t) :
    t.Fits r.width ∧ ∀ x, t.eval x = factor * r.eval x :=
  fits_of_mapM? (fun c e hProduct => by
    simpa [eq_comm, mul_comm] using Word.fit?_eq_some_iff.mp hProduct) hScale

theorem sumFrom_of_zero (hZero : ∀ c ∈ cs, c = 0) (i : Nat) : sumFrom x i cs = 0 := by
  induction cs generalizing i with
  | nil => rfl
  | cons c cs ih =>
    simp only [sumFrom]
    rw [hZero c mem_cons_self, ih (fun d hMem => hZero d (mem_cons_of_mem _ hMem))]
    ring

theorem eval_of_isConstant (hConstant : r.isConstant = true) : r.eval x = r.constant := by
  have hZero : ∀ c ∈ r.coeffs, c = 0 := by simpa [isConstant] using hConstant
  rw [eval, sumFrom_of_zero hZero, zero_add]

@[simp] theorem width_ofConstant (n : Nat) (c : Int) :
    (ofConstant n c).width = n :=
  length_replicate

@[simp] theorem eval_ofConstant (n : Nat) (c : Int) :
    (ofConstant n c).eval x = c :=
  eval_of_isConstant (by simp [isConstant, ofConstant])

@[simp] theorem width_unit (n i : Nat) : (unit n i).width = n := by
  simp [width, unit]

theorem sumFrom_unit (hInside : i < n)
    (k : Nat) : sumFrom x k ((List.replicate n 0).set i 1) = x (k + i) := by
  induction n generalizing i k with
  | zero => omega
  | succ n ih =>
    rw [replicate_succ]
    cases i with
    | zero =>
      simp only [set_cons_zero, sumFrom]
      rw [sumFrom_of_zero (by simp)]
      simp
    | succ i =>
      simp only [set_cons_succ, sumFrom]
      rw [ih (by omega)]
      simp only [zero_mul, zero_add]
      congr 1
      omega

theorem eval_unit (hInside : i < n) : (unit n i).eval x = x i := by
  simp [eval, unit, sumFrom_unit hInside]

end Row

namespace Affine

------
-- Flattening
------

/- The dimensions and then the symbols, as values of variables. -/
def point (dims symbols : List Int) (i : Nat) : Int := (dims ++ symbols).getD i 0

theorem point_dim (symbols : List Int)
    (hInside : p < dims.length) : dims[p]? = some (point dims symbols p) := by
  simp [point, getD_eq_getElem?_getD, List.getElem?_append_left hInside,
    List.getElem?_eq_getElem hInside]

theorem point_symbol (dims : List Int)
    (hInside : p < symbols.length) : symbols[p]? = some (point dims symbols (dims.length + p)) := by
  simp [point, getD_eq_getElem?_getD, List.getElem?_append_right,
    List.getElem?_eq_getElem hInside]

namespace Expr

variable {row : Row}

/- The row of a quotient or remainder of two constant rows. -/
theorem value?_of_foldRows? {exact : Int → Int → Int} {left right : Row} {x : Nat → Int}
    (hExact : ∀ {a b c}, f a b = some c → Word.divided? exact a b = some c)
    (hLeft : left.width = n ∧ l.value? dims symbols = some (left.eval x))
    (hRight : right.width = n ∧ r.value? dims symbols = some (right.eval x))
    (hFold : foldRows? f left right = some row) :
    row.width = n ∧ ((l.value? dims symbols).bind fun a =>
      (r.value? dims symbols).bind (Word.divided? exact a)) = some (row.eval x) := by
  unfold foldRows? at hFold
  split at hFold
  · rename_i hBoth
    rw [Bool.and_eq_true] at hBoth
    obtain ⟨c, hValue, rfl⟩ := map_eq_some_iff.mp hFold
    refine ⟨(Row.width_ofConstant _ _).trans hLeft.1, ?_⟩
    rw [hLeft.2, hRight.2, Row.eval_of_isConstant hBoth.1,
      Row.eval_of_isConstant hBoth.2, Row.eval_ofConstant]
    exact hExact hValue
  · cases hFold

/- A flattened expression has the value of its row. -/
theorem value?_of_flatten? (hFlat : e.flatten? dims.length symbols.length = some row) :
    row.width = dims.length + symbols.length ∧
      e.value? dims symbols = some (row.eval (point dims symbols)) := by
  induction e generalizing row with
  | dim p =>
    simp only [flatten?] at hFlat
    split at hFlat
    · rename_i hInside
      cases hFlat
      refine ⟨Row.width_unit _ _, ?_⟩
      rw [Row.eval_unit (by omega)]
      exact point_dim symbols hInside
    · cases hFlat
  | symbol p =>
    simp only [flatten?] at hFlat
    split at hFlat
    · rename_i hInside
      cases hFlat
      refine ⟨Row.width_unit _ _, ?_⟩
      rw [Row.eval_unit (by omega)]
      exact point_symbol dims hInside
    · cases hFlat
  | constant c =>
    cases hFlat
    exact ⟨Row.width_ofConstant _ _, by rw [Row.eval_ofConstant]; rfl⟩
  | add l r ihLeft ihRight =>
    simp only [flatten?, bind_eq_bind, bind_eq_some_iff] at hFlat
    obtain ⟨left, hLeft, right, hRight, hAdd⟩ := hFlat
    obtain ⟨hWidthL, hValueL⟩ := ihLeft hLeft
    obtain ⟨hWidthR, hValueR⟩ := ihRight hRight
    have hWidth := hWidthL.trans hWidthR.symm
    obtain ⟨hSum, hEval⟩ := Row.fits_of_add? hWidth hAdd
    refine ⟨hSum.1.trans hWidthL, ?_⟩
    rw [hEval]
    simp [value?, hValueL, hValueR]
  | mul l r ihLeft ihRight =>
    simp only [flatten?, bind_eq_bind, bind_eq_some_iff] at hFlat
    obtain ⟨left, hLeft, right, hRight, hScale⟩ := hFlat
    obtain ⟨hWidthL, hValueL⟩ := ihLeft hLeft
    obtain ⟨hWidthR, hValueR⟩ := ihRight hRight
    split at hScale
    · rename_i hConstant
      refine ⟨(Row.fits_of_scale? hScale).1.1.trans hWidthR, ?_⟩
      rw [(Row.fits_of_scale? hScale).2]
      simp [value?, hValueL, hValueR, Row.eval_of_isConstant hConstant]
    · split at hScale
      · rename_i hConstant
        refine ⟨(Row.fits_of_scale? hScale).1.1.trans hWidthL, ?_⟩
        rw [(Row.fits_of_scale? hScale).2]
        simp [value?, hValueL, hValueR, Row.eval_of_isConstant hConstant, mul_comm]
      · cases hScale
  | mod l r ihLeft ihRight =>
    simp only [flatten?, bind_eq_bind, bind_eq_some_iff] at hFlat
    obtain ⟨left, hLeft, right, hRight, hFold⟩ := hFlat
    exact value?_of_foldRows? Word.divided?_of_floorMod? (ihLeft hLeft) (ihRight hRight) hFold
  | floorDiv l r ihLeft ihRight =>
    simp only [flatten?, bind_eq_bind, bind_eq_some_iff] at hFlat
    obtain ⟨left, hLeft, right, hRight, hFold⟩ := hFlat
    exact value?_of_foldRows? Word.divided?_of_floorDiv? (ihLeft hLeft) (ihRight hRight) hFold
  | ceilDiv l r ihLeft ihRight =>
    simp only [flatten?, bind_eq_bind, bind_eq_some_iff] at hFlat
    obtain ⟨left, hLeft, right, hRight, hFold⟩ := hFlat
    exact value?_of_foldRows? Word.divided?_of_ceilDiv? (ihLeft hLeft) (ihRight hRight) hFold

theorem width_of_flatten?
    (hFlat : e.flatten? numDims numSymbols = some row) : row.width = numDims + numSymbols := by
  have hOrigin : e.flatten? (List.replicate numDims (0 : Int)).length
      (List.replicate numSymbols (0 : Int)).length = some row := by
    rwa [length_replicate, length_replicate]
  have hWidth := (value?_of_flatten? hOrigin).1
  rwa [length_replicate, length_replicate] at hWidth

end Expr

/- The numbers that a map gives at a point, however large. -/
def Map.values? (m : Map) (inputs : List Int) : Option (List Int) :=
  if inputs.length = m.numDims + m.numSymbols then
    m.results.mapM (·.value? (inputs.take m.numDims) (inputs.drop m.numDims))
  else
    none

/- All constraints of a set have a value at a point and are met. -/
def IntegerSet.Admits (s : IntegerSet) (inputs : List Int) : Prop :=
  inputs.length = s.numDims + s.numSymbols ∧ ∀ c ∈ s.constraints, ∃ w,
      c.expr.value? (inputs.take s.numDims) (inputs.drop s.numDims) = some w ∧ c.admits w = true

end Affine

end AffineIR
