import AffineIR.Proofs.Affine.Exact
import Mathlib.Data.Rat.Floor

/-
  Evaluation and flattening are exact.

  Evaluation with words gives the value over the integers
  whenever every input exists, no divisor is zero and all parts
  have values below two to the power of 62, although remainders
  are computed through products that can exceed the dividend.
  The row of a flattened expression gives the value as the
  product with the point.

  Main result: `Affine.Expr.flatten_exact`
-/

namespace AffineIR

open List

------
-- Rounded quotients
------

namespace Word

variable {x y z : Int}

theorem floor_div (x y : Int) : ⌊(x : ℚ) / y⌋ = x.fdiv y := by
  have hNonneg (x : Int) (n : Nat) : ⌊(x : ℚ) / (n : Int)⌋ = x.fdiv n := by
    rw [Int.fdiv_eq_ediv_of_nonneg x (Int.natCast_nonneg n)]
    exact Rat.floor_intCast_div_natCast x n
  obtain ⟨n, rfl | rfl⟩ := Int.eq_nat_or_neg y
  · exact hNonneg x n
  · rw [← Int.neg_fdiv_neg, neg_neg, ← hNonneg, Int.cast_neg, Int.cast_neg, div_neg, neg_div]

theorem ceil_div (x y : Int) : ⌈(x : ℚ) / y⌉ = ceilDiv x y := by
  rw [ceilDiv, ← floor_div, Int.cast_neg, neg_div, Int.floor_neg, neg_neg]

theorem fit?_of_lt (hSmall : z.natAbs < 2 ^ 63) : fit? z = some z := by
  refine fit?_eq_some_iff.mpr ⟨rfl, ?_⟩
  unfold IsWord least greatest
  omega

theorem floorDiv?_of_lt (hDivisor : y ≠ 0)
    (hSmall : x.natAbs < 2 ^ 62) : floorDiv? x y = some (x.fdiv y) := by
  have hCut : (x.tdiv y).natAbs ≤ x.natAbs := by
    rw [Int.natAbs_tdiv]
    exact Nat.div_le_self _ _
  rw [floorDiv?_eq, if_neg hDivisor, fit?_of_lt (by omega), Option.map_some]

theorem ceilDiv?_of_lt (hDivisor : y ≠ 0)
    (hSmall : x.natAbs < 2 ^ 62) : ceilDiv? x y = some (ceilDiv x y) := by
  have hQuotient := Int.natAbs_fdiv_le_natAbs (-x) y
  have hNegated : neg? x = some (-x) := fit?_of_lt (by omega)
  have hBack : neg? ((-x).fdiv y) = some (ceilDiv x y) := fit?_of_lt (by omega)
  simp [ceilDiv?, hNegated, hBack, floorDiv?_of_lt hDivisor (x := -x) (by omega)]

theorem natAbs_fmod_lt (hDivisor : y ≠ 0) : (x.fmod y).natAbs < y.natAbs := by
  have hPositive {x y : Int} (hPos : 0 < y) : (x.fmod y).natAbs < y.natAbs := by
    have hLess := Int.fmod_lt_of_pos x hPos
    have hSign := Int.fmod_nonneg_of_pos x hPos
    omega
  rcases Int.lt_or_gt_of_ne hDivisor with hNeg | hPos
  · have hLess := hPositive (x := -x) (y := -y) (by omega)
    rwa [Int.neg_fmod_neg, Int.natAbs_neg, Int.natAbs_neg] at hLess
  · exact hPositive hPos

/- The product can exceed the dividend, but by less than the divisor. -/
theorem floorMod?_of_lt (hDivisor : y ≠ 0) (hSmall : x.natAbs < 2 ^ 62)
    (hSmall' : y.natAbs < 2 ^ 62) : floorMod? x y = some (x.fmod y) := by
  have hSplit := Int.fmod_add_mul_fdiv x y
  have hRest := natAbs_fmod_lt (x := x) hDivisor
  have hWhole : mul? y (x.fdiv y) = some (y * x.fdiv y) := fit?_of_lt (by omega)
  have hLeft : sub? x (y * x.fdiv y) = some (x - y * x.fdiv y) := fit?_of_lt (by omega)
  simp [floorMod?, floorDiv?_of_lt hDivisor hSmall, hWhole, hLeft, Int.fmod_def]

end Word

namespace Affine

namespace Expr

variable {dims symbols : List Int} {e : Expr} {v : Int}

------
-- Evaluation
------

/- The expression and all expressions in it. -/
def parts : Expr → List Expr
  | dim p => [dim p]
  | symbol p => [symbol p]
  | constant c => [constant c]
  | add l r => add l r :: (l.parts ++ r.parts)
  | mul l r => mul l r :: (l.parts ++ r.parts)
  | mod l r => mod l r :: (l.parts ++ r.parts)
  | floorDiv l r => floorDiv l r :: (l.parts ++ r.parts)
  | ceilDiv l r => ceilDiv l r :: (l.parts ++ r.parts)

/- What an expression is divided by, if it is. -/
def divisor? : Expr → Option Expr
  | mod _ r | floorDiv _ r | ceilDiv _ r => some r
  | _ => none

/- A part whose inputs exist, whose divisor is not zero and that is small. -/
structure Harmless (dims symbols : List Int) (e : Expr) : Prop where
  dim {p : Nat} (hDim : e = .dim p) : p < dims.length
  symbol {p : Nat} (hSymbol : e = .symbol p) : p < symbols.length
  divisor {r : Expr} (hDivisor : e.divisor? = some r) : r.value? dims symbols ≠ some 0
  small {v : Int} (hValue : e.value? dims symbols = some v) : v.natAbs < 2 ^ 62

theorem mem_parts (e : Expr) : e ∈ e.parts := by
  cases e <;> simp [parts]

/- Evaluation succeeds at a node if it does at the operands. -/
theorem eval?_node {l r node : Expr} {f g : Int → Int → Option Int}
    (hNode : node.parts = node :: (l.parts ++ r.parts))
    (hValue : node.value? dims symbols = (l.value? dims symbols).bind fun a =>
      (r.value? dims symbols).bind (f a))
    (hEval : node.eval? dims symbols = (l.eval? dims symbols).bind fun a =>
      (r.eval? dims symbols).bind (g a))
    (hParts : ∀ s ∈ node.parts, s.Harmless dims symbols)
    (hLeft : (∀ s ∈ l.parts, s.Harmless dims symbols) →
      ∃ a, l.value? dims symbols = some a ∧ l.eval? dims symbols = some a)
    (hRight : (∀ s ∈ r.parts, s.Harmless dims symbols) →
      ∃ b, r.value? dims symbols = some b ∧ r.eval? dims symbols = some b)
    (hChecked : ∀ a b, a.natAbs < 2 ^ 62 → b.natAbs < 2 ^ 62 → (node.divisor? = some r → b ≠ 0) →
      ∃ c, f a b = some c ∧ (c.natAbs < 2 ^ 62 → g a b = some c)) :
    ∃ v, node.value? dims symbols = some v ∧ node.eval? dims symbols = some v := by
  rw [hNode, forall_mem_cons, forall_mem_append] at hParts
  obtain ⟨hHere, hL, hR⟩ := hParts
  obtain ⟨a, hA, hEvalA⟩ := hLeft hL
  obtain ⟨b, hB, hEvalB⟩ := hRight hR
  have hDivisor (hSome : node.divisor? = some r) : b ≠ 0 := fun hZero =>
    hHere.divisor hSome (hZero ▸ hB)
  rcases hChecked a b ((hL l (mem_parts l)).small hA)
    ((hR r (mem_parts r)).small hB) hDivisor with ⟨c, hExact, hWord⟩
  rw [hA, hB] at hValue
  rw [hEvalA, hEvalB] at hEval
  have hSome := hValue.trans hExact
  exact ⟨c, hSome, hEval.trans (hWord (hHere.small hSome))⟩

/- Evaluation succeeds where all parts are harmless. -/
theorem eval?_of_parts (hParts : ∀ s ∈ e.parts, s.Harmless dims symbols) :
    ∃ v, e.value? dims symbols = some v ∧ e.eval? dims symbols = some v := by
  induction e with
  | dim p =>
    have hInside := (hParts _ (mem_parts _)).dim rfl
    exact ⟨_, List.getElem?_eq_getElem hInside, List.getElem?_eq_getElem hInside⟩
  | symbol p =>
    have hInside := (hParts _ (mem_parts _)).symbol rfl
    exact ⟨_, List.getElem?_eq_getElem hInside, List.getElem?_eq_getElem hInside⟩
  | constant c => exact ⟨c, rfl, rfl⟩
  | add l r ihLeft ihRight =>
    exact eval?_node (f := fun a b => some (a + b)) rfl rfl rfl hParts ihLeft
      ihRight fun a b _ _ _ => ⟨_, rfl, fun hSmall => Word.fit?_of_lt (by omega)⟩
  | mul l r ihLeft ihRight =>
    exact eval?_node (f := fun a b => some (a * b)) rfl rfl rfl hParts ihLeft
      ihRight fun a b _ _ _ => ⟨_, rfl, fun hSmall => Word.fit?_of_lt (by omega)⟩
  | mod l r ihLeft ihRight =>
    exact eval?_node rfl rfl rfl hParts ihLeft ihRight
      fun a b hA hB hDivisor => ⟨_, if_neg (hDivisor rfl), fun _ =>
        Word.floorMod?_of_lt (hDivisor rfl) hA hB⟩
  | floorDiv l r ihLeft ihRight =>
    exact eval?_node rfl rfl rfl hParts ihLeft ihRight
      fun a b hA _ hDivisor => ⟨_, if_neg (hDivisor rfl), fun _ =>
        Word.floorDiv?_of_lt (hDivisor rfl) hA⟩
  | ceilDiv l r ihLeft ihRight =>
    exact eval?_node rfl rfl rfl hParts ihLeft ihRight
      fun a b hA _ hDivisor => ⟨_, if_neg (hDivisor rfl), fun _ =>
        Word.ceilDiv?_of_lt (hDivisor rfl) hA⟩

/-
  What evaluation gives is the value over the integers, with
  quotients rounded as those of rationals are.  It gives the value
  if all inputs exist, no divisor is zero and all parts have
  values below two to the power of 62.
-/
theorem eval?_exact (e : Expr) (dims symbols : List Int) :
    (∀ v, e.eval? dims symbols = some v → e.value? dims symbols = some v) ∧
    ((∀ s ∈ e.parts, s.Harmless dims symbols) → ∃ v, e.value? dims symbols = some v ∧
        e.eval? dims symbols = some v) ∧
    ∀ x y : Int, x.fdiv y = ⌊(x : ℚ) / y⌋ ∧
      x.fmod y = x - y * ⌊(x : ℚ) / y⌋ ∧ Word.ceilDiv x y = ⌈(x : ℚ) / y⌉ := by
  refine ⟨fun _ => value?_of_eval?, eval?_of_parts, fun x y => ?_⟩
  rw [Word.floor_div, Word.ceil_div]
  exact ⟨rfl, Int.fmod_def x y, rfl⟩

/- Rounding with a negative divisor, and a product below the dividend. -/
def roundedSum : Expr := add (mod (dim 0) (symbol 0)) (ceilDiv (dim 0) (constant (-2)))

theorem eval?_roundedSum :
    (∀ s ∈ roundedSum.parts, s.Harmless [-7] [-3]) ∧ roundedSum.eval? [-7] [-3] = some 3 ∧
      ∃ v, roundedSum.value? [-7] [-3] = some v ∧ roundedSum.eval? [-7] [-3] = some v := by
  have hParts : ∀ s ∈ roundedSum.parts, s.Harmless [-7] [-3] := by
    simp only [roundedSum, parts, cons_append, nil_append, forall_mem_cons]
    refine ⟨?_, ?_, ?_, ?_, ?_, ?_, ?_, nofun⟩
    all_goals
      exact ⟨by rintro _ ⟨⟩ <;> decide, by rintro _ ⟨⟩ <;> decide,
        by rintro _ ⟨⟩ <;> decide, by rintro _ ⟨⟩; decide⟩
  exact ⟨hParts, by decide, (eval?_exact roundedSum [-7] [-3]).2.1 hParts⟩

------
-- Flattening
------

theorem sumFrom_getD {cs xs : List Int} (hLength : cs.length = xs.length) (ys : List Int) :
    Row.sumFrom (fun i => (ys ++ xs).getD i 0) ys.length cs = (List.zipWith (· * ·) cs xs).sum := by
  induction cs generalizing xs ys with
  | nil => rfl
  | cons c cs ih =>
    rcases xs with _ | ⟨x, xs⟩
    · cases hLength
    have hRest := ih (Nat.succ.inj hLength) (ys ++ [x])
    rw [append_assoc, length_append] at hRest
    rw [Row.sumFrom, zipWith_cons_cons, sum_cons, ← hRest]
    simp

/- The value of a row at a point is the product with the point. -/
theorem eval_point {row : Row} (hWidth : row.width = dims.length + symbols.length) :
    row.eval (point dims symbols) =
      (List.zipWith (· * ·) row.entries (dims ++ symbols ++ [1])).sum := by
  have hLength : row.coeffs.length = (dims ++ symbols).length := by
    rwa [length_append]
  have hSum : Row.sumFrom (point dims symbols) 0 row.coeffs = _ := sumFrom_getD hLength []
  rw [Row.eval, hSum, Row.entries, zipWith_append hLength]
  simp

theorem flatten_of_count {n numDims numSymbols : Nat}
    (hCount : Word.count 32 (numDims + numSymbols) = .ok n) :
    e.flatten numDims numSymbols = .ok (e.flatten? numDims numSymbols) := by
  rw [flatten, hCount]
  rfl

/-
  If the inputs can be counted, a flattened expression has, at
  every point, a value: the product of its row with the point.
  Evaluation gives no other value.
-/
theorem flatten_exact (e : Expr) {numDims numSymbols : Nat}
    (hCount : numDims + numSymbols < 2 ^ 32) :
    ∃ flat, e.flatten numDims numSymbols = .ok flat ∧
      ∀ row, flat = some row → ∀ dims symbols : List Int,
        dims.length = numDims → symbols.length = numSymbols →
        row.entries.length = (dims ++ symbols ++ [1]).length ∧ ∃ v, e.value? dims symbols = some v ∧
          v = (List.zipWith (· * ·) row.entries (dims ++ symbols ++ [1])).sum ∧
          ∀ w, e.eval? dims symbols = some w → w = v := by
  refine ⟨_, flatten_of_count (if_pos hCount), ?_⟩
  rintro row hFlat dims symbols rfl rfl
  obtain ⟨hWidth, hValue⟩ := value?_of_flatten? hFlat
  rw [eval_point hWidth] at hValue
  have hLength : row.entries.length = (dims ++ symbols ++ [1]).length := by
    rw [length_append, length_append, ← hWidth]
    exact length_append
  refine ⟨hLength, _, hValue, rfl, fun w hEval => ?_⟩
  rwa [value?_of_eval? hEval, Option.some.injEq] at hValue

/- A quotient of two terms in which the inputs cancel. -/
def cancelled : Expr := add (mul (dim 0) (constant 2))
    (floorDiv (add (add (dim 1) (constant 7)) (mul (constant (-1)) (dim 1)))
      (add (symbol 0) (add (constant (-3)) (mul (symbol 0) (constant (-1))))))

theorem flatten_cancelled :
    cancelled.flatten 2 1 = .ok (some ⟨[2, 0, 0], -3⟩) ∧
      ∃ v, cancelled.value? [5, -4] [9] = some v ∧ v = 7 ∧
        ∀ w, cancelled.eval? [5, -4] [9] = some w → w = v := by
  have hRow : cancelled.flatten 2 1 = .ok (some ⟨[2, 0, 0], -3⟩) := by decide
  rcases flatten_exact cancelled (show 2 + 1 < 2 ^ 32 by decide) with ⟨flat, hFlat, hPoint⟩
  cases hRow.symm.trans hFlat
  exact ⟨hRow, (hPoint _ rfl [5, -4] [9] rfl rfl).2⟩

end Expr

end Affine

end AffineIR
