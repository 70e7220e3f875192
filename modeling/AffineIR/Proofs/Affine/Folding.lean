import AffineIR.Proofs.Affine.Exact

/-
  Folding refines the nodes it stands for.

  The folding operations drop neutral operands, compute with
  constants and put constants on the right.  What they build has
  the value of the plain node wherever that node has one.

  Main result: `Affine.Expr.folding_refines`
-/

namespace AffineIR

open Option Word

namespace Affine

namespace Expr

variable {e e' e'' l r r' node : Expr} {dims symbols : List Int} {v : Int} {value : Option Int}

/- Wherever one expression has a value, the other one has it as well. -/
def Refines (e e' : Expr) : Prop :=
  ∀ ⦃dims symbols v⦄, e.eval? dims symbols = some v → e'.eval? dims symbols = some v

theorem Refines.refl (e : Expr) : Refines e e := fun _ _ _ => id

theorem Refines.trans (hFirst : Refines e e') (hSecond : Refines e' e'') : Refines e e'' :=
  fun _ _ _ hEval => hSecond (hFirst hEval)

theorem Refines.add_right (l : Expr) (hRefines : Refines r r') : Refines (add l r) (add l r') :=
  fun _ _ _ => bind_of_bind id id (hRefines ·)

/- A node over constants is replaced by its value, if it has one. -/
theorem refines_constantOr (hNode : ∀ dims symbols, node.eval? dims symbols = value) :
    Refines node (constantOr value node) := by
  intro dims symbols v hEval
  cases (hNode dims symbols).symm.trans hEval
  rfl

------
-- Sums and products
------

theorem bind_swap {g : Int → Int → Option Int} (hSwap : ∀ a b, g a b = g b a)
    (x y : Option Int) : (x.bind fun a => y.bind (g a)) = y.bind fun b => x.bind (g b) := by
  cases x with
  | none => cases y <;> rfl
  | some a =>
    cases y with
    | none => rfl
    | some b => exact hSwap a b

theorem refines_add_swap (l r : Expr) : Refines (add l r) (add r l) := fun _ _ _ hEval =>
  (bind_swap (fun a b => congrArg Word.fit? (add_comm a b)) _ _).trans hEval

theorem refines_mul_swap (l r : Expr) : Refines (mul l r) (mul r l) := fun _ _ _ hEval =>
  (bind_swap (fun a b => congrArg Word.fit? (mul_comm a b)) _ _).trans hEval

theorem refines_plusConstant (l : Expr) (c : Int) :
    Refines (add l (constant c)) (if c = 0 then l else add l (constant c)) := by
  split
  · rename_i hZero
    intro dims symbols v hEval
    obtain ⟨a, hLeft, hSum⟩ := bind_eq_some_iff.mp hEval
    rw [hLeft, eq_of_add? hSum, hZero, add_zero]
  · exact .refl _

theorem refines_timesConstant (l : Expr) (c : Int) :
    Refines (mul l (constant c))
      (if c = 0 then constant 0 else if c = 1 then l else mul l (constant c)) := by
  split
  · rename_i hZero
    intro dims symbols v hEval
    obtain ⟨a, _, hProduct⟩ := bind_eq_some_iff.mp hEval
    rw [eq_of_mul? hProduct, hZero, mul_zero, eval?]
  split
  · rename_i hOne
    intro dims symbols v hEval
    obtain ⟨a, hLeft, hProduct⟩ := bind_eq_some_iff.mp hEval
    rw [hLeft, eq_of_mul? hProduct, hOne, mul_one]
  · exact .refl _

theorem refines_plus (l r : Expr) : Refines (add l r) (l.plus r) := by
  unfold plus
  split
  · exact refines_constantOr fun _ _ => rfl
  · exact (refines_add_swap _ _).trans (refines_plusConstant _ _)
  · exact refines_plusConstant _ _
  · exact .refl _

theorem refines_times (l r : Expr) : Refines (mul l r) (l.times r) := by
  unfold times
  split
  · exact refines_constantOr fun _ _ => rfl
  · exact (refines_mul_swap _ _).trans (refines_timesConstant _ _)
  · exact refines_timesConstant _ _
  · exact .refl _

theorem refines_minus (l r : Expr) : Refines (add l (mul r (constant (-1)))) (l.minus r) :=
  (Refines.add_right l (refines_times r _)).trans (refines_plus l _)

/- A number whose negation is a word is added negated. -/
theorem refines_minusConstant (l : Expr) (c : Int) :
    Refines (add l (mul (constant c) (constant (-1)))) (l.minusConstant c) := by
  unfold minusConstant
  split
  · rename_i n hNeg
    have hProduct : Refines (mul (constant c) (constant (-1))) (constant n) := by
      intro dims symbols v hEval
      rw [eval?, ← (Word.fit?_eq_some_iff.mp hNeg).1, ← mul_neg_one, ← eq_of_mul? hEval]
    exact (Refines.add_right l hProduct).trans (refines_plus l _)
  · exact refines_minus l _

/- What a division by one is replaced by. -/
theorem refines_divisorOne {f : Int → Int → Option Int} {exact : Int → Int → Int} {c : Int}
    (hExact : ∀ {x y z}, f x y = some z → Word.divided? exact x y = some z)
    (hNode : ∀ dims symbols, node.eval? dims symbols = (l.eval? dims symbols).bind (f · c))
    (hOne : ∀ ⦃dims symbols a⦄, l.eval? dims symbols = some a →
      e.eval? dims symbols = some (exact a 1)) :
    Refines node (if c = 1 then e else node) := by
  split
  · rename_i hDivisor
    intro dims symbols v hEval
    rw [hNode] at hEval
    obtain ⟨a, hLeft, hQuotient⟩ := bind_eq_some_iff.mp hEval
    cases hDivisor ▸ hExact hQuotient
    exact hOne hLeft
  · exact .refl _

theorem refines_modulo (l r : Expr) : Refines (mod l r) (l.modulo r) := by
  unfold modulo
  split
  · exact refines_constantOr fun _ _ => rfl
  · refine refines_divisorOne Word.divided?_of_floorMod? (fun _ _ => rfl) fun _ _ a _ => ?_
    rw [Int.fmod_one, eval?]
  · exact .refl _

theorem refines_floorDivBy (l r : Expr) : Refines (floorDiv l r) (l.floorDivBy r) := by
  unfold floorDivBy
  split
  · exact refines_constantOr fun _ _ => rfl
  · refine refines_divisorOne Word.divided?_of_floorDiv? (fun _ _ => rfl) fun _ _ a hLeft => ?_
    rw [hLeft, Int.fdiv_one]
  · exact .refl _

theorem refines_ceilDivBy (l r : Expr) : Refines (ceilDiv l r) (l.ceilDivBy r) := by
  unfold ceilDivBy
  split
  · exact refines_constantOr fun _ _ => rfl
  · refine refines_divisorOne Word.divided?_of_ceilDiv? (fun _ _ => rfl) fun _ _ a hLeft => ?_
    rw [hLeft, Word.ceilDiv, Int.fdiv_one, neg_neg]
  · exact .refl _

/-
  The folding operations refine the nodes they stand for, a
  difference being the sum with the product by minus one.  The
  right operand may be a number in each of them; a difference
  with a number is folded in its own way.
-/
theorem folding_refines (l r : Expr) (c : Int) :
    Refines (add l r) (l.plus r) ∧ Refines (mul l r) (l.times r) ∧
    Refines (mod l r) (l.modulo r) ∧ Refines (floorDiv l r) (l.floorDivBy r) ∧
    Refines (ceilDiv l r) (l.ceilDivBy r) ∧
    Refines (mul l (constant (-1))) l.negate ∧
    Refines (add l (mul r (constant (-1)))) (l.minus r) ∧
    Refines (add l (mul (constant c) (constant (-1)))) (l.minusConstant c) :=
  ⟨refines_plus l r, refines_times l r, refines_modulo l r, refines_floorDivBy l r,
    refines_ceilDivBy l r, refines_times l _, refines_minus l r, refines_minusConstant l c⟩

end Expr

end Affine

end AffineIR
