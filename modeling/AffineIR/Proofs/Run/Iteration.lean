import AffineIR.Proofs.Run.Order
import Mathlib.Data.Rat.Floor

/-
  The iteration spaces of loops.

  A loop executes its body for one value of its variable after
  the other.  Adding the step may leave the range of words, and
  the loop then ends; this happens only behind the last value
  that is below the upper bound.  So the values are all those
  that are whole steps above the lower bound and below the upper
  one.

  Main result: `Exec.op_runs_iterationSpace`
-/

namespace AffineIR

open List

/- Between words, the values end at the bound. -/
theorem Act.exists_count {first last step : Int} (hStep : 0 < step) (hLow : Word.IsWord first)
    (hHigh : Word.IsWord last) : ∃ count : Nat,
    iterationsBetween first last step = (range count).map (fun k : Nat => first + k * step) ∧
      ∀ k : Nat, k < count ↔ first + k * step < last := by
  obtain ⟨count, hEq, hInside, hEnd⟩ := iterationsBetween_eq hStep first last
  refine ⟨count, hEq, fun k => ⟨hInside k, fun hBelow => ?_⟩⟩
  by_contra hPast
  have hMore : (count : Int) * step ≤ k * step := by
    gcongr
    omega
  have hUp := Int.mul_nonneg (Int.natCast_nonneg count) hStep.le
  rcases hEnd with hEnd | ⟨_, hEnd⟩
  · omega
  · exact hEnd ⟨by have := hLow.1; omega, by have := hHigh.2; omega⟩

namespace Exec

variable {body : Int → Exec Flow} {m m' : Machine} {is : List Int}

/- Run a body for values one after the other, until it returns. -/
def inTurn (body : Int → Exec Flow) : List Int → Exec Flow
  | [] => return .done
  | i :: is => do
      match ← body i with
      | .ret values => return .ret values
      | _ => inTurn body is

/-
  A body that neither fails nor returns is run for values one
  after the other, each time on what it left before.
-/
inductive Passes (body : Int → Exec Flow) : List Int → Machine → Machine → Prop
  | nil {m : Machine} : Passes body [] m m
  | cons {i : Int} {is : List Int} {m m₁ m' : Machine} {flow : Flow}
      (hBody : outcome (body i) m = (.ok flow, m₁)) (hStays : ∀ values, flow ≠ .ret values)
      (hRest : Passes body is m₁ m') : Passes body (i :: is) m m'

theorem iterateUpTo_eq_inTurn (body : Int → Exec Flow) (upper step : Int) (n : Nat) (i : Int) :
    iterateUpTo body upper step n i = inTurn body (Act.iterations upper step n i) := by
  induction n generalizing i with
  | zero => rfl
  | succ n ih =>
    unfold iterateUpTo Act.iterations
    by_cases hBelow : i < upper
    · rw [if_pos hBelow, if_pos hBelow]
      cases Word.add? i step with
      | none => rfl
      | some next =>
        refine bind_congr fun flow => ?_
        cases flow with
        | ret values => rfl
        | done => exact ih next
        | branch b => exact ih next
    · rw [if_neg hBelow, if_neg hBelow]
      rfl

theorem inTurn_iff_passes : outcome (inTurn body is) m = (.ok .done, m') ↔ Passes body is m m' := by
  constructor
  · intro hRun
    induction is generalizing m with
    | nil =>
      cases hRun
      exact .nil
    | cons i is ih =>
      rw [inTurn, outcome_bind] at hRun
      split at hRun
      next flow m₁ hBody =>
        cases flow with
        | done => exact .cons hBody (by simp) (ih hRun)
        | branch b => exact .cons hBody (by simp) (ih hRun)
        | ret values => cases hRun
      next => cases hRun
  · intro hPasses
    induction hPasses with
    | nil => rfl
    | @cons i is m m₁ m' flow hBody hStays _ ih =>
      rw [inTurn, outcome_bind, hBody]
      cases flow with
      | done => exact ih
      | branch b => exact ih
      | ret values => exact absurd rfl (hStays values)

/- One iteration of a loop. -/
def visit (enter : RegionId → Exec Flow) (var : ValueId) (r : RegionId) (i : Int) : Exec Flow := do
  assign var (.scalar (.index i))
  enter r

section

variable {g : Graph} {enter : RegionId → Exec Flow} {x : OpId} {o : Operation} {r : RegionId}
  {lower upper : Affine.Map} {first last step : Int} {us vs : List ValueId}
  {lowers uppers : List Int} {var : ValueId}

/- A loop whose bounds have values runs its body between them. -/
theorem outcome_loop (hStep : 0 < step) (hUs : o.lowerOperands = .ok us)
    (hLowers : m.store.map? lower us = some lowers) (hFirst : lowers.max? = some first)
    (hVs : o.upperOperands = .ok vs) (hUppers : m.store.map? upper vs = some uppers)
    (hLast : uppers.min? = some last) (hVar : g.inductionVar x = .ok var)
    (hRegion : o.regions[0]? = some r) : outcome (loop g enter x o lower upper step) m =
      outcome (iterate (visit enter var r) first last step) m := by
  have hEntry : entryAt o.regions 0 = .ok r := by
    unfold entryAt
    rw [hRegion]
  unfold loop
  rw [if_neg (by omega), hUs, hVs, hVar, hEntry]
  simp only [ask, pure_bind, outcome_bind, (reads_evalMap x lower us).ok hLowers,
    (reads_evalMap x upper vs).ok hUppers, hFirst, hLast]
  rfl

/-
  A loop between words executes its body for all the values
  that are whole steps above the lower bound and below the upper
  one, in increasing order.  The lower bound is the greatest
  result of one map and the upper bound the least of the other.
  The loop comes to its end if the body neither fails nor
  returns for these values.
-/
theorem op_runs_iterationSpace (hOp : g.op x = .ok o) (hKind : o.kind = .loop lower upper step)
    (hStep : 0 < step) (hUs : o.lowerOperands = .ok us)
    (hLowers : m.store.map? lower us = some lowers) (hFirst : lowers.max? = some first)
    (hVs : o.upperOperands = .ok vs) (hUppers : m.store.map? upper vs = some uppers)
    (hLast : uppers.min? = some last) (hLow : Word.IsWord first) (hHigh : Word.IsWord last)
    (hVar : g.inductionVar x = .ok var) (hRegion : o.regions[0]? = some r) :
    ∃ count : Nat,
      (count : Int) = (if first < last then ⌈((last - first : Int) : ℚ) / step⌉ else 0) ∧
      (∀ k : Nat, k < count ↔ first + k * step < last) ∧
      (∀ k < count, Word.IsWord (first + k * step)) ∧
      outcome (op g enter x) m = outcome
        (inTurn (visit enter var r) ((range count).map fun k : Nat => first + k * step)) m ∧
      ∀ m', outcome (op g enter x) m = (.ok .done, m') ↔
        Passes (visit enter var r) ((range count).map fun k : Nat => first + k * step) m m' := by
  obtain ⟨count, hValues, hCount⟩ := Act.exists_count hStep hLow hHigh
  have hRun : outcome (op g enter x) m = outcome (inTurn (visit enter var r)
      ((range count).map fun k : Nat => first + k * step)) m := by
    rw [op_of_loop hOp hKind, outcome_loop hStep hUs hLowers hFirst hVs hUppers hLast hVar hRegion,
      ← hValues, Act.iterationsBetween, ← iterateUpTo_eq_inTurn, iterate]
  refine ⟨count, ?_, hCount, ?_, hRun, fun m' => by rw [hRun, inTurn_iff_passes]⟩
  · have hPositive : (0 : ℚ) < step := by exact_mod_cast hStep
    have hCeil : count = ⌈((last - first : Int) : ℚ) / step⌉₊ := by
      refine eq_of_forall_lt_iff fun k => ?_
      rw [hCount, Nat.lt_ceil, lt_div_iff₀ hPositive]
      norm_cast
      omega
    by_cases hBelow : first < last
    · have hDistance : (0 : ℚ) ≤ (last - first : Int) := by exact_mod_cast (by omega)
      rw [if_pos hBelow, hCeil, Int.natCast_ceil_eq_ceil (div_nonneg hDistance hPositive.le)]
    · have hNone := (hCount 0).not.mpr (by simpa using hBelow)
      rw [if_neg hBelow]
      omega
  · intro k hLess
    have hInside := (hCount k).mp hLess
    have hUp := Int.mul_nonneg (Int.natCast_nonneg k) hStep.le
    exact ⟨by have := hLow.1; omega, by have := hHigh.2; omega⟩

end

/- A loop up to the greatest word, from the greater of two bounds. -/
def lastWordsGraph : Graph where
  ops := ⟨#[some
    { kind := .loop ⟨0, 0, [.constant 0, .constant (Word.greatest - 5)]⟩
        (.ofConstant Word.greatest) 3
      regions := [⟨0⟩] }], 1⟩
  blocks := ⟨#[some { args := [⟨0⟩], parent := ⟨0⟩ }], 1⟩
  regions := ⟨#[some { blocks := [⟨0⟩], parent := some ⟨0⟩ }], 1⟩

/- Count an execution of the loop, and do nothing else. -/
def tally (_ : RegionId) : Exec Flow := do
  tick ⟨0⟩
  return .done

/- The sum behind the second value is not a word, and there are two iterations. -/
theorem lastWordsGraph_runs_iterationSpace :
    ∃ m', outcome (op lastWordsGraph tally ⟨0⟩) {} = (.ok .done, m') ∧ m'.count ⟨0⟩ = 2 ∧
      m'.env.get? ⟨0⟩ = some (.scalar (.index (Word.greatest - 2))) := by
  obtain ⟨count, _, hInside, _, _, hEnds⟩ :=
    @op_runs_iterationSpace {} lastWordsGraph tally ⟨0⟩ _ ⟨0⟩ _ _ (Word.greatest - 5) Word.greatest 3
      _ _ _ _ ⟨0⟩ rfl rfl (by decide) rfl rfl (by decide) rfl rfl (by decide) (by decide)
      (by decide) rfl rfl
  have hCount : count = 2 := by
    have hSecond := (hInside 1).mpr (by decide)
    have hThird := (hInside 2).not.mpr (by decide)
    omega
  subst hCount
  exact ⟨_, (hEnds _).mpr (.cons rfl (by simp) (.cons rfl (by simp) .nil)), rfl, rfl⟩

end Exec

end AffineIR
