import AffineIR.Proofs.Memory.Visits
import AffineIR.Proofs.Nest.Plans
import AffineIR.Proofs.Run.Gates

/-
  The guards of sunk statements.

  A guard asks that the variables of loops be at a point.  Its
  expressions may have no value with words; where the guard
  gives an answer, it holds at the point and nowhere else.  The
  point is made of the first or the last values of the loops,
  which a loop goes through whenever it has an iteration.

  Main result: `Perfection.points_of_plan`
-/

namespace AffineIR

open Answer List Option Store

variable {cs dims symbols ws xs : List Int} {c i v x y : Int} {l r : Expr} {σ : Store}
  {vs : List ValueId} {inner outers : List OpId} {innerLoop outer root : OpId}
  {levels : List NestLevel}

------
-- Equations of coordinates
------

namespace Affine

/- An expression that is zero where a dimension has a value. -/
def Expr.Pins (e : Expr) (position : Nat) (c : Int) : Prop :=
  ∀ ⦃dims symbols v⦄, e.eval? dims symbols = some v →
    ∃ x, dims[position]? = some x ∧ (v = 0 ↔ x = c)

theorem Expr.eval?_add (hEval : (Expr.add l r).eval? dims symbols = some v) :
    ∃ x y, l.eval? dims symbols = some x ∧ r.eval? dims symbols = some y ∧ v = x + y := by
  obtain ⟨x, hLeft, hRest⟩ := bind_eq_some_iff.mp hEval
  obtain ⟨y, hRight, hSum⟩ := bind_eq_some_iff.mp hRest
  exact ⟨x, y, hLeft, hRight, Word.eq_of_add? hSum⟩

theorem Expr.eval?_mul (hEval : (Expr.mul l r).eval? dims symbols = some v) :
    ∃ x y, l.eval? dims symbols = some x ∧ r.eval? dims symbols = some y ∧ v = x * y := by
  obtain ⟨x, hLeft, hRest⟩ := bind_eq_some_iff.mp hEval
  obtain ⟨y, hRight, hProduct⟩ := bind_eq_some_iff.mp hRest
  exact ⟨x, y, hLeft, hRight, Word.eq_of_mul? hProduct⟩

theorem Expr.pins_minusConstant (position : Nat)
    (c : Int) : ((Expr.dim position).minusConstant c).Pins position c := by
  intro dims symbols v hEval
  unfold minusConstant at hEval
  cases hNeg : Word.neg? c with
  | none =>
    -- the product with -1 does not fit either
    have hNone : Word.mul? c (-1) = none := by
      unfold Word.mul?
      rwa [Int.mul_neg_one]
    simp only [hNeg, minus, negate, times, hNone, constantOr, plus] at hEval
    obtain ⟨x, y, _, hProduct, _⟩ := eval?_add hEval
    simp [eval?, hNone] at hProduct
  | some n =>
    have hN : n = -c := (Word.fit?_eq_some_iff.mp hNeg).1.symm
    simp only [hNeg, plus] at hEval
    split at hEval
    · rename_i hZero
      exact ⟨v, hEval, by omega⟩
    · obtain ⟨x, y, hDim, hConstant, rfl⟩ := eval?_add hEval
      cases hConstant
      exact ⟨x, hDim, by omega⟩

theorem Expr.pins_minus (position : Nat)
    (c : Int) : ((Expr.constant c).minus (.dim position)).Pins position c := by
  intro dims symbols v hEval
  have hMinus : (Expr.constant c).minus (.dim position) =
      if c = 0 then .mul (.dim position) (.constant (-1))
      else .add (.mul (.dim position) (.constant (-1))) (.constant c) :=
    rfl
  rw [hMinus] at hEval
  have hNegated {y : Int} (hMul : (Expr.mul (.dim position) (.constant (-1))).eval? dims symbols =
        some y) : dims[position]? = some (-y) := by
    obtain ⟨x, z, hDim, hConstant, rfl⟩ := eval?_mul hMul
    cases hConstant
    rwa [Int.mul_neg_one, Int.neg_neg]
  split at hEval
  · rename_i hZero
    exact ⟨-v, hNegated hEval, by omega⟩
  · obtain ⟨y, z, hMul, hConstant, rfl⟩ := eval?_add hEval
    cases hConstant
    exact ⟨-y, hNegated hMul, by omega⟩

/- Equations of the dimensions from one on hold if these are given. -/
theorem IntegerSet.allHold?_pins {e : Int → Nat → Expr} {k : Nat} {holds : Bool}
    (hPins : ∀ c i, (e c i).Pins i c)
    (hHolds : allHold? dims symbols ((cs.zipIdx k).map fun (c, i) => ⟨e c i, true⟩) = some holds) :
    holds = true ↔ cs <+: dims.drop k := by
  induction cs generalizing k with
  | nil =>
    cases hHolds
    simp
  | cons c cs ih =>
    rw [zipIdx_cons, map_cons] at hHolds
    cases hValue : (e c k).eval? dims symbols with
    | none => simp [allHold?, hValue] at hHolds
    | some v =>
      obtain ⟨x, hDim, hIff⟩ := hPins c k hValue
      obtain ⟨hInside, rfl⟩ := List.getElem?_eq_some_iff.mp hDim
      simp only [allHold?, hValue, Constraint.admits, if_true, beq_iff_eq] at hHolds
      rw [drop_eq_getElem_cons hInside, cons_prefix_cons, @eq_comm _ c, ← hIff]
      by_cases hZero : v = 0
      · rw [if_pos hZero] at hHolds
        rw [ih hHolds, and_iff_right hZero]
      · cases (if_neg hZero).symm.trans hHolds
        simp [hZero]

end Affine

theorem Store.ints?_of_indexed (hVars : vs.map σ.env = Prog.indexed xs) : σ.ints? vs = some xs := by
  induction vs generalizing xs with
  | nil =>
    cases xs with
    | nil => rfl
    | cons x xs => cases hVars
  | cons v vs ih =>
    cases xs with
    | nil => cases hVars
    | cons x xs =>
      obtain ⟨hHead, hTail⟩ := List.cons.inj hVars
      have hHere : σ.int? v = some x := by
        unfold Store.int? Store.scalar?
        rw [hHead]
        rfl
      have hRest : vs.mapM σ.int? = some xs := ih hTail
      unfold Store.ints?
      rw [mapM_cons, hHere, hRest]
      rfl

namespace Perfection

open Prog

variable {a : Act}

/- Equations of all variables of a conditional, innermost first. -/
theorem gate_of_pins {e : Int → Nat → Affine.Expr} (hPins : ∀ c i, (e c i).Pins i c)
    (hKind : a.kind = .conditional (pointSet (cs.zipIdx.map fun (c, i) => e c i))) :
    Gate a a.operands.reverse cs.reverse := by
  intro ρ holds xs hHolds hVars
  have hInts : ρ.ints? a.operands = some xs.reverse := by
    apply Store.ints?_of_indexed
    rw [← reverse_reverse a.operands, map_reverse, hVars]
    unfold indexed
    rw [map_reverse]
  unfold Act.holds? at hHolds
  simp only [hKind, Store.set?, hInts, bind_some] at hHolds
  obtain ⟨answer, hAnswer, hSome⟩ := bind_eq_some_iff.mp hHolds
  cases hSome
  obtain ⟨n, hCount, hContains⟩ := bind_eq_ok.mp (eq_ok_of_toOption hAnswer)
  split at hContains
  · rename_i hLength
    have hAll := pure_eq_ok.mp hContains
    rw [Affine.eq_of_inputCount hCount] at hLength
    simp only [pointSet, length_map, length_zipIdx, Nat.add_zero] at hLength
    simp only [pointSet, List.map_map, Function.comp_def] at hAll
    rw [Affine.IntegerSet.allHold?_pins hPins hAll, List.drop_zero,
      length_map, length_zipIdx, ← hLength, take_length]
    constructor
    · intro hPrefix
      rw [hPrefix.eq_of_length hLength.symm, reverse_reverse]
    · rintro rfl
      rw [reverse_reverse]
  · cases pure_eq_ok.mp hContains

theorem gate_firstGuard
    (hKind : a.kind = .conditional (firstGuard cs)) : Gate a a.operands.reverse cs.reverse :=
  gate_of_pins (fun c i => Affine.Expr.pins_minusConstant i c) hKind

theorem gate_lastGuard
    (hKind : a.kind = .conditional (lastGuard cs)) : Gate a a.operands.reverse cs.reverse :=
  gate_of_pins (fun c i => Affine.Expr.pins_minus i c) hKind

end Perfection

------
-- First and last values
------

theorem Store.eq_of_map?_constant {map : Affine.Map} (hConstant : map.constant? = some c)
    (hMap : σ.map? map vs = some ws) : ws = [c] := by
  obtain ⟨inputs, _, hEval⟩ := bind_eq_some_iff.mp hMap
  obtain ⟨answer, hAnswer, hSome⟩ := bind_eq_some_iff.mp hEval
  cases hSome
  have hResults : map.results = [.constant c] := by
    unfold Affine.Map.constant? at hConstant
    split at hConstant
    · rename_i only hOnly
      rw [hOnly]
      cases only <;> cases hConstant
      rfl
    · cases hConstant
  obtain ⟨n, _, hRest⟩ := bind_eq_ok.mp (eq_ok_of_toOption hAnswer)
  split at hRest
  · have hAll := pure_eq_ok.mp hRest
    rw [hResults] at hAll
    cases hAll
    rfl
  · cases pure_eq_ok.mp hRest

namespace Act

variable {lower upper step j last : Int} {a : Act} {is : List Int}

/-
  The last value below a bound is reached from any value that
  is a word: all values in between are words too.
-/
theorem last_mem_iterations (hStep : 0 < step) (hWord : Word.IsWord last) (hBelow : last < upper)
    (hNext : upper ≤ last + step) (hWhole : step ∣ last - lower) (hFrom : Word.IsWord j)
    (hMem : j ∈ iterationsBetween lower upper step) : last ∈ iterationsBetween lower upper step := by
  obtain ⟨count, hEq, hInside, hEnd⟩ := iterationsBetween_eq hStep lower upper
  rw [hEq] at hMem ⊢
  obtain ⟨k, hIn, rfl⟩ := mem_map.mp hMem
  rw [mem_range] at hIn
  obtain ⟨d, hLast⟩ := hWhole
  have hReach : 0 ≤ d := by
    have hSome := hInside k hIn
    by_contra hPast
    nlinarith
  obtain ⟨m, rfl⟩ := Int.eq_ofNat_of_zero_le hReach
  refine mem_map.mpr ⟨m, mem_range.mpr ?_, by grind⟩
  by_contra hPast
  have hLow : (k : Int) * step ≤ count * step := by gcongr
  have hHigh : (count : Int) * step ≤ m * step := by
    gcongr
    omega
  rcases hEnd with hEnd | ⟨_, hEnd⟩
  · grind
  · exact hEnd ⟨by have := hFrom.1; omega, by have := hWord.2; grind⟩

/- A loop that has an iteration goes through its constant lower bound. -/
theorem mem_of_constantLower? (hLower : a.kind.constantLower? = some c)
    (hValues : a.values? σ = some is) (hSome : is ≠ []) : c ∈ is := by
  rcases exists_of_values? hValues with
    ⟨lower, upper, step, n, lows, ups, lowers, uppers, first, last, hKind, hStep, _,
      _, _, hLowers, _, hFirst, _, rfl⟩
  rw [hKind] at hLower
  rw [eq_of_map?_constant hLower hLowers, List.max?_singleton] at hFirst
  cases hFirst
  obtain ⟨count, hEq, _⟩ := iterationsBetween_eq hStep c last
  rw [hEq] at hSome ⊢
  refine mem_map.mpr ⟨0, mem_range.mpr (Nat.pos_of_ne_zero ?_), by simp⟩
  rintro rfl
  exact hSome rfl

/- The bounds between which a loop with a constant upper bound goes. -/
theorem exists_of_constantUpper? (hUpper : a.kind.constantUpper? = some c)
    (hValues : a.values? σ = some is) :
    ∃ first step, a.kind.step? = some step ∧ 0 < step ∧ is = iterationsBetween first c step ∧
      ∀ d, a.kind.constantLower? = some d → first = d := by
  rcases exists_of_values? hValues with
    ⟨lower, upper, step, n, lows, ups, lowers, uppers, first, last, hKind, hStep,
      _, _, _, hLowers, hUppers, hFirst, hLast, rfl⟩
  rw [hKind] at hUpper ⊢
  rw [eq_of_map?_constant hUpper hUppers, List.min?_singleton] at hLast
  cases hLast
  refine ⟨first, step, rfl, hStep, rfl, ?_⟩
  intro d hLower
  rw [eq_of_map?_constant hLower hLowers, List.max?_singleton] at hFirst
  exact (Option.some.inj hFirst).symm

end Act

namespace Perfection

variable {g : Graph} {function : String} {l : OpId}

theorem eq_of_word (hWord : Word.word x = .ok y) : y = x ∧ Word.IsWord y := by
  unfold Word.word at hWord
  split at hWord
  · rename_i hFits
    cases hWord
    exact ⟨rfl, hFits⟩
  · cases hWord

theorem kind_of_firstValue (hFirst : firstValue g function l = .ok c) :
    ∃ kind, g.kind l = .ok kind ∧ kind.constantLower? = some c := by
  obtain ⟨kind, hKind, hRest⟩ := bind_eq_ok.mp hFirst
  split at hRest
  · rename_i lower hLower
    cases pure_eq_ok.mp hRest
    exact ⟨kind, ask_eq_ok.mp hKind, hLower⟩
  · cases hRest

/- The last value is a word, whole steps from the first one. -/
structure IsLast (kind : Kind) (upper last : Int) : Prop where
  bound : kind.constantUpper? = some upper
  word : Word.IsWord last
  whole {first step : Int} (hStep : kind.step? = some step) (hPositive : 0 < step)
    (hFirst : ∀ d, kind.constantLower? = some d → first = d) :
    last < upper ∧ upper ≤ last + step ∧ step ∣ last - first

theorem isLast_of_lastValue (hLast : lastValue g function l = .ok c) :
    ∃ kind upper, g.kind l = .ok kind ∧ IsLast kind upper c := by
  obtain ⟨kind, hAsk, hRest⟩ := bind_eq_ok.mp hLast
  have hKind := ask_eq_ok.mp hAsk
  split at hRest
  · cases hRest
  rename_i upper hUpper
  refine ⟨kind, upper, hKind, ?_⟩
  by_cases hOne : kind.step?.getD 1 = 1
  · rw [if_pos hOne] at hRest
    obtain ⟨rfl, hWord⟩ := eq_of_word (ask_eq_ok.mp hRest)
    refine ⟨hUpper, hWord, ?_⟩
    intro first step hStep _ _
    rw [hStep] at hOne
    cases hOne
    exact ⟨by omega, by omega, Int.one_dvd _⟩
  · rw [if_neg hOne] at hRest
    obtain ⟨lower, hFirst, hRest⟩ := bind_eq_ok.mp hRest
    obtain ⟨kind', hKind', hLower⟩ := kind_of_firstValue hFirst
    cases hKind.symm.trans hKind'
    obtain ⟨distance, h₁, hRest⟩ := bind_eq_ok.mp (ask_eq_ok.mp hRest)
    obtain ⟨room, h₂, hRest⟩ := bind_eq_ok.mp hRest
    obtain ⟨steps, h₃, hRest⟩ := bind_eq_ok.mp hRest
    obtain ⟨reach, h₄, hRest⟩ := bind_eq_ok.mp hRest
    obtain ⟨rfl, hWord⟩ := eq_of_word hRest
    refine ⟨hUpper, hWord, ?_⟩
    intro first step hStep hPositive hSame
    have hLow := hSame lower hLower
    subst hLow
    rw [hStep, getD_some] at h₃ h₄
    unfold quotient at h₃
    rw [if_neg (by omega)] at h₃
    rw [(eq_of_word h₄).1, (eq_of_word h₃).1, (eq_of_word h₂).1, (eq_of_word h₁).1]
    have hDiv := Int.mul_ediv_add_emod (upper - first - 1) step
    have hRest := Int.emod_nonneg (upper - first - 1) (by omega : step ≠ 0)
    have hHigh := Int.emod_lt_of_pos (upper - first - 1) hPositive
    rw [Int.mul_comm step] at hDiv
    refine ⟨by omega, by omega, ?_⟩
    rw [add_sub_cancel_left]
    exact Int.dvd_mul_left ..

variable {a : Act} {is : List Int}

/- A loop that has an iteration goes through its first value. -/
theorem mem_of_firstValue (hKind : g.kind a.op = .ok a.kind)
    (hFirst : firstValue g function a.op = .ok c) (hValues : a.values? σ = some is)
    (hSome : is ≠ []) : c ∈ is := by
  obtain ⟨kind, hKind', hLower⟩ := kind_of_firstValue hFirst
  cases hKind.symm.trans hKind'
  exact Act.mem_of_constantLower? hLower hValues hSome

/- A loop that has an iteration with a word goes through its last value. -/
theorem mem_of_lastValue (hKind : g.kind a.op = .ok a.kind)
    (hLast : lastValue g function a.op = .ok c) (hValues : a.values? σ = some is) (hMem : i ∈ is)
    (hWord : Word.IsWord i) : c ∈ is := by
  obtain ⟨kind, upper, hKind', hIsLast⟩ := isLast_of_lastValue hLast
  cases hKind.symm.trans hKind'
  rcases Act.exists_of_constantUpper? hIsLast.bound hValues with
    ⟨first, step, hStep, hPositive, rfl, hFirst⟩
  obtain ⟨hBelow, hNext, hWhole⟩ := hIsLast.whole hStep hPositive hFirst
  exact Act.last_mem_iterations hPositive hIsLast.word hBelow hNext hWhole hWord hMem

variable {level : NestLevel}

/- The points of a level are the first and last values of its loops. -/
structure Points (g : Graph) (function : String) (level : NestLevel) : Prop where
  first (hSome : level.front ≠ []) :
    List.Forall₂ (firstValue g function · = .ok ·) level.inner level.first
  last (hSome : level.back ≠ []) :
    List.Forall₂ (lastValue g function · = .ok ·) level.inner level.last

theorem points_of_levelOf (hLevel : levelOf g function inner innerLoop outer = .ok (some level)) :
    Points g function level := by
  obtain ⟨_, _, hLevel⟩ := bind_eq_ok.mp hLevel
  obtain ⟨_, _, hLevel⟩ := bind_eq_ok.mp hLevel
  obtain ⟨front, _, hLevel⟩ := bind_eq_ok.mp hLevel
  obtain ⟨_, _, hLevel⟩ := bind_eq_ok.mp hLevel
  obtain ⟨back, _, hLevel⟩ := bind_eq_ok.mp hLevel
  split at hLevel
  · cases pure_eq_ok.mp hLevel
  · obtain ⟨values, hValues, hLevel⟩ := bind_eq_ok.mp hLevel
    cases pure_eq_ok.mp hLevel
    obtain ⟨hFirst, hLast⟩ := forall_of_valuesOf hValues
    exact ⟨fun hSome => hFirst (by simpa using hSome), fun hSome => hLast (by simpa using hSome)⟩

theorem points_of_levelsOf (hLevels : levelsOf g function inner innerLoop outers = .ok levels)
    (hMem : level ∈ levels) : Points g function level := by
  induction outers generalizing inner innerLoop levels with
  | nil =>
    cases hLevels
    cases hMem
  | cons outer outers ih =>
    obtain ⟨found, hLevel, hLevels⟩ := bind_eq_ok.mp hLevels
    obtain ⟨others, hOthers, hPure⟩ := bind_eq_ok.mp hLevels
    cases pure_eq_ok.mp hPure
    rcases mem_append.mp hMem with hHere | hLater
    · cases mem_toList.mp hHere
      exact points_of_levelOf hLevel
    · exact ih hOthers hLater

theorem points_of_plan (hPlan : plan g function root = .ok levels)
    (hMem : level ∈ levels) : Points g function level := by
  obtain ⟨ops, _, hPlan⟩ := bind_eq_ok.mp hPlan
  obtain ⟨chain, _, hPlan⟩ := bind_eq_ok.mp hPlan
  split at hPlan
  · cases hPlan
  · cases pure_eq_ok.mp hPlan
    cases hMem
  · obtain ⟨found, hLevels, hPlan⟩ := bind_eq_ok.mp hPlan
    obtain ⟨_, _, hPure⟩ := bind_eq_ok.mp hPlan
    cases pure_eq_ok.mp hPure
    exact points_of_levelsOf hLevels hMem

end Perfection

end AffineIR
