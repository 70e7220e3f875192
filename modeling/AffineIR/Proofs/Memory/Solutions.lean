import AffineIR.Memory.Dependence
import AffineIR.Proofs.Memory.Composition

/-
  Systems that are built around a solution.

  Every variable of a system under construction stands for a
  value on one side or for a count of steps.  If all constraints
  are asked of forms that are zero, or not negative, for the
  numbers that the variables stand for, these numbers solve the
  system in the end.  A variable added later changes neither
  the forms nor the rows before it.

  Main declarations:
    * `Graph.ensures_varOf`, `Graph.ensures_formOf`
-/

namespace AffineIR

open Answer List

variable {i : Nat} {n : Int} {f : VarForm}

namespace Row

variable {x y : Nat → Int}

theorem sumFrom_append (cs ds : List Int) (i : Nat) :
    sumFrom x i (cs ++ ds) = sumFrom x i cs + sumFrom x (i + cs.length) ds := by
  induction cs generalizing i with
  | nil => simp [sumFrom]
  | cons c cs ih =>
    rw [cons_append, sumFrom, sumFrom, ih, length_cons,
      Nat.add_right_comm, Nat.add_assoc i]
    ring

theorem sumFrom_congr {cs : List Int}
    (hSame : ∀ j < cs.length, y (i + j) = x (i + j)) : sumFrom y i cs = sumFrom x i cs := by
  induction cs generalizing i with
  | nil => rfl
  | cons c cs ih =>
    have hHead : y i = x i := hSame 0 (Nat.zero_lt_succ _)
    have hTail : sumFrom y (i + 1) cs = sumFrom x (i + 1) cs := by
      apply ih
      intro j hInside
      have hNext := hSame (j + 1) (Nat.succ_lt_succ hInside)
      rwa [← Nat.add_assoc, Nat.add_right_comm] at hNext
    rw [sumFrom, sumFrom, hHead, hTail]

/- A variable behind the last one has the coefficient zero. -/
theorem eval_widen {r : Row}
    (hSame : ∀ i < r.width, y i = x i) : (ConstraintSystem.widen r).eval y = r.eval x := by
  have hSum : sumFrom y 0 r.coeffs = sumFrom x 0 r.coeffs :=
    sumFrom_congr fun j hInside => by simpa using hSame j hInside
  simp only [eval, ConstraintSystem.widen]
  rw [sumFrom_append, hSum, sumFrom, sumFrom, zero_mul, zero_add, add_zero]

theorem sumFrom_map_range (c : Nat → Int) (n : Nat) :
    sumFrom x 0 ((List.range n).map c) = ∑ i ∈ Finset.range n, c i * x i := by
  induction n with
  | zero => rfl
  | succ n ih =>
    rw [range_succ, map_append, sumFrom_append, ih, Finset.sum_range_succ]
    simp [sumFrom]

end Row

/- Coefficients of ordered terms, summed over all variables. -/
theorem Terms.sum_range_coeff {ts : List (Handle "x" × Int)} {n : Nat} (x : Nat → Int)
    (hOrder : Terms.Ascending ts) (hInside : ∀ t ∈ ts, t.1.index < n) :
    ∑ i ∈ Finset.range n, Terms.coeff ⟨i⟩ ts * x i = Terms.sum (fun h => x h.index) ts := by
  induction ts with
  | nil => simp [Terms.coeff]
  | cons t ts ih =>
    obtain ⟨hHead, hRest⟩ := pairwise_cons.mp hOrder
    have hNone : Terms.coeff t.1 ts = 0 :=
      Terms.coeff_eq_zero fun u hMem => (Handle.ne_of_lt (hHead u hMem)).symm
    have hSplit : ∀ i ∈ Finset.range n, Terms.coeff ⟨i⟩ (t :: ts) * x i =
          (if t.1.index = i then t.2 * x i else 0) + Terms.coeff ⟨i⟩ ts * x i := by
      intro i _
      rw [Terms.coeff]
      by_cases hSame : t.1.index = i
      · subst hSame
        rw [if_pos rfl, if_pos rfl, hNone, zero_mul, add_zero]
      · rw [if_neg hSame, if_neg (fun hEq => hSame (by rw [hEq])), zero_add]
    rw [Finset.sum_congr rfl hSplit, Finset.sum_add_distrib,
      Finset.sum_ite_eq, ih hRest fun u hMem => hInside u (mem_cons_of_mem _ hMem),
      if_pos (Finset.mem_range.mpr (hInside t mem_cons_self)),
      Terms.sum_cons]

------
-- What variables stand for
------

/- What a variable of a system stands for. -/
inductive Quantity where
  | value (side : Side) (v : ValueId)
  | count (n : Int)

/- The number of a quantity, given the numbers of the values. -/
def Quantity.number (val : Side → ValueId → Int) : Quantity → Int
  | value side v => val side v
  | count n => n

/- The numbers of the variables. -/
def numbers (val : Side → ValueId → Int) (qs : List Quantity) (i : Nat) : Int :=
  (qs.map (·.number val)).getD i 0

variable {val : Side → ValueId → Int} {qs ps : List Quantity}

theorem numbers_eq {q : Quantity} (hAt : qs[i]? = some q) : numbers val qs i = q.number val := by
  simp [numbers, getD_eq_getElem?_getD, hAt]

theorem lt_length_of_getElem? {q : Quantity} (hAt : qs[i]? = some q) : i < qs.length :=
  (List.getElem?_eq_some_iff.mp hAt).1

theorem numbers_of_prefix (hPrefix : qs <+: ps)
    (hInside : i < qs.length) : numbers val ps i = numbers val qs i := by
  obtain ⟨more, rfl⟩ := hPrefix
  have hThere : (qs.map (·.number val))[i]? = some ((qs[i]).number val) := by simp [hInside]
  simp only [numbers, map_append, getD_eq_getElem?_getD]
  rw [List.getElem?_append_left (by simpa using hInside), hThere]

theorem getElem?_of_prefix {q : Quantity} (hPrefix : qs <+: ps)
    (hAt : qs[i]? = some q) : ps[i]? = some q := by
  obtain ⟨more, rfl⟩ := hPrefix
  rwa [List.getElem?_append_left (lt_length_of_getElem? hAt)]

/- A form over the variables so far that has a value. -/
abbrev VarForm.Means (f : VarForm) (val : Side → ValueId → Int) (qs : List Quantity)
    (n : Int) : Prop :=
  LinearForm.Means f (fun h => h.index < qs.length) (fun h => numbers val qs h.index) n

theorem VarForm.Means.mono (hMeans : f.Means val qs n) (hPrefix : qs <+: ps) : f.Means val ps n :=
  LinearForm.Means.congr hMeans (fun _ hInside => Nat.lt_of_lt_of_le hInside hPrefix.length_le)
    (fun _ hInside => numbers_of_prefix hPrefix hInside)

theorem VarForm.means_leaf {q : Quantity}
    (hAt : qs[i]? = some q) : VarForm.Means (.leaf ⟨i⟩) val qs (q.number val) := by
  rw [← numbers_eq hAt]
  exact LinearForm.means_leaf (lt_length_of_getElem? hAt)

namespace BuildSystem

variable {α β : Type} {b b' : SystemBuilder}

/- The quantities solve the system built so far. -/
structure Solves (val : Side → ValueId → Int) (b : SystemBuilder) (qs : List Quantity) : Prop where
  size : b.system.numVars = qs.length
  equalities : ∀ r ∈ b.system.equalities, r.width = qs.length ∧ r.eval (numbers val qs) = 0
  inequalities : ∀ r ∈ b.system.inequalities, r.width = qs.length ∧ 0 ≤ r.eval (numbers val qs)
  vars : ∀ entry ∈ b.vars, qs[entry.2]? = some (.value entry.1.1 entry.1.2)

/- The numbers of the quantities are a solution. -/
theorem Solves.holds (hSolves : Solves val b qs) : b.system.Holds (numbers val qs) :=
  ⟨fun r hMem => (hSolves.equalities r hMem).2, fun r hMem => (hSolves.inequalities r hMem).2⟩

theorem solves_empty (val : Side → ValueId → Int) : Solves val {} [] where
  size := rfl
  equalities := nofun
  inequalities := nofun
  vars := nofun

theorem Solves.addVar (hSolves : Solves val b qs)
    (q : Quantity) : Solves val { b with system := b.system.addVar } (qs ++ [q]) := by
  have hPrefix : qs <+: qs ++ [q] := prefix_append _ _
  have hWiden : ∀ r : Row, r.width = qs.length →
      (ConstraintSystem.widen r).width = (qs ++ [q]).length ∧
        (ConstraintSystem.widen r).eval (numbers val (qs ++ [q])) = r.eval (numbers val qs) := by
    intro r hWidth
    refine ⟨?_, Row.eval_widen fun i hInside => numbers_of_prefix hPrefix (hWidth ▸ hInside)⟩
    simp only [Row.width, ConstraintSystem.widen, length_append, length_singleton]
    exact congrArg (· + 1) hWidth
  refine ⟨?_, ?_, ?_, ?_⟩
  · simp [ConstraintSystem.addVar, hSolves.size]
  · intro r hMem
    obtain ⟨s, hIn, rfl⟩ := mem_map.mp hMem
    obtain ⟨hWidth, hZero⟩ := hSolves.equalities s hIn
    exact ⟨(hWiden s hWidth).1, (hWiden s hWidth).2.trans hZero⟩
  · intro r hMem
    obtain ⟨s, hIn, rfl⟩ := mem_map.mp hMem
    obtain ⟨hWidth, hNonneg⟩ := hSolves.inequalities s hIn
    exact ⟨(hWiden s hWidth).1, (hWiden s hWidth).2.symm ▸ hNonneg⟩
  · intro entry hMem
    exact getElem?_of_prefix hPrefix (hSolves.vars entry hMem)

/- The row of a form has the value of the form. -/
theorem eval_of_rowOf {s : ConstraintSystem} {row : Row} (hSize : s.numVars = qs.length)
    (hMeans : f.Means val qs n) (hRow : s.rowOf (f.entries s.numVars) = .ok row) :
    row.width = qs.length ∧ row.eval (numbers val qs) = n := by
  have hEntries : Row.ofEntries? (f.entries s.numVars) =
      some ⟨(List.range s.numVars).map fun i => f.coeff ⟨i⟩, f.constant⟩ := by
    unfold VarForm.entries
    rcases hList : (List.range s.numVars).map (fun i => f.coeff ⟨i⟩) ++
      [f.constant] with _ | ⟨c, rest⟩
    · simp at hList
    · rw [Row.ofEntries?, ← hList]
      simp
  unfold ConstraintSystem.rowOf at hRow
  rw [hEntries] at hRow
  dsimp only at hRow
  split at hRow
  · rename_i hWidth
    cases hRow
    refine ⟨hWidth.trans hSize, ?_⟩
    rw [← hMeans.value, LinearForm.eval_eq, Row.eval, Row.sumFrom_map_range]
    congr 1
    apply Terms.sum_range_coeff _ hMeans.order
    intro t hMem
    rw [hSize]
    exact hMeans.within t hMem
  · cases hRow

------
-- Steps
------

/-
  Whenever a step succeeds, the quantities can be continued to
  a solution of the new system.
-/
def Ensures (val : Side → ValueId → Int) (qs : List Quantity) (step : BuildSystem α)
    (post : α → List Quantity → Prop) : Prop :=
  ∀ ⦃b a b'⦄, Solves val b qs → step.run b = .ok (a, b') →
    ∃ ps, qs <+: ps ∧ Solves val b' ps ∧ post a ps

variable {step : BuildSystem α} {next : α → BuildSystem β} {P : α → List Quantity → Prop}
  {Q : β → List Quantity → Prop}

theorem ensures_pure {a : α} (hPost : P a qs) : Ensures val qs (pure a) P := by
  intro b a' b' hSolves hRun
  obtain ⟨rfl, rfl⟩ := run_pure_eq_ok.mp hRun
  exact ⟨qs, prefix_rfl, hSolves, hPost⟩

theorem Ensures.bind (hStep : Ensures val qs step P)
    (hNext : ∀ a ps, qs <+: ps → P a ps → Ensures val ps (next a) Q) :
    Ensures val qs (step >>= next) Q := by
  intro b a' b' hSolves hRun
  obtain ⟨a, c, hFirst, hSecond⟩ := run_bind_eq_ok.mp hRun
  obtain ⟨ps, hPrefix, hMiddle, hPost⟩ := hStep hSolves hFirst
  obtain ⟨rs, hMore, hEnd, hFinal⟩ := hNext a ps hPrefix hPost hMiddle hSecond
  exact ⟨rs, hPrefix.trans hMore, hEnd, hFinal⟩

theorem Ensures.mono {weaker : α → List Quantity → Prop} (hStep : Ensures val qs step P)
    (hWeaker : ∀ a ps, P a ps → weaker a ps) : Ensures val qs step weaker := by
  intro b a b' hSolves hRun
  obtain ⟨ps, hPrefix, hEnd, hPost⟩ := hStep hSolves hRun
  exact ⟨ps, hPrefix, hEnd, hWeaker a ps hPost⟩

theorem run_ask_eq_ok {answer : Except Fault α}
    {a : α} : (ask answer).run b = .ok (a, b') ↔ answer = .ok a ∧ b = b' := by
  rcases answer with f | a'
  · exact ⟨nofun, nofun⟩
  · exact run_pure_eq_ok.trans (by rw [Except.ok.injEq])

theorem ensures_ask {answer : Except Fault α} :
    Ensures val qs (ask answer) fun a _ => answer = .ok a := by
  intro b a b' hSolves hRun
  obtain ⟨hAnswer, rfl⟩ := run_ask_eq_ok.mp hRun
  exact ⟨qs, prefix_rfl, hSolves, hAnswer⟩

theorem ensures_need {form : Option α} : Ensures val qs (need form) fun f _ => form = some f := by
  rcases form with _ | f
  · intro b a b' hSolves hRun
    cases hRun
  · exact ensures_pure rfl

/- A form that exists and has a value whenever it does. -/
theorem ensures_needForm {form : Option VarForm} (hMeans : ∀ f, form = some f → f.Means val qs n) :
    Ensures val qs (need form) fun f ps => f.Means val ps n := by
  rcases form with _ | f
  · intro b a b' hSolves hRun
    cases hRun
  · exact ensures_pure (hMeans f rfl)

/- The steps over a list, one after the other. -/
theorem ensures_forM {xs : List β} {f : β → BuildSystem PUnit}
    (hEach : ∀ x ∈ xs, ∀ ps, qs <+: ps → Ensures val ps (f x) fun _ _ => True) :
    Ensures val qs (xs.forM f) fun _ _ => True := by
  induction xs generalizing qs with
  | nil => exact ensures_pure trivial
  | cons x xs ih =>
    refine (hEach x mem_cons_self qs prefix_rfl).bind ?_
    intro _ ps hPrefix _
    apply ih
    intro y hMem rs hMore
    exact hEach y (mem_cons_of_mem _ hMem) rs (hPrefix.trans hMore)

/- A new variable can stand for anything. -/
theorem ensures_newVar (q : Quantity) :
    Ensures val qs newVar fun f ps =>
      f = .leaf ⟨qs.length⟩ ∧ ps = qs ++ [q] := by
  intro b a b' hSolves hRun
  cases hRun
  refine ⟨qs ++ [q], prefix_append _ _, hSolves.addVar q, ?_, rfl⟩
  rw [hSolves.size]

theorem ensures_addEquality
    (hMeans : f.Means val qs 0) : Ensures val qs (addEquality f) fun _ _ => True := by
  intro b a b' hSolves hRun
  obtain ⟨_, _, hGet, hRun⟩ := run_bind_eq_ok.mp hRun
  cases hGet
  obtain ⟨system, _, hAsk, hRun⟩ := run_bind_eq_ok.mp hRun
  cases hRun
  obtain ⟨hAdd, rfl⟩ := run_ask_eq_ok.mp hAsk
  obtain ⟨row, hRow, hSystem⟩ := bind_eq_ok.mp hAdd
  cases hSystem
  have hEval := eval_of_rowOf hSolves.size hMeans hRow
  refine ⟨qs, prefix_rfl, ⟨hSolves.size, ?_, hSolves.inequalities, hSolves.vars⟩, trivial⟩
  intro r hMem
  rcases mem_append.mp hMem with hOld | hNew
  · exact hSolves.equalities r hOld
  · rwa [mem_singleton.mp hNew]

theorem ensures_addInequality (hMeans : f.Means val qs n)
    (hNonneg : 0 ≤ n) : Ensures val qs (addInequality f) fun _ _ => True := by
  intro b a b' hSolves hRun
  obtain ⟨_, _, hGet, hRun⟩ := run_bind_eq_ok.mp hRun
  cases hGet
  obtain ⟨system, _, hAsk, hRun⟩ := run_bind_eq_ok.mp hRun
  cases hRun
  obtain ⟨hAdd, rfl⟩ := run_ask_eq_ok.mp hAsk
  obtain ⟨row, hRow, hSystem⟩ := bind_eq_ok.mp hAdd
  cases hSystem
  have hEval := eval_of_rowOf hSolves.size hMeans hRow
  refine ⟨qs, prefix_rfl, ⟨hSolves.size, hSolves.equalities, ?_, hSolves.vars⟩, trivial⟩
  intro r hMem
  rcases mem_append.mp hMem with hOld | hNew
  · exact hSolves.inequalities r hOld
  · rw [mem_singleton.mp hNew]
    exact ⟨hEval.1, hEval.2 ▸ hNonneg⟩

end BuildSystem

------
-- Variables of values
------

namespace Graph

open BuildSystem

variable {g : Graph} {nests : NestPair} {side : Side} {e : Assignment}

/- The variable of a value stands for it on the side it belongs to. -/
theorem ensures_varOf (v : ValueId) :
    Ensures val qs (g.varOf nests side v) fun f ps => ∃ i side',
      g.sideOf nests side v = .ok side' ∧ f = .leaf ⟨i⟩ ∧ ps[i]? = some (.value side' v) := by
  unfold varOf
  refine ensures_ask.bind ?_
  intro side' ps hPrefix hSide b a b' hSolves hRun
  obtain ⟨_, _, hGet, hRun⟩ := run_bind_eq_ok.mp hRun
  cases hGet
  split at hRun
  · rename_i i hLookup
    cases hRun
    obtain ⟨before, after, hVars, _⟩ := lookup_eq_some_iff.mp hLookup
    have hMem : ((side', v), i) ∈ b.vars := hVars ▸ by simp
    exact ⟨ps, prefix_rfl, hSolves, i, side', hSide, rfl, hSolves.vars _ hMem⟩
  · cases hRun
    have hAdded := hSolves.addVar (.value side' v)
    have hNew : (ps ++ [Quantity.value side' v])[b.system.numVars]? = some (.value side' v) := by
      simp [hSolves.size]
    refine ⟨ps ++ [.value side' v], prefix_append _ _,
      ⟨hAdded.size, hAdded.equalities, hAdded.inequalities, ?_⟩,
      b.system.numVars, side', hSide, rfl, hNew⟩
    intro entry hMem
    rcases mem_cons.mp hMem with rfl | hOld
    · exact hNew
    · exact hAdded.vars entry hOld

/- The values of an assignment have their numbers on their side. -/
def Speaks (g : Graph) (nests : NestPair) (side : Side) (e : Assignment)
    (val : Side → ValueId → Int) : Prop :=
  ∀ ⦃v n side'⦄, e v = some n → g.sideOf nests side v = .ok side' → val side' v = n

/- The variable of a value has its number, if it is assigned. -/
theorem Speaks.ensures_varOf (hSpeaks : g.Speaks nests side e val) (v : ValueId) :
    Ensures val qs (g.varOf nests side v) fun f ps => ∀ n, e v = some n → f.Means val ps n := by
  refine (Graph.ensures_varOf v).mono ?_
  rintro f ps ⟨i, side', hSide, rfl, hAt⟩ n hValue
  have hMeans : VarForm.Means (.leaf ⟨i⟩) val ps _ := VarForm.means_leaf hAt
  rwa [Quantity.number, hSpeaks hValue hSide] at hMeans

/- A term over a value and the same multiple of its variable. -/
def Translates (g : Graph) (nests : NestPair) (side : Side) (qs : List Quantity) (t : ValueId × Int)
    (u : Handle "x" × Int) : Prop :=
  u.2 = t.2 ∧ ∃ side', g.sideOf nests side t.1 = .ok side' ∧
    qs[u.1.index]? = some (.value side' t.1)

theorem ensures_termsOf (ts : List (ValueId × Int)) :
    Ensures val qs (g.termsOf nests side ts) fun us ps =>
      List.Forall₂ (g.Translates nests side ps) ts us := by
  induction ts generalizing qs with
  | nil => exact ensures_pure List.Forall₂.nil
  | cons t ts ih =>
    rw [termsOf]
    refine (Graph.ensures_varOf t.1).bind ?_
    intro var ps _ hVar
    refine ih.bind ?_
    intro others rs hMore hOthers
    apply ensures_pure
    obtain ⟨i, side', hSide, rfl, hAt⟩ := hVar
    exact .cons ⟨rfl, side', hSide, getElem?_of_prefix hMore hAt⟩ hOthers

section Terms

variable {ts : List (ValueId × Int)} {us : List (Handle "x" × Int)}

/- Variables of different values differ. -/
theorem apart_of_translates (hTerms : List.Forall₂ (g.Translates nests side qs) ts us)
    (hOrder : Terms.Ascending ts) : us.Pairwise fun t u => t.1 ≠ u.1 := by
  induction hTerms with
  | nil => exact .nil
  | @cons t u ts us hHead hTail ih =>
    obtain ⟨hBelow, hRest⟩ := pairwise_cons.mp hOrder
    refine pairwise_cons.mpr ⟨?_, ih hRest⟩
    intro u' hMem hSame
    obtain ⟨hLength, hAll⟩ := forall₂_iff_get.mp hTail
    obtain ⟨k, hGet⟩ := get_of_mem hMem
    have hOther := hAll k (by rw [hLength]; exact k.2) k.2
    rw [hGet] at hOther
    obtain ⟨_, side', _, hAt⟩ := hHead
    obtain ⟨_, side'', _, hAt'⟩ := hOther
    rw [← hSame, hAt, Option.some.injEq, Quantity.value.injEq] at hAt'
    exact Handle.ne_of_lt (hBelow _ (get_mem _ _)) hAt'.2

theorem sum_of_translates (hSpeaks : g.Speaks nests side e val)
    (hAssigned : ∀ t ∈ ts, (e t.1).isSome)
    (hTerms : List.Forall₂ (g.Translates nests side qs) ts us) :
    Terms.sum (fun h => numbers val qs h.index) us = Terms.sum (fun v => (e v).getD 0) ts := by
  induction hTerms with
  | nil => rfl
  | @cons t u ts us hHead _ ih =>
    obtain ⟨hCoeff, side', hSide, hAt⟩ := hHead
    obtain ⟨n, hValue⟩ := Option.isSome_iff_exists.mp (hAssigned t mem_cons_self)
    rw [Terms.sum_cons, Terms.sum_cons, hCoeff, numbers_eq hAt,
      Quantity.number, hSpeaks hValue hSide, hValue,
      ih fun t' hMem => hAssigned t' (mem_cons_of_mem _ hMem)]
    rfl

theorem inside_of_translates (hTerms : List.Forall₂ (g.Translates nests side qs) ts us) :
    ∀ u ∈ us, u.1.index < qs.length := by
  induction hTerms with
  | nil => nofun
  | @cons t u ts us hHead _ ih =>
    intro u' hMem
    rcases mem_cons.mp hMem with rfl | hRest
    · obtain ⟨_, side', _, hAt⟩ := hHead
      exact lt_length_of_getElem? hAt
    · exact ih u' hRest

end Terms

/- A form over assigned values has the same value over variables. -/
theorem Speaks.ensures_formOf {form : ValueForm} (hSpeaks : g.Speaks nests side e val)
    (hMeans : form.Means e n) :
    Ensures val qs (g.formOf nests side form) fun f ps => f.Means val ps n := by
  unfold formOf
  refine (ensures_termsOf form.terms).bind ?_
  intro us ps _ hTerms
  apply ensures_pure
  rw [← hMeans.value, LinearForm.eval_eq, ← sum_of_translates hSpeaks hMeans.within hTerms]
  exact LinearForm.means_ofTerms form.constant
    (apart_of_translates hTerms hMeans.order) (inside_of_translates hTerms)

end Graph

end AffineIR
