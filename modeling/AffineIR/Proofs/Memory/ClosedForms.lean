import AffineIR.Proofs.Affine.Evaluation
import AffineIR.Proofs.Graph.Sight
import AffineIR.Proofs.Memory.Composition

/-
  Closed forms of all values, under numbers for all values.

  If no operation uses, through others, its own results, every
  value has a closed form.  Numbers that agree with the integer
  constants and the applied maps are the values of the closed
  forms, so that two accesses with equal forms have the same
  indices wherever both of them have indices.

  Main result: `Graph.closedForms_exact`
-/

namespace AffineIR

open Answer List Arena

variable {val : Value} {formOf : ValueId → Except Fault ValueForm} {depth : Nat}

namespace Graph

variable {g : Graph} {ρ : ValueId → Int} {v : ValueId} {part : OpId → Prop}

------
-- Chains of definitions
------

/- An operation has a result of another one as an operand. -/
def Feeds (g : Graph) (d u : OpId) : Prop :=
  ∃ o v, g.op u = .ok o ∧ v ∈ o.operands ∧ g.definingOp? v = .ok (some d)

def Acyclic (g : Graph) : Prop := ∀ x, ¬Relation.TransGen g.Feeds x x

/- The inputs of the applied maps that are expanded can be counted. -/
def Counted (g : Graph) : Prop := ∀ x o map expr, g.op x = .ok o → o.kind = .apply map →
    map.results = [expr] → ∃ n, map.numInputs = .ok n

/- The operations of a part of a graph can be expanded, and only lead to others of it. -/
structure Descends (g : Graph) (part : OpId → Prop) : Prop where
  closed {d u : OpId} (hPart : part u) (hFeeds : g.Feeds d u) : part d
  acyclic (x : OpId) : ¬Relation.TransGen (fun d u => part u ∧ g.Feeds d u) x x
  counted {x : OpId} {o : Operation} {map : Affine.Map} {expr : Affine.Expr} (hPart : part x)
    (hOp : g.op x = .ok o) (hKind : o.kind = .apply map) (hResults : map.results = [expr]) :
    ∃ n, map.numInputs = .ok n

theorem exists_addOperands {acc : ValueForm} {pairs : List (Int × ValueId)}
    (hForms : ∀ p ∈ pairs, ∃ f, formOf p.2 = .ok f) :
    ∃ composed, addOperands formOf acc pairs = .ok composed := by
  induction pairs generalizing acc with
  | nil => exact ⟨_, rfl⟩
  | cons p rest ih =>
    obtain ⟨c, v⟩ := p
    obtain ⟨f, hForm⟩ := hForms _ mem_cons_self
    have hRest := fun q hMem => hForms q (mem_cons_of_mem _ hMem)
    rw [addOperands]
    split
    · exact ih hRest
    · rw [hForm, ok_bind]
      split
      · exact ⟨_, rfl⟩
      · split
        · exact ⟨_, rfl⟩
        · exact ih hRest

theorem exists_composeRow {operands : List ValueId} (hForms : ∀ u ∈ operands, ∃ f, formOf u = .ok f)
    (row : AffineIR.Row) : ∃ composed, composeRow formOf row operands = .ok composed := by
  unfold composeRow
  split
  · exact exists_addOperands fun p hMem => hForms p.2 (of_mem_zip hMem).2
  · exact ⟨_, rfl⟩

/- One more definition can be expanded if those of its operands can. -/
theorem exists_linearizeUpTo_succ (hIntact : g.Intact) (hDescends : g.Descends part)
    (hValue : g.value v = .ok val) (hPart : ∀ d, g.definingOp? v = .ok (some d) → part d)
    (hOperands : ∀ x o, g.definingOp? v = .ok (some x) → g.op x = .ok o →
      ∀ u ∈ o.operands, ∃ form, g.linearizeUpTo depth u = .ok form) :
    ∃ form, g.linearizeUpTo (depth + 1) v = .ok form := by
  have hDefiner := hIntact.definer hValue
  rw [linearizeUpTo]
  cases hPlace : val.definer with
  | argument b i =>
    rw [definingOp?_of_argument hValue hPlace]
    exact ⟨_, rfl⟩
  | result x i =>
    rw [hPlace] at hDefiner
    obtain ⟨o, hOp, _⟩ := hDefiner
    have hSome := definingOp?_of_result hValue hPlace
    rw [hSome, ok_bind]
    dsimp only
    rw [hOp, ok_bind]
    split
    · split
      · exact ⟨_, rfl⟩
      · have hTy : g.valueTy v = .ok val.ty := bind_eq_ok.mpr ⟨val, hValue, rfl⟩
        rw [hTy, ok_bind]
        split <;> exact ⟨_, rfl⟩
    · rename_i numDims numSymbols expr hKind
      obtain ⟨n, hCount⟩ := hDescends.counted (hPart x hSome) hOp hKind rfl
      rw [Affine.Expr.flatten_of_count hCount, ok_bind]
      split
      · exact ⟨_, rfl⟩
      · rename_i row _
        obtain ⟨composed, hComposed⟩ := exists_composeRow (hOperands x o hSome hOp) row
        rw [hComposed]
        exact ⟨_, rfl⟩
    · exact ⟨_, rfl⟩

/-
  What was expanded on the way to a value is used, through
  others, by its definition. So no operation comes twice, and
  the depth is not used up.
-/
theorem exists_linearizeUpTo {path : List OpId} (hIntact : g.Intact)
    (hDescends : g.Descends part) (hValue : g.value v = .ok val)
    (hPart : ∀ d, g.definingOp? v = .ok (some d) → part d)
    (hNodup : path.Nodup) (hLive : ∀ y ∈ path, ∃ o, g.op y = .ok o)
    (hFed : ∀ d, g.definingOp? v = .ok (some d) → ∀ y ∈ path,
      Relation.TransGen (fun d u => part u ∧ g.Feeds d u) d y)
    (hRoom : g.ops.slots.size < path.length + depth) :
    ∃ form, g.linearizeUpTo depth v = .ok form := by
  induction depth generalizing v val path with
  | zero => exact absurd hRoom (Nat.not_lt.mpr (length_le_of_nodup hNodup hLive))
  | succ depth ih =>
    refine exists_linearizeUpTo_succ hIntact hDescends hValue hPart ?_
    intro x o hSome hOp u hMem
    obtain ⟨j, hAt⟩ := mem_iff_getElem?.mp hMem
    obtain ⟨used, hUsed, _⟩ := hIntact.operand hOp hAt
    have hNew : x ∉ path := fun hIn => hDescends.acyclic x (hFed x hSome x hIn)
    have hHere := hPart x hSome
    refine ih hUsed (fun d hDefines => hDescends.closed hHere ⟨o, u, hOp, hMem, hDefines⟩)
      (nodup_cons.mpr ⟨hNew, hNodup⟩) ?_ ?_ ?_
    · exact forall_mem_cons.mpr ⟨⟨o, hOp⟩, hLive⟩
    · intro d hDefines
      have hFeeds : g.Feeds d x := ⟨o, u, hOp, hMem, hDefines⟩
      exact forall_mem_cons.mpr ⟨.single ⟨hHere, hFeeds⟩,
        fun y hIn => .head ⟨hHere, hFeeds⟩ (hFed x hSome y hIn)⟩
    · rw [length_cons]
      omega

theorem exists_linearize_of_descends (hIntact : g.Intact) (hDescends : g.Descends part)
    (hValue : g.value v = .ok val) (hPart : ∀ d, g.definingOp? v = .ok (some d) → part d) :
    ∃ form, g.linearize v = .ok form :=
  exists_linearizeUpTo hIntact hDescends hValue hPart nodup_nil nofun
    (fun _ _ => nofun) (by rw [depthBound]; simp)

/- Every value has a closed form. -/
theorem exists_linearize (hIntact : g.Intact) (hAcyclic : g.Acyclic) (hCounted : g.Counted)
    (hValue : g.value v = .ok val) : ∃ form, g.linearize v = .ok form := by
  have hDescends : g.Descends fun _ => True :=
    ⟨fun _ _ => trivial,
      fun x hLoop => hAcyclic x (Relation.TransGen.mono (fun _ _ => And.right) _ _ hLoop),
      fun _ hOp hKind hResults => hCounted _ _ _ _ hOp hKind hResults⟩
  exact exists_linearize_of_descends hIntact hDescends hValue fun _ _ => trivial

------
-- Numbers for all values
------

/- The number that an integer constant or an applied map gives a value. -/
def given? (g : Graph) (ρ : ValueId → Int) (v : ValueId) : Option Int := do
  let h ← ← (g.definingOp? v).toOption
  let o ← (g.op h).toOption
  match o.kind with
  | .constant literal => if (← (g.valueTy v).toOption).isInteger then literal.toInt? else none
  | .apply map =>
    match map.values? (o.operands.map ρ) with
    | some [n] => some n
    | _ => none
  | _ => none

/- Values have the numbers that their definitions give them. -/
def Agrees (g : Graph) (ρ : ValueId → Int) : Prop := ∀ v n, g.given? ρ v = some n → ρ v = n

/- The indices of an access, if its map can be evaluated. -/
def indicesAt? (g : Graph) (ρ : ValueId → Int) (x : OpId) : Option (List Int) := do
  let o ← (g.op x).toOption
  let map ← o.kind.accessMap?
  let operands ← o.accessIndices.toOption
  (map.eval (operands.map ρ)).toOption.bind id

theorem mapM_answers (operands : List ValueId) :
    operands.mapM (fun v => some (ρ v)) = some (operands.map ρ) := mapM_pure ..

theorem Agrees.respects (hAgrees : g.Agrees ρ) :
    g.Respects fun v => some (ρ v) where
  constant hDefiner hOp hKind hLiteral hTy hInteger hValue := by
    cases hValue
    apply hAgrees
    simp [given?, hDefiner, hOp, hKind, hLiteral, hTy, hInteger, Except.toOption]
  apply hDefiner hOp hKind _ hValue := by
    cases hValue
    refine ⟨_, mapM_answers _, fun m hMap => hAgrees _ m ?_⟩
    simp [given?, hDefiner, hOp, hKind, hMap, Except.toOption]

theorem Agrees.indices {x : OpId} {access : Access} {is : List Int} (hAgrees : g.Agrees ρ)
    (hAccess : g.access? x = .ok (some access)) (hIndices : g.indicesAt? ρ x = some is) :
    List.Forall₂ (fun index w => ∀ form : ValueForm, index = some form →
      form.Means (fun v => some (ρ v)) w) access.indices is := by
  simp only [indicesAt?, Option.bind_eq_bind, Option.bind_eq_some_iff] at hIndices
  obtain ⟨o, hOp, map, hMap, operands, hOperands, _, hEval, rfl⟩ := hIndices
  refine hAgrees.respects.forall₂_of_access? hAccess
    (eq_ok_of_toOption hOp) hMap (eq_ok_of_toOption hOperands) ?_
  rw [Assignment.values?, mapM_answers]
  exact Affine.Map.values?_of_eval (eq_ok_of_toOption hEval)

/-
  Closed forms are exact: of values, of expressions over
  operands, and of the indices of accesses, so that accesses
  that are found equal touch the same element.
-/
theorem closedForms_exact (hIntact : g.Intact) (hAcyclic : g.Acyclic) (hCounted : g.Counted)
    (hAgrees : g.Agrees ρ) :
    (∀ v val, g.value v = .ok val → ∃ form, g.linearize v = .ok form ∧ form.eval ρ = ρ v) ∧
    (∀ expr numDims numSymbols operands form n,
      g.composeExpr expr numDims numSymbols operands = .ok (some form) →
      expr.eval? ((operands.map ρ).take numDims)
        ((operands.map ρ).drop numDims) = some n → form.eval ρ = n) ∧
    ∀ x y a b, g.access? x = .ok (some a) → g.access? y = .ok (some b) →
      a.sameElement b = true → a.memref = b.memref ∧
        ∀ is js, g.indicesAt? ρ x = some is → g.indicesAt? ρ y = some js → is = js := by
  refine ⟨fun v val hValue => ?_, ?_, ?_⟩
  · obtain ⟨form, hForm⟩ := exists_linearize hIntact hAcyclic hCounted hValue
    exact ⟨form, hForm, (hAgrees.respects.means_linearize rfl hForm).value⟩
  · intro expr numDims numSymbols operands form n hForm hEval
    obtain ⟨w, hValue, hMeans⟩ := hAgrees.respects.means_composeExpr (mapM_answers operands) hForm
    cases hValue.symm.trans (Affine.Expr.value?_of_eval? hEval)
    exact hMeans.value
  · intro x y a b hFirst hSecond hSame
    unfold Access.sameElement at hSame
    rw [Bool.and_eq_true, Bool.and_eq_true] at hSame
    obtain ⟨⟨hMemref, hRank⟩, hIndices⟩ := hSame
    refine ⟨of_decide_eq_true hMemref, fun is js hIs hJs => ?_⟩
    exact Access.eq_of_sameIndex hIndices (of_decide_eq_true hRank)
      (hAgrees.indices hFirst hIs) (hAgrees.indices hSecond hJs)
      fun v m n hM hN => Option.some.inj (hM.symm.trans hN)

/-
  A sum of two indices, one of them offset by twice a constant
  and the other one a remainder, and the sum written at once.
-/
def summedHistory : List Mutation :=
  let first := Affine.Expr.dim 0
  let second := Affine.Expr.dim 1
  let offset := Affine.Expr.mul (.symbol 0) (.constant 2)
  [ .createRegion none,
    .createBlock ⟨0⟩ [.memref [20] .i32, .index],
    .createOp (.constant (.index 3)) [] [.index] [],
    .append ⟨0⟩ ⟨0⟩,
    .createOp (.apply ⟨1, 1, [.add first offset]⟩) [⟨1⟩, ⟨2⟩] [.index] [],
    .append ⟨0⟩ ⟨1⟩,
    .createOp (.apply ⟨1, 0, [.mod first (.constant 2)]⟩) [⟨1⟩] [.index] [],
    .append ⟨0⟩ ⟨2⟩,
    .createOp (.apply ⟨2, 0, [.add first second]⟩) [⟨3⟩, ⟨4⟩] [.index] [],
    .append ⟨0⟩ ⟨3⟩,
    .createOp (.affineLoad ⟨1, 0, [first]⟩) [⟨0⟩, ⟨5⟩] [.i32] [],
    .append ⟨0⟩ ⟨4⟩,
    .createOp (.affineStore ⟨2, 0, [.add second (.add first (.constant 6))]⟩)
      [⟨6⟩, ⟨0⟩, ⟨1⟩, ⟨4⟩] [] [],
    .append ⟨0⟩ ⟨5⟩ ]

def summed : Graph := ofHistory summedHistory

def summedNumbers (v : ValueId) : Int := [0, 5, 3, 11, 1, 12, 0].getD v.index 0

theorem summed_acyclic : summed.Acyclic := by
  have hAll : ((List.range summed.ops.slots.size).all fun i =>
      ((summed.ops.view Operation.operands ⟨i⟩).getD []).all fun v =>
        (summed.definingOp? v).toOption.join.all fun d => decide (d.index < i)) = true := by
    decide +kernel
  have hLess (d u : OpId) (hFeeds : summed.Feeds d u) : d.index < u.index := by
    obtain ⟨o, v, hOp, hMem, hDefines⟩ := hFeeds
    have hGet := get_eq_ok_iff.mp hOp
    have hHere := all_eq_true.mp (all_eq_true.mp hAll u.index
      (mem_range.mpr (index_lt_of_get? hGet))) v (by simpa [Arena.view, hGet] using hMem)
    simpa [hDefines, Except.toOption] using hHere
  intro x hLoop
  have hChain := Relation.TransGen.lift (p := (· < ·)) Handle.index hLess x x hLoop
  rw [Relation.transGen_eq_self] at hChain
  exact Nat.lt_irrefl _ hChain

theorem summed_agrees : summed.Agrees summedNumbers := by
  have hAll : ∀ i < summed.values.slots.size, summed.given? summedNumbers ⟨i⟩ = none ∨
      summed.given? summedNumbers ⟨i⟩ = some (summedNumbers ⟨i⟩) := by
    decide +kernel
  intro v n hGiven
  have hIndex : v.index < summed.values.slots.size := by
    cases hDefiner : summed.definingOp? v with
    | error => simp [given?, hDefiner, Except.toOption] at hGiven
    | ok =>
      obtain ⟨val, hValue, _⟩ := bind_eq_ok.mp hDefiner
      exact index_lt_of_get? (get_eq_ok_iff.mp hValue)
  rcases hAll v.index hIndex with hNone | hSome
  · cases hGiven.symm.trans hNone
  · exact Option.some.inj (hSome.symm.trans hGiven)

theorem summed_counted : summed.Counted := by
  have hAll : summed.everyOp (fun o => match o.kind with
      | .apply map => decide (map.numDims + map.numSymbols < 2 ^ 32)
      | _ => true) = true := by
    decide +kernel
  intro x o map expr hOp hKind _
  have hHere := test_of_everyOp hAll hOp
  rw [hKind] at hHere
  exact ⟨_, if_pos (of_decide_eq_true hHere)⟩

theorem closedForms_exact_summed :
    (summed.Intact ∧ summed.Acyclic ∧ summed.Counted ∧ summed.Agrees summedNumbers) ∧
    (∃ form, summed.linearize ⟨5⟩ = .ok form ∧ form.eval summedNumbers = 12) ∧
    ∃ a b, summed.access? ⟨4⟩ = .ok (some a) ∧
      summed.access? ⟨5⟩ = .ok (some b) ∧ a.sameElement b = true ∧
      a.memref = b.memref ∧ summed.indicesAt? summedNumbers ⟨4⟩ = some [12] ∧
      ∀ js, summed.indicesAt? summedNumbers ⟨5⟩ = some js → js = [12] := by
  have hIntact : summed.Intact := intact_of_coherent (coherent_ofHistory summedHistory rfl)
  rcases closedForms_exact hIntact summed_acyclic summed_counted summed_agrees with
    ⟨hValues, _, hAccesses⟩
  have hLive : (summed.value ⟨5⟩).isOk = true := by decide +kernel
  have hIndices : summed.indicesAt? summedNumbers ⟨4⟩ = some [12] := by decide +kernel
  have hSame : (do
      let a ← summed.access? ⟨4⟩
      let b ← summed.access? ⟨5⟩
      return do (← a).sameElement (← b)) = .ok (some true) := by
    decide +kernel
  obtain ⟨a, hFirst, hSame⟩ := bind_eq_ok.mp hSame
  obtain ⟨b, hSecond, hSame⟩ := bind_eq_ok.mp hSame
  rcases a with _ | a
  · cases hSame
  rcases b with _ | b
  · cases hSame
  have hElement := Option.some.inj (pure_eq_ok.mp hSame)
  obtain ⟨hMemref, hEqual⟩ := hAccesses _ _ a b hFirst hSecond hElement
  refine ⟨⟨hIntact, summed_acyclic, summed_counted, summed_agrees⟩, ?_,
    a, b, hFirst, hSecond, hElement, hMemref, hIndices,
    fun js hOther => (hEqual _ js hIndices hOther).symm⟩
  cases hValue : summed.value ⟨5⟩ with
  | error => cases hValue ▸ hLive
  | ok val => exact hValues ⟨5⟩ val hValue

end Graph

end AffineIR
