import AffineIR.Memory.Access
import AffineIR.Proofs.Affine.Forms
import AffineIR.Proofs.Graph.Nesting

/-
  Closed forms have the values of what they stand for.

  An assignment gives numbers to some of the values of a graph.
  It is consistent if the integer constants and the results of
  applied maps have the numbers that their operations compute,
  and respects the graph if those do that compute a number at
  all. Then the closed form of a value is over assigned values
  only and evaluates to the value's number, and the closed form
  of an expression over operands to the exact value of the
  expression.

  Main result: `Access.eq_of_sameIndex`
-/

namespace AffineIR

open Answer List Option

variable {v : ValueId} {depth i n numDims numSymbols : Nat} {cs is js ws : List Int} {value : Value}
  {h : OpId} {formOf : ValueId → Except Fault ValueForm} {expr : Affine.Expr} {map : Affine.Map}

namespace Affine

variable {inputs : List Int}

theorem eq_of_inputCount
    (hCount : inputCount numDims numSymbols = .ok n) : n = numDims + numSymbols :=
  Word.eq_of_count hCount

/- What a map gives with words are its exact results. -/
theorem Map.values?_of_eval {m : Map}
    (hEval : m.eval inputs = .ok (some ws)) : m.values? inputs = some ws := by
  obtain ⟨n, hCount, hResults⟩ := bind_eq_ok.mp hEval
  clear hEval
  split at hResults
  · rename_i hLength
    rw [eq_of_inputCount hCount] at hLength
    unfold Map.values?
    rw [if_pos hLength]
    have hMap := pure_eq_ok.mp hResults
    clear hResults
    generalize m.results = results at hMap
    induction results generalizing ws with
    | nil => exact hMap
    | cons expr results ih =>
      obtain ⟨w, ws, hValue, hRest, rfl⟩ := Row.mapM_eq_some_cons hMap
      rw [mapM_cons, Expr.value?_of_eval? hValue, ih hRest]
      rfl
  · cases pure_eq_ok.mp hResults

end Affine

/- Numbers for some of the values of a graph. -/
abbrev Assignment := ValueId → Option Int

/- A form over the assigned values that has a value. -/
abbrev ValueForm.Means (f : ValueForm) (e : Assignment) (n : Int) : Prop :=
  LinearForm.Means f (fun v => (e v).isSome) (fun v => (e v).getD 0) n

namespace Assignment

/- The exact results of a map over operands that are assigned. -/
def values? (e : Assignment) (map : Affine.Map) (operands : List ValueId) : Option (List Int) :=
  (operands.mapM e).bind map.values?

/- The operands are assigned and belong to a set. -/
def Admits (e : Assignment) (set : Affine.IntegerSet) (operands : List ValueId) : Prop :=
  ∃ inputs, operands.mapM e = some inputs ∧ set.Admits inputs

end Assignment

namespace Graph

/- Constants and applied maps have the numbers they compute. -/
structure Consistent (g : Graph) (e : Assignment) : Prop where
  constant {v : ValueId} {h : OpId} {o : Operation} {literal : Literal}
    {c n : Int} {ty : Ty}
    (hDefiner : g.definingOp? v = .ok (some h))
    (hOp : g.op h = .ok o)
    (hKind : o.kind = .constant literal)
    (hLiteral : literal.toInt? = some c)
    (hTy : g.valueTy v = .ok ty)
    (hInteger : ty.isInteger = true)
    (hValue : e v = some n) : n = c
  apply {v : ValueId} {h : OpId} {o : Operation} {map : Affine.Map}
    {expr : Affine.Expr} {n : Int}
    (hDefiner : g.definingOp? v = .ok (some h))
    (hOp : g.op h = .ok o)
    (hKind : o.kind = .apply map)
    (hSingle : map.results = [expr])
    (hValue : e v = some n) : e.values? map o.operands = some [n]

/-
  Constants have their numbers, and so have applied maps whose
  operands are assigned, if they compute a number.
-/
structure Respects (g : Graph) (e : Assignment) : Prop where
  constant {v : ValueId} {h : OpId} {o : Operation} {literal : Literal}
    {c n : Int} {ty : Ty}
    (hDefiner : g.definingOp? v = .ok (some h))
    (hOp : g.op h = .ok o)
    (hKind : o.kind = .constant literal)
    (hLiteral : literal.toInt? = some c)
    (hTy : g.valueTy v = .ok ty)
    (hInteger : ty.isInteger = true)
    (hValue : e v = some n) : n = c
  apply {v : ValueId} {h : OpId} {o : Operation} {map : Affine.Map}
    {expr : Affine.Expr} {n : Int}
    (hDefiner : g.definingOp? v = .ok (some h))
    (hOp : g.op h = .ok o)
    (hKind : o.kind = .apply map)
    (hSingle : map.results = [expr])
    (hValue : e v = some n) : ∃ inputs, o.operands.mapM e = some inputs ∧
      ∀ m, map.values? inputs = some [m] → n = m

variable {g : Graph} {e : Assignment} {operands : List ValueId} {inputs : List Int}
  {form : ValueForm} {n : Int}

theorem Consistent.respects (hConsistent : g.Consistent e) : g.Respects e where
  constant := hConsistent.constant
  apply hDefiner hOp hKind hSingle hValue := by
    rcases bind_eq_some_iff.mp (hConsistent.apply hDefiner hOp hKind hSingle hValue) with
      ⟨inputs, hInputs, hValues⟩
    refine ⟨inputs, hInputs, fun m hSame => ?_⟩
    cases hValues.symm.trans hSame
    rfl

theorem definingOp?_of_result (hValue : g.value v = .ok value)
    (hDefiner : value.definer = .result h i) : g.definingOp? v = .ok (some h) := by
  rw [definingOp?, hValue, ok_bind, hDefiner]
  rfl

theorem definingOp?_of_argument {b : BlockId} (hValue : g.value v = .ok value)
    (hDefiner : value.definer = .argument b i) : g.definingOp? v = .ok none := by
  rw [definingOp?, hValue, ok_bind, hDefiner]
  rfl

theorem means_leaf (hValue : e v = some n) : ValueForm.Means (.leaf v) e n := by
  have hMeans := LinearForm.means_leaf (h := v) (x := fun v => (e v).getD 0)
    (P := fun v => (e v).isSome) (by rw [hValue]; rfl)
  rwa [hValue] at hMeans

/- A sum of multiples of operands, from the variable `i` on. -/
theorem means_addOperands {acc : ValueForm} {x : Nat → Int}
    (hForms : ∀ v w f, e v = some w → formOf v = .ok f → f.Means e w)
    (hInputs : operands.mapM e = some inputs) (hLength : cs.length = operands.length)
    (hPoint : ∀ j < inputs.length, x (i + j) = inputs.getD j 0) (hAcc : acc.Means e n)
    (hAdd : addOperands formOf acc (cs.zip operands) = .ok (some form)) :
    form.Means e (Row.sumFrom x i cs + n) := by
  induction operands generalizing cs inputs acc i n with
  | nil =>
    cases length_eq_zero_iff.mp hLength
    cases hAdd
    rwa [Row.sumFrom, zero_add]
  | cons v operands ih =>
    obtain ⟨w, ws, hValue, hRest, rfl⟩ := Row.mapM_eq_some_cons hInputs
    rcases cs with _ | ⟨c, cs⟩
    · cases hLength
    have hHead : x i = w := hPoint 0 (Nat.zero_lt_succ _)
    have hTail : ∀ j < ws.length, x (i + 1 + j) = ws.getD j 0 := by
      intro j hInside
      have hNext := hPoint (j + 1) (Nat.succ_lt_succ hInside)
      rwa [← Nat.add_assoc, Nat.add_right_comm] at hNext
    have hLengths := Nat.succ.inj hLength
    rw [Row.sumFrom, hHead]
    rw [zip_cons_cons, addOperands] at hAdd
    split at hAdd
    · rename_i hZero
      rw [hZero, zero_mul, zero_add]
      exact ih hRest hLengths hTail hAcc hAdd
    · obtain ⟨f, hForm, hScaled⟩ := bind_eq_ok.mp hAdd
      split at hScaled
      · cases hScaled
      · rename_i multiple hScale
        split at hScaled
        · cases hScaled
        · rename_i sum hSum
          have hMultiple := (hForms v w f hValue hForm).scale? hScale
          have hMeans := ih hRest hLengths hTail (hAcc.add? hMultiple hSum) hScaled
          have hSame : c * w + Row.sumFrom x (i + 1) cs + n =
              Row.sumFrom x (i + 1) cs + (n + w * c) := by ring
          rwa [hSame]

/- An expression over operands, composed from their forms. -/
theorem means_composeRow {row : Row}
    (hForms : ∀ v w f, e v = some w → formOf v = .ok f → f.Means e w)
    (hInputs : operands.mapM e = some inputs) (hFlat : expr.flatten? numDims numSymbols = some row)
    (hCompose : composeRow formOf row operands = .ok (some form)) :
    inputs.length = numDims + numSymbols ∧
      ∃ w, expr.value? (inputs.take numDims) (inputs.drop numDims) = some w ∧ form.Means e w := by
  unfold composeRow at hCompose
  split at hCompose
  · rename_i hWidth
    have hLength : inputs.length = numDims + numSymbols := by
      rw [Row.length_of_mapM hInputs, ← hWidth, Affine.Expr.width_of_flatten? hFlat]
    have hFlat' : expr.flatten? (inputs.take numDims).length
        (inputs.drop numDims).length = some row := by
      rwa [length_take, length_drop, hLength,
        Nat.min_eq_left (Nat.le_add_right ..), Nat.add_sub_cancel_left]
    refine ⟨hLength, _, (Affine.Expr.value?_of_flatten? hFlat').2, ?_⟩
    refine means_addOperands hForms hInputs hWidth ?_
      (LinearForm.means_ofConstant row.constant) hCompose
    intro j _
    rw [Affine.point, take_append_drop, Nat.zero_add]
  · cases hCompose

------
-- Definitions
------

/- The exact results of a map over operands, opened. -/
theorem values?_eq_some (hValues : e.values? map operands = some ws) :
    ∃ inputs, operands.mapM e = some inputs ∧ map.results.mapM (·.value? (inputs.take map.numDims)
        (inputs.drop map.numDims)) = some ws := by
  obtain ⟨inputs, hInputs, hMap⟩ := bind_eq_some_iff.mp hValues
  unfold Affine.Map.values? at hMap
  split at hMap
  · exact ⟨inputs, hInputs, hMap⟩
  · cases hMap

namespace Respects

theorem means_linearizeUpTo (hRespects : g.Respects e) (hValue : e v = some n)
    (hForm : g.linearizeUpTo depth v = .ok form) : form.Means e n := by
  induction depth generalizing v form n with
  | zero => cases hForm
  | succ depth ih =>
    rw [linearizeUpTo] at hForm
    obtain ⟨definer, hDefiner, hForm⟩ := bind_eq_ok.mp hForm
    rcases definer with _ | h
    · cases hForm
      exact means_leaf hValue
    · obtain ⟨o, hOp, hForm⟩ := bind_eq_ok.mp hForm
      split at hForm
      · rename_i literal hKind
        split at hForm
        · cases hForm
          exact means_leaf hValue
        · rename_i c hLiteral
          obtain ⟨ty, hTy, hForm⟩ := bind_eq_ok.mp hForm
          split at hForm
          · rename_i hInteger
            cases hForm
            rw [hRespects.constant hDefiner hOp hKind hLiteral hTy hInteger hValue]
            exact LinearForm.means_ofConstant c
          · cases hForm
            exact means_leaf hValue
      · rename_i numDims numSymbols expr hKind
        obtain ⟨flat, hFlat, hForm⟩ := bind_eq_ok.mp hForm
        obtain ⟨_, _, hFlat⟩ := bind_eq_ok.mp hFlat
        split at hForm
        · cases hForm
          exact means_leaf hValue
        · rename_i row
          obtain ⟨composed, hComposed, hForm⟩ := bind_eq_ok.mp hForm
          rcases composed with _ | composed
          · cases hForm
            exact means_leaf hValue
          · cases hForm
            obtain ⟨inputs, hInputs, hExact⟩ := hRespects.apply hDefiner hOp hKind rfl hValue
            rcases means_composeRow (fun v w f hSome => ih hSome) hInputs
              (pure_eq_ok.mp hFlat) hComposed with ⟨hLength, w, hSame, hMeans⟩
            rwa [hExact w (by simp [Affine.Map.values?, hLength, hSame])]
      · cases hForm
        exact means_leaf hValue

/- The closed form of a value has the number of the value. -/
theorem means_linearize (hRespects : g.Respects e) (hValue : e v = some n)
    (hForm : g.linearize v = .ok form) : form.Means e n :=
  hRespects.means_linearizeUpTo hValue hForm

/- The closed form of an expression has its exact value. -/
theorem means_composeExpr (hRespects : g.Respects e) (hInputs : operands.mapM e = some inputs)
    (hForm : g.composeExpr expr numDims numSymbols operands = .ok (some form)) :
    ∃ w, expr.value? (inputs.take numDims) (inputs.drop numDims) = some w ∧ form.Means e w := by
  obtain ⟨flat, hFlat, hForm⟩ := bind_eq_ok.mp hForm
  obtain ⟨_, _, hFlat⟩ := bind_eq_ok.mp hFlat
  split at hForm
  · cases hForm
  · exact (means_composeRow (fun v w f => hRespects.means_linearize) hInputs
      (pure_eq_ok.mp hFlat) hForm).2

/- Composed expressions have their exact values. -/
theorem forall₂_of_mapM {results : List Affine.Expr} {indices : List (Option ValueForm)}
    (hRespects : g.Respects e) (hInputs : operands.mapM e = some inputs)
    (hValues : results.mapM (·.value? (inputs.take numDims) (inputs.drop numDims)) = some ws)
    (hForms : results.mapM (fun expr =>
      g.composeExpr expr numDims numSymbols operands) = .ok indices) :
    List.Forall₂ (fun index w => ∀ form, index = some form → form.Means e w)
      indices ws := by
  induction results generalizing indices ws with
  | nil =>
    cases hForms
    cases hValues
    exact .nil
  | cons expr results ih =>
    obtain ⟨index, indices, hForm, hRest, rfl⟩ := mapM_cons_eq_ok.mp hForms
    obtain ⟨w, ws, hValue, hWs, rfl⟩ := Row.mapM_eq_some_cons hValues
    refine .cons ?_ (ih hWs hRest)
    rintro form rfl
    obtain ⟨w', hSame, hMeans⟩ := hRespects.means_composeExpr hInputs hForm
    cases hSame.symm.trans hValue
    exact hMeans

/- The forms of the indices of an access have the exact values. -/
theorem forall₂_of_access? {o : Operation} {access : Access} (hRespects : g.Respects e)
    (hAccess : g.access? h = .ok (some access)) (hOp : g.op h = .ok o)
    (hMap : o.kind.accessMap? = some map) (hIndices : o.accessIndices = .ok operands)
    (hValues : e.values? map operands = some ws) :
    List.Forall₂ (fun index w => ∀ form, index = some form → form.Means e w) access.indices ws := by
  obtain ⟨inputs, hInputs, hResults⟩ := values?_eq_some hValues
  obtain ⟨o', hOp', hAccess⟩ := bind_eq_ok.mp hAccess
  cases hOp.symm.trans hOp'
  rw [hMap] at hAccess
  obtain ⟨operands', hSame, hAccess⟩ := bind_eq_ok.mp hAccess
  cases hIndices.symm.trans hSame
  obtain ⟨indices, hForms, hAccess⟩ := bind_eq_ok.mp hAccess
  obtain ⟨memref, _, rfl⟩ := map_eq_some_iff.mp (pure_eq_ok.mp hAccess)
  exact hRespects.forall₂_of_mapM hInputs hResults hForms

end Respects

end Graph

/- One form has one value under assignments that agree. -/
theorem ValueForm.Means.unique {form : ValueForm} {e e' : Assignment} {m n : Int}
    (hFirst : form.Means e m) (hSecond : form.Means e' n)
    (hAgree : ∀ v x y, e v = some x → e' v = some y → x = y) : m = n := by
  rw [← hFirst.value, ← hSecond.value, LinearForm.eval_eq, LinearForm.eval_eq]
  unfold Terms.sum
  congr 2
  apply map_congr_left
  intro term hMem
  obtain ⟨x, hX⟩ := isSome_iff_exists.mp (hFirst.within term hMem)
  obtain ⟨y, hY⟩ := isSome_iff_exists.mp (hSecond.within term hMem)
  dsimp only
  rw [hX, hY, hAgree _ _ _ hX hY]

/- Equal indices have equal values. -/
theorem Access.eq_of_sameIndex {sources targets : List (Option ValueForm)} {e e' : Assignment}
    (hSame : (sources.zip targets).all (fun (i, j) => sameIndex i j) = true)
    (hLength : sources.length = targets.length)
    (hSources : List.Forall₂ (fun index w => ∀ form : ValueForm,
      index = some form → form.Means e w) sources is)
    (hTargets : List.Forall₂ (fun index w => ∀ form : ValueForm,
      index = some form → form.Means e' w) targets js)
    (hAgree : ∀ v x y, e v = some x → e' v = some y → x = y) : is = js := by
  induction hSources generalizing targets js with
  | nil =>
    cases hTargets with
    | nil => rfl
    | cons => cases hLength
  | @cons index w sources is hIndex _ ih =>
    cases hTargets with
    | nil => cases hLength
    | @cons index' w' targets js hIndex' hRest =>
      rw [zip_cons_cons, all_cons, Bool.and_eq_true] at hSame
      rw [ih hSame.2 (Nat.succ.inj hLength) hRest]
      congr 1
      cases index with
      | none => cases hSame.1
      | some form =>
        cases index' with
        | none => cases hSame.1
        | some form' =>
          cases of_decide_eq_true hSame.1
          exact (hIndex form rfl).unique (hIndex' form rfl) hAgree

end AffineIR
