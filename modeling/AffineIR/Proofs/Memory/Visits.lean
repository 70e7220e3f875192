import AffineIR.Proofs.Graph.Siblings
import AffineIR.Proofs.Memory.Dependence
import AffineIR.Proofs.Run.Separation

/-
  Executed accesses are visits.

  Where a run of a function comes to an access, the values
  that are seen there have numbers.  Under these numbers the
  loops around the access are within their bounds, and the
  guards hold; so the access is a visit of the element that it
  touches.  Two visits in one run agree on what neither of the
  loops around them defines, and stand in the order of time.

  Main result: `Function.before_of_earlier`
-/

namespace AffineIR

open Answer List Option

variable {map : Affine.Map} {r : RegionId} {σ τ₁ τ₂ : Store} {element ws : List Int} {v : ValueId}
  {outer ys : List OpId} {l : OpId × ValueId}

namespace Affine

variable {inputs : List Int}

/- A set that holds with words admits the point. -/
theorem IntegerSet.admits_of_contains {s : IntegerSet}
    (hContains : s.contains inputs = .ok (some true)) : s.Admits inputs := by
  obtain ⟨n, hCount, hAnswer⟩ := bind_eq_ok.mp hContains
  clear hContains
  split at hAnswer
  · rename_i hLength
    rw [eq_of_inputCount hCount] at hLength
    refine ⟨hLength, ?_⟩
    have hAll := pure_eq_ok.mp hAnswer
    clear hAnswer
    generalize s.constraints = constraints at hAll
    induction constraints with
    | nil => nofun
    | cons c constraints ih =>
      rw [allHold?] at hAll
      split at hAll
      · cases hAll
      · rename_i v hValue
        split at hAll
        · rename_i hMet
          intro c' hMem
          rcases mem_cons.mp hMem with rfl | hMem
          · exact ⟨v, Expr.value?_of_eval? hValue, hMet⟩
          · exact ih hAll c' hMem
        · cases hAll
  · cases pure_eq_ok.mp hAnswer

end Affine

------
-- Values that are seen
------

namespace Prog

variable {p q : Prog} {w : List Mark} {t : Trace} {τ : Store} {params : List ValueId} {a : Act}

/- The numbers of the values that are seen at the end of a way. -/
def seen (params : List ValueId) (w : List Mark) (σ : Store) : Assignment :=
  fun v => if v ∈ params ++ w.flatMap Mark.bound then σ.int? v else none

theorem int?_of_seen {n : Int}
    (hSeen : seen params w σ v = some n) : (v ∈ params ∨ Visible w v) ∧ σ.int? v = some n := by
  unfold seen at hSeen
  split at hSeen
  · rename_i hMem
    refine ⟨?_, hSeen⟩
    rcases mem_append.mp hMem with hParam | hBound
    · exact .inl hParam
    · obtain ⟨k, hMark, hIn⟩ := mem_flatMap.mp hBound
      exact .inr ⟨k, hMark, hIn⟩
  · cases hSeen

theorem seen_of_visible (hVisible : v ∈ params ∨ Visible w v) : seen params w σ v = σ.int? v := by
  unfold seen
  rw [if_pos]
  rcases hVisible with hParam | ⟨k, hMark, hIn⟩
  · exact mem_append_left _ hParam
  · exact mem_append_right _ (mem_flatMap.mpr ⟨k, hMark, hIn⟩)

/- Values that are not seen have no number if they are not visible. -/
theorem seen_of_within (hWithin : σ.Within params p)
    (hVisible : p.Binds v → Visible w v) : seen params w σ v = σ.int? v := by
  by_cases hNone : σ.env v = none
  · have hInt : σ.int? v = none := by
      unfold Store.int? Store.scalar?
      rw [hNone]
      rfl
    rw [hInt]
    unfold seen
    split
    · exact hInt
    · rfl
  · exact seen_of_visible ((hWithin hNone).imp_right hVisible)

/- Values that are all seen. -/
def Sees (params : List ValueId) (w : List Mark) (σ : Store) (vs : List ValueId) : Prop :=
  ∀ v ∈ vs, seen params w σ v = σ.int? v

variable {vs us : List ValueId}

theorem Sees.mapM (hSees : Sees params w σ vs) : vs.mapM (seen params w σ) = σ.ints? vs := by
  unfold Store.ints?
  induction vs with
  | nil => rfl
  | cons v vs ih =>
    rw [mapM_cons, mapM_cons, hSees v mem_cons_self,
      ih fun u hMem => hSees u (mem_cons_of_mem v hMem)]

theorem Sees.mono (hSees : Sees params w σ vs) (hSub : ∀ v ∈ us, v ∈ vs) : Sees params w σ us :=
  fun v hMem => hSees v (hSub v hMem)

/- Maps and sets over values that are seen. -/
theorem Sees.values? (hSees : Sees params w σ vs)
    (hMap : σ.map? map vs = some ws) : (seen params w σ).values? map vs = some ws := by
  obtain ⟨inputs, hInputs, hEval⟩ := bind_eq_some_iff.mp hMap
  obtain ⟨answer, hAnswer, hSome⟩ := bind_eq_some_iff.mp hEval
  cases hSome
  unfold Assignment.values?
  rw [hSees.mapM, hInputs]
  exact Affine.Map.values?_of_eval (eq_ok_of_toOption hAnswer)

theorem Sees.admits {set : Affine.IntegerSet} (hSees : Sees params w σ vs)
    (hSet : σ.set? set vs = some true) : (seen params w σ).Admits set vs := by
  obtain ⟨inputs, hInputs, hContains⟩ := bind_eq_some_iff.mp hSet
  obtain ⟨answer, hAnswer, hSome⟩ := bind_eq_some_iff.mp hContains
  cases hSome
  exact ⟨inputs, hSees.mapM.trans hInputs,
    Affine.IntegerSet.admits_of_contains (eq_ok_of_toOption hAnswer)⟩

/- Operands are seen where they are used. -/
theorem WellScoped.sees_operands (hScoped : p.WellScoped) (hLeads : p.Leads w q)
    (hWithin : σ.Within params p) (hHead : q.head? = some a) : Sees params w σ a.operands :=
  fun _ hMem => seen_of_within hWithin (hScoped.visible_of_operand hLeads hHead hMem)

theorem WellScoped.sees_mark {k : Mark} (hScoped : p.WellScoped) (hLeads : p.Leads w q)
    (hWithin : σ.Within params p) (hMark : k ∈ w) : Sees params w σ k.act.operands :=
  fun _ hMem => seen_of_within hWithin (hScoped.visible_of_mark hLeads hMark hMem)

end Prog

------
-- Visits
------

namespace Graph

variable {g : Graph} {value : Value} {h : OpId} {i : Nat}

theorem holder?_of_result (hValue : g.value v = .ok value)
    (hDefiner : value.definer = .result h i) : g.holder? v = .ok (some h) := by
  unfold holder?
  refine bind_eq_ok.mpr ⟨value, hValue, ?_⟩
  rw [hDefiner]
  rfl

theorem holder?_of_argument {b : BlockId} {blk : Block} (hValue : g.value v = .ok value)
    (hDefiner : value.definer = .argument b i)
    (hHolds : g.Holds h r b blk) : g.holder? v = .ok (some h) := by
  unfold holder?
  refine bind_eq_ok.mpr ⟨value, hValue, ?_⟩
  rw [hDefiner]
  exact bind_eq_ok.mpr ⟨blk, hHolds.block, bind_eq_ok.mpr ⟨_, hHolds.parent ▸ hHolds.region, rfl⟩⟩

/- The indices of an affine access are the results of its map. -/
theorem map?_of_indices? {o : Operation} (hMap : o.kind.accessMap? = some map)
    (hIndices : (g.actOf h o).indices? σ = some element) :
    ∃ us, o.accessIndices = .ok us ∧ (∀ u ∈ us, u ∈ o.operands) ∧ σ.map? map us = some element := by
  unfold Act.indices? at hIndices
  unfold Operation.accessIndices
  simp only [actOf] at hIndices
  cases hKind : o.kind with
  | affineLoad m | affineStore m =>
    rw [hKind] at hMap hIndices
    cases hMap
    obtain ⟨us, hFrom, hMapped⟩ := bind_eq_some_iff.mp hIndices
    have hFrom := eq_ok_of_toOption hFrom
    exact ⟨us, hFrom, fun u => (subset_of_entriesFrom hFrom ·), hMapped⟩
  | _ =>
    rw [hKind] at hMap
    cases hMap

end Graph

/- A value that the step of an action would bind again. -/
theorem Act.value?_of_step_self {a : Act} (hValue : a.kind.isValue = true)
    (hStep : a.step σ = some σ) (hMem : v ∈ a.bound) : a.value? σ = σ.env v := by
  rw [step_of_isValue hValue] at hStep
  obtain ⟨d, hComputes, hAssign⟩ := bind_eq_some_iff.mp hStep
  obtain ⟨r, hResult, hSame⟩ := map_eq_some_iff.mp hAssign
  have hBound : r ∈ a.bound := by
    unfold bound
    rw [if_pos (.inl hValue)]
    rcases hResults : a.results with _ | ⟨r', rest⟩
    · rw [hResults] at hResult
      cases hResult
    · rw [hResults] at hResult
      cases hResult
      simp
  rw [eq_of_mem_bound hMem hBound, hComputes, ← hSame, Store.env_assign_self]

namespace Function

open Prog

variable {f : Function} {params : List ValueId} {b : BlockId} {blk : Block} {xs : List OpId}
  {p q : Prog} {x : OpId} {o : Operation} {w : List Mark} {t : Trace} {τ : Store} {a : Act}
  {h : OpId}

/- The variable of a loop is defined by the block of the loop. -/
theorem Part.definer_of_var (hPart : f.Part b blk ys p outer) (hLeads : p.Leads w q)
    (hMark : .inside a v ∈ w) :
    f.graph.definingOp? v = .ok none ∧ f.graph.holder? v = .ok (some a.op) := by
  obtain ⟨w₁, w₂, q₁, q₂, rfl, hFirst, hOpens, _⟩ := hLeads.at_mark hMark
  obtain ⟨b', blk', ys', hThere⟩ := hPart.leads hFirst hOpens.head
  obtain ⟨rest, rfl⟩ := hOpens
  cases hThere.unfolds with
  | loop hOp hParent hKind hRegions hHolds hArgs hClosed hBody hRest =>
    rcases hPart.home.tidy.definer (i := 0) hHolds.block
      (by rw [hArgs]; rfl) with ⟨value, hValue, hDefiner⟩
    exact ⟨Graph.definingOp?_of_argument hValue hDefiner,
      Graph.holder?_of_argument hValue hDefiner hHolds⟩

/- Results of the function's operations are defined by them. -/
theorem definingOp_of_bound (hValid : f.problems = .ok []) (hReached : f.graph.Reached f.body h)
    (hOp : f.graph.op h = .ok o) (hMem : v ∈ (f.graph.actOf h o).bound) :
    f.graph.definingOp? v = .ok (some h) ∧ f.graph.holder? v = .ok (some h) := by
  rcases definer_of_result hValid hReached hOp
    (Graph.mem_results_of_mem_bound hMem) with ⟨value, i, hValue, hDefiner⟩
  exact ⟨Graph.definingOp?_of_result hValue hDefiner, Graph.holder?_of_result hValue hDefiner⟩

/- Loops whose variables have the numbers of a store. -/
def Numbered (g : Graph) (ls : List (OpId × ValueId)) (σ : Store) (e : Assignment) : Prop :=
  ∀ l ∈ ls, g.inductionVar l.1 = .ok l.2 ∧
    ∃ i, σ.env l.2 = some (.scalar (.index i)) ∧ e l.2 = some i

namespace Whole

section

variable (hWhole : f.Whole params b blk xs p x o)

include hWhole

/- Parameters are arguments of the block. -/
theorem definingOp_of_param (hMem : v ∈ params) : f.graph.definingOp? v = .ok none := by
  rw [← hWhole.args] at hMem
  obtain ⟨i, hAt⟩ := List.getElem?_of_mem hMem
  obtain ⟨value, hValue, hDefiner⟩ := hWhole.tidy.definer hWhole.part.home.block hAt
  exact Graph.definingOp?_of_argument hValue hDefiner

/- What is bound on the way is defined there. -/
theorem definingOp_of_past (hLeads : p.Leads w q) (hMark : .past a ∈ w) (hBound : v ∈ a.bound) :
    f.graph.definingOp? v = .ok (some a.op) ∧ f.graph.holder? v = .ok (some a.op) := by
  obtain ⟨hReached, o', hOp, hAct, _⟩ := hWhole.part.mark hLeads hMark
  have hSame : a = f.graph.actOf a.op o' := hAct
  exact definingOp_of_bound hWhole.valid hReached hOp (hSame ▸ hBound)

/- What defines a value that is seen is on the way. -/
theorem past_of_seen (hLeads : p.Leads w q) (hVisible : v ∈ params ∨ Visible w v)
    (hDefiner : f.graph.definingOp? v = .ok (some h)) :
    ∃ o, f.graph.op h = .ok o ∧ .past (f.graph.actOf h o) ∈ w ∧ v ∈ (f.graph.actOf h o).bound := by
  rcases hVisible with hParam | ⟨k, hMark, hBound⟩
  · cases (hWhole.definingOp_of_param hParam).symm.trans hDefiner
  · cases k with
    | past a =>
      obtain ⟨_, o', hOp, hAct, _⟩ := hWhole.part.mark hLeads hMark
      have hSame : a = f.graph.actOf a.op o' := hAct
      have hHere : v ∈ (f.graph.actOf a.op o').bound := hSame ▸ hBound
      cases (hWhole.definingOp_of_past hLeads hMark hBound).1.symm.trans hDefiner
      exact ⟨o', hOp, hSame ▸ hMark, hHere⟩
    | inside a var =>
      cases mem_singleton.mp hBound
      have hNone := (hWhole.part.definer_of_var hLeads hMark).1
      cases hNone.symm.trans hDefiner
    | branch a taken => cases hBound

/- A value that is seen is what its operation computes. -/
theorem value?_of_seen {o' : Operation} (hArrives : p.Arrives σ w t q τ)
    (hVisible : v ∈ params ∨ Visible w v) (hDefiner : f.graph.definingOp? v = .ok (some h))
    (hOp : f.graph.op h = .ok o') (hValue : o'.kind.isValue = true)
    (hLoad : o'.kind.isLoad = false) :
    .past (f.graph.actOf h o') ∈ w ∧ (f.graph.actOf h o').value? τ = τ.env v := by
  obtain ⟨o'', hOp', hMark, hBound⟩ := hWhole.past_of_seen hArrives.leads hVisible hDefiner
  cases hOp.symm.trans hOp'
  have hSteady := hArrives.holds hWhole.wellScoped hMark hValue hLoad
  exact ⟨hMark, Act.value?_of_step_self hValue hSteady hBound⟩

/- The numbers that are seen are those that are computed. -/
theorem consistent (hArrives : p.Arrives σ w t q τ) (hWithin : τ.Within params p) :
    f.graph.Consistent (seen params w τ) where
  constant {v h o' literal c n ty} hDefiner hOp hKind hLiteral _ _ hNumber := by
    obtain ⟨hVisible, hInt⟩ := int?_of_seen hNumber
    rcases hWhole.value?_of_seen hArrives hVisible hDefiner hOp
      (by rw [hKind]; rfl) (by rw [hKind]; rfl) with ⟨_, hEnv⟩
    have hComputes : (f.graph.actOf h o').value? τ = some (.scalar literal) := by
      simp only [Act.value?, Graph.actOf, hKind]
    rw [hComputes] at hEnv
    unfold Store.int? Store.scalar? at hInt
    rw [← hEnv] at hInt
    exact Option.some.inj (hInt.symm.trans hLiteral)
  apply {v h o' map expr n} hDefiner hOp hKind hSingle hNumber := by
    obtain ⟨hVisible, hInt⟩ := int?_of_seen hNumber
    rcases hWhole.value?_of_seen hArrives hVisible hDefiner hOp
      (by rw [hKind]; rfl) (by rw [hKind]; rfl) with ⟨hMark, hEnv⟩
    have hComputes : (f.graph.actOf h o').value? τ = (τ.map? map o'.operands).bind fun results =>
          results.head?.map fun first => .scalar (.index first) := by
      simp only [Act.value?, Graph.actOf, hKind]
    rw [hComputes] at hEnv
    obtain ⟨literal, hScalar, hLiteral⟩ := bind_eq_some_iff.mp hInt
    obtain ⟨d, hDatum, hScalar⟩ := bind_eq_some_iff.mp hScalar
    rw [hDatum] at hEnv
    obtain ⟨results, hMap, hFirst⟩ := bind_eq_some_iff.mp hEnv
    obtain ⟨first, hHead, rfl⟩ := map_eq_some_iff.mp hFirst
    cases hScalar
    cases hLiteral
    have hSees : Sees params w τ o'.operands :=
      hWhole.wellScoped.sees_mark hArrives.leads hWithin hMark
    have hValues := hSees.values? hMap
    obtain ⟨inputs, _, hResults⟩ := Graph.values?_eq_some hValues
    rw [hSingle] at hResults
    obtain ⟨y, ys, _, hNil, rfl⟩ := Row.mapM_eq_some_cons hResults
    cases hNil
    cases hHead
    exact hValues

/- The variables of the loops around have their numbers. -/
theorem numbered
    (hArrives : p.Arrives σ w t q τ) : Numbered f.graph (loopsOf w) τ (seen params w τ) := by
  rintro ⟨l, v⟩ hMem
  obtain ⟨a, hMark, rfl⟩ := mem_loopsOf_iff.mp hMem
  obtain ⟨_, _, _, _, _, hVar⟩ := hWhole.part.mark hArrives.leads hMark
  obtain ⟨_, i, _, _, hEnv⟩ := hArrives.holds hWhole.wellScoped hMark
  refine ⟨hVar, i, hEnv, ?_⟩
  rw [seen_of_visible (.inr ⟨_, hMark, mem_singleton_self _⟩)]
  unfold Store.int? Store.scalar?
  rw [hEnv]
  rfl

/- The variables of the loops around are within their bounds. -/
theorem inBounds (hArrives : p.Arrives σ w t q τ) (hWithin : τ.Within params p)
    (hMem : l ∈ loopsOf w) : f.graph.InBounds (seen params w τ) l.1 := by
  obtain ⟨a, hMark, hLoop⟩ := mem_loopsOf_iff.mp hMem
  rcases hWhole.part.mark hArrives.leads hMark with
    ⟨_, o', hOp, hAct, _, hVar⟩
  intro o'' lower upper step v lows ups hOp' hKind hVar' hLows hUps
  rw [← hLoop] at hOp' hVar'
  cases hOp.symm.trans hOp'
  cases hVar.symm.trans hVar'
  obtain ⟨is, i, hIn, hValues, hEnv⟩ := hArrives.holds hWhole.wellScoped hMark
  obtain ⟨_, i', hEnv', hNumber⟩ := hWhole.numbered hArrives l hMem
  cases hEnv.symm.trans hEnv'
  have hSees : Sees params w τ a.operands :=
    hWhole.wellScoped.sees_mark hArrives.leads hWithin hMark
  rcases Act.exists_of_values? hValues with
    ⟨lower', upper', step', n, lows', ups', lowers, uppers, first, last,
      hKind', hStep, hNum, hFirst, hSecond, hLowers, hUppers, hMax, hMin, rfl⟩
  have hSame : a = f.graph.actOf a.op o' := hAct
  have hOperands : a.operands = o'.operands := by rw [hSame]; rfl
  have hKinds : a.kind = o'.kind := by rw [hSame]; rfl
  cases hKind'.symm.trans (hKinds.trans hKind)
  rw [hOperands] at hFirst hSecond
  have hLows' : o'.lowerOperands = .ok lows' := by
    unfold Operation.lowerOperands
    rw [hKind]
    exact bind_eq_ok.mpr ⟨n, hNum, hFirst⟩
  have hUps' : o'.upperOperands = .ok ups' := by
    unfold Operation.upperOperands
    rw [hKind]
    exact bind_eq_ok.mpr ⟨n, hNum, hSecond⟩
  cases hLows.symm.trans hLows'
  cases hUps.symm.trans hUps'
  obtain ⟨hLow, hHigh, hWhole'⟩ := Act.of_mem_iterations hStep hIn
  rw [hOperands] at hSees
  refine ⟨i, lowers, uppers, hNumber, ?_, ?_, ?_, ?_, ?_⟩
  · exact (hSees.mono fun u => (subset_of_entriesUpTo hFirst ·)).values? hLowers
  · exact (hSees.mono fun u => (subset_of_entriesFrom hSecond ·)).values? hUppers
  · intro c hIn
    exact Int.le_trans ((List.max?_eq_some_iff.mp hMax).2 c hIn) hLow
  · intro c hIn
    exact Int.lt_of_lt_of_le hHigh ((List.min?_eq_some_iff.mp hMin).2 c hIn)
  · rintro c rfl _
    cases hMax
    exact hWhole'

/- Where a run comes to an access, it visits an element. -/
theorem visit (hArrives : p.Arrives σ w t q τ) (hWithin : τ.Within params p)
    (hHead : q.head? = some a) (hMap : a.kind.accessMap? = some map)
    (hIndices : a.indices? τ = some element) : f.graph.Visit (seen params w τ) a.op element where
  consistent := hWhole.consistent hArrives hWithin
  bounds {loops l} hLoops hMem := by
    have hAround := hWhole.part.enclosingLoops hArrives.leads hHead
    cases hAround.symm.trans hLoops
    obtain ⟨pair, hIn, rfl⟩ := mem_map.mp hMem
    exact hWhole.inBounds hArrives hWithin hIn
  guards {c z b' o' set} hOp hKind hBlock hParent hHolder hAncestor := by
    rcases hWhole.part.guard hArrives.leads hHead hOp
      hKind hBlock hParent hHolder hAncestor with ⟨a', hMark, rfl⟩
    rcases hWhole.part.mark hArrives.leads hMark with
      ⟨_, o'', hOp', hAct, _⟩
    cases hOp.symm.trans hOp'
    have hSame : a' = f.graph.actOf a'.op o' := hAct
    have hHolds := hArrives.holds hWhole.wellScoped hMark
    have hSees : Sees params w τ a'.operands :=
      hWhole.wellScoped.sees_mark hArrives.leads hWithin hMark
    have hSet : τ.set? set a'.operands = some true := by
      have hAsked : a'.holds? τ = some true := hHolds
      rw [hSame] at hAsked ⊢
      simpa only [Act.holds?, Graph.actOf, hKind] using hAsked
    have hAdmits := hSees.admits hSet
    rwa [hSame] at hAdmits
  touches := by
    rcases hWhole.part.leads hArrives.leads hHead with
      ⟨b', blk', ys', hThere⟩
    obtain ⟨_, _, _, o', hOp, hSame⟩ := hThere.first hHead
    have hSees : Sees params w τ a.operands :=
      hWhole.wellScoped.sees_operands hArrives.leads hWithin hHead
    rw [hSame] at hMap hIndices hSees
    obtain ⟨us, hAccess, hSub, hMapped⟩ := Graph.map?_of_indices? hMap hIndices
    exact ⟨o', map, us, hOp, hMap, hAccess, (hSees.mono hSub).values? hMapped⟩

/- The block of the body is not inside an operation. -/
theorem not_holds {blk' : Block} : ¬f.graph.Holds h r b blk' := by
  intro hHolds
  have hLinked := linked_body hWhole.valid
  obtain ⟨reg, hRegion, hNone⟩ := hLinked.region
  have hEntry := hWhole.one.starts.entry
  unfold Graph.entryBlock? at hEntry
  rw [hRegion] at hEntry
  have hFirst : reg.blocks.head? = some b := pure_eq_ok.mp hEntry
  obtain ⟨blk'', hBlock, hParent⟩ := hLinked.block hRegion (mem_of_head? hFirst)
  cases hHolds.block.symm.trans hBlock
  have hSame := hHolds.region
  rw [← hHolds.parent, hParent, hRegion] at hSame
  cases hSame
  cases hNone

/- Parameters are not bound again. -/
theorem not_binds_param (hMem : v ∈ params) : ¬p.Binds v := by
  intro hBinds
  rw [← hWhole.args] at hMem
  obtain ⟨i, hAt⟩ := List.getElem?_of_mem hMem
  obtain ⟨value, hValue, hDefiner⟩ := hWhole.tidy.definer hWhole.part.home.block hAt
  obtain ⟨y, hIn, o', hOp, hOwns⟩ := hWhole.part.unfolds.owner_of_binds hBinds
  obtain ⟨z, hListed, hInside⟩ := hWhole.part.unfolds.inside_of_mem_ids hIn
  have hReached := hInside.reached (hWhole.part.home.reached (hWhole.part.row.subset hListed))
  rcases hOwns with hResult | ⟨r, b', blk', hRegion, hHolds, hArgs⟩
  · obtain ⟨value', j, hValue', hDefiner'⟩ := definer_of_result hWhole.valid hReached hOp hResult
    cases hValue.symm.trans hValue'
    cases hDefiner.symm.trans hDefiner'
  · rcases hWhole.tidy.definer (i := 0) hHolds.block (by rw [hArgs]; rfl) with
      ⟨value', hValue', hDefiner'⟩
    cases hValue.symm.trans hValue'
    cases hDefiner.symm.trans hDefiner'
    exact hWhole.not_holds hHolds

end

end Whole

theorem mem_holdersOf_of_loop (hMem : l ∈ loopsOf w) : l.1 ∈ holdersOf w := by
  induction w with
  | nil => cases hMem
  | cons k w ih =>
    cases k with
    | past a => exact ih hMem
    | inside a u =>
      rcases mem_cons.mp hMem with rfl | hMem
      · exact mem_cons_self
      · exact mem_cons_of_mem _ (ih hMem)
    | branch a taken => exact mem_cons_of_mem _ (ih hMem)

/- What is bound in a loop is defined in it. -/
theorem Part.definedIn {l : OpId} (hPart : f.Part b blk ys p []) (hLeads : p.Leads w q)
    (hHead : q.head? = some a) (hHolder : f.graph.holder? v = .ok (some a.op))
    (hMem : l = a.op ∨ l ∈ (loopsOf w).map Prod.fst) : f.graph.DefinedIn l v := by
  refine ⟨a.op, hHolder, ?_⟩
  obtain ⟨b', blk', ys', hThere⟩ := hPart.leads hLeads hHead
  obtain ⟨hReached, hRises, _⟩ := hThere.first hHead
  refine hRises.isAncestor_iff.mpr ?_
  rcases hMem with rfl | hMem
  · exact mem_cons_self
  · obtain ⟨pair, hIn, rfl⟩ := mem_map.mp hMem
    refine mem_cons_of_mem _ (mem_append_left _ ?_)
    exact mem_reverse.mpr (mem_holdersOf_of_loop hIn)

/- Visits agree on what no loop around them defines. -/
theorem Whole.agreeOutside {q₁ q₂ : Prog} {w₁ w₂ : List Mark} {t₁ t₂ : Trace} {a₁ a₂ : Act}
    (hWhole : f.Whole params b blk xs p x o) (hFirst : p.Arrives σ w₁ t₁ q₁ τ₁)
    (hHead₁ : q₁.head? = some a₁) (hSecond : p.Arrives σ w₂ t₂ q₂ τ₂)
    (hHead₂ : q₂.head? = some a₂) :
    f.graph.AgreeOutside ⟨(loopsOf w₁).map Prod.fst, (loopsOf w₂).map Prod.fst⟩
      (seen params w₁ τ₁) (seen params w₂ τ₂) := by
  intro v m n hNumber₁ hNumber₂ hOutside
  obtain ⟨hVisible₁, hInt₁⟩ := int?_of_seen hNumber₁
  obtain ⟨hVisible₂, hInt₂⟩ := int?_of_seen hNumber₂
  suffices hEnv : τ₁.env v = τ₂.env v by
    unfold Store.int? Store.scalar? at hInt₁ hInt₂
    rw [hEnv] at hInt₁
    exact Option.some.inj (hInt₁.symm.trans hInt₂)
  rcases hVisible₁ with hParam | ⟨k, hMark, hBound⟩
  · have hFree := hWhole.not_binds_param hParam
    rw [env_of_arrives hFree hFirst, env_of_arrives hFree hSecond]
  obtain ⟨u₁, u₁', p₁, p₁', rfl, hLeads₁, hOpens₁, hLater₁⟩ := hFirst.leads.at_mark hMark
  cases k with
  | branch => cases hBound
  | inside a var =>
    cases mem_singleton.mp hBound
    refine absurd ?_ (hOutside a.op ?_)
    · exact hWhole.part.definedIn hLeads₁
        hOpens₁.head (hWhole.part.definer_of_var
          hFirst.leads hMark).2 (.inl rfl)
    · exact mem_append_left _ (mem_map.mpr ⟨(a.op, v), mem_loopsOf_iff.mpr ⟨a, hMark, rfl⟩, rfl⟩)
  | past a =>
    obtain ⟨hDefines₁, hHolder⟩ := hWhole.definingOp_of_past hFirst.leads hMark hBound
    cases hOpens₁
    -- no loop is around the operation that binds the value
    have hLoops : loopsOf u₁ = [] := by
      rcases hLoops : loopsOf u₁ with _ | ⟨l, ls⟩
      · rfl
      · refine absurd ?_ (hOutside l.1 ?_)
        · exact hWhole.part.definedIn hLeads₁ rfl
            hHolder (.inr (by simp [hLoops]))
        · simp [loopsOf_append, hLoops]
    rcases hVisible₂ with hParam | ⟨k₂, hMark₂, hBound₂⟩
    · exact absurd (hLeads₁.binds (.inl hBound)) (hWhole.not_binds_param hParam)
    obtain ⟨u₂, u₂', p₂, p₂', rfl, hLeads₂, hOpens₂, hLater₂⟩ := hSecond.leads.at_mark hMark₂
    cases k₂ with
    | branch => cases hBound₂
    | inside a' var =>
      cases mem_singleton.mp hBound₂
      have hNone := (hWhole.part.definer_of_var hSecond.leads hMark₂).1
      cases hNone.symm.trans hDefines₁
    | past a' =>
      have hDefines₂ := (hWhole.definingOp_of_past hSecond.leads hMark₂ hBound₂).1
      cases hOpens₂
      have hSame : a.op = a'.op := Option.some.inj (Except.ok.inj (hDefines₁.symm.trans hDefines₂))
      obtain ⟨rfl, hEq⟩ := Leads.unique hWhole.nodup_ids hLeads₁ hLeads₂ rfl rfl hSame
      cases hEq
      exact hFirst.steady hWhole.nodup_ids hWhole.wellScoped hLeads₁ hLoops
        hHead₁ (hLater₁.mem_ids hHead₁) hSecond hHead₂ (hLater₂.mem_ids hHead₂) hBound

end Function

namespace Graph

variable {as bs cs : List OpId} {l : OpId} {j : Nat}

theorem commonLength_append (as bs cs : List OpId) :
    commonLength (as ++ bs) (as ++ cs) = as.length + commonLength bs cs := by
  induction as with
  | nil => simp
  | cons a as ih =>
    simp only [cons_append, commonLength, if_true, ih, length_cons]
    omega

/- Common loops are the same on both sides. -/
theorem getElem?_of_lt_commonLength (hLess : j < commonLength as bs)
    (hAt : as[j]? = some l) : bs[j]? = some l := by
  induction as generalizing bs j with
  | nil => cases hAt
  | cons a as ih =>
    cases bs with
    | nil => simp [commonLength] at hLess
    | cons b bs =>
      rw [commonLength] at hLess
      split at hLess
      · rename_i hSame
        subst hSame
        cases j with
        | zero => exact hAt
        | succ j =>
          rw [List.getElem?_cons_succ] at hAt ⊢
          exact ih (by omega) hAt
      · omega

end Graph

namespace Prog

variable {τ : Store} {final : Prop} {ls ls' : List (OpId × ValueId)}

/-
  The level at which the second time is later than the first
  one, or the level behind the last common loop.
-/
theorem Earlier.exists_level (hEarlier : Earlier σ τ final ls ls') :
    ∃ d, d ≤ Graph.commonLength (ls.map Prod.fst) (ls'.map Prod.fst) ∧
      (∀ k l, k < d → ls[k]? = some l → σ.env l.2 = τ.env l.2) ∧ ((∃ l i j, ls[d]? = some l ∧
          d < Graph.commonLength (ls.map Prod.fst) (ls'.map Prod.fst) ∧
          σ.env l.2 = some (.scalar (.index i)) ∧ τ.env l.2 = some (.scalar (.index j)) ∧ i < j) ∨
        (d = Graph.commonLength (ls.map Prod.fst) (ls'.map Prod.fst) ∧ final)) := by
  induction ls generalizing ls' with
  | nil => exact ⟨0, Nat.zero_le _, nofun, .inr ⟨rfl, hEarlier⟩⟩
  | cons l ls ih =>
    cases ls' with
    | nil => exact ⟨0, Nat.zero_le _, nofun, .inr ⟨rfl, hEarlier⟩⟩
    | cons l' ls' =>
      rw [Earlier] at hEarlier
      simp only [map_cons, Graph.commonLength]
      split at hEarlier
      · rename_i hSame
        rw [if_pos hSame]
        rcases hEarlier with ⟨i, j, hFirst, hSecond, hLess⟩ | ⟨hEq, hRest⟩
        · exact ⟨0, Nat.zero_le _, nofun, .inl
            ⟨l, i, j, rfl, Nat.succ_pos _, hFirst, hSecond, hLess⟩⟩
        · obtain ⟨d, hLe, hEqual, hAt⟩ := ih hRest
          refine ⟨d + 1, by omega, ?_, ?_⟩
          · intro k m hLess hAt
            cases k with
            | zero =>
              cases hAt
              exact hEq
            | succ k => exact hEqual k m (by omega) hAt
          · rcases hAt with ⟨m, i, j, hAt, hBelow, hMore⟩ | ⟨hAll, hFinal⟩
            · exact .inl ⟨m, i, j, hAt, by omega, hMore⟩
            · exact .inr ⟨by omega, hFinal⟩
      · rename_i hOther
        rw [if_neg hOther]
        exact ⟨0, Nat.zero_le _, nofun, .inr ⟨rfl, hEarlier⟩⟩

end Prog

namespace Function

open Prog

variable {g : Graph} {τ : Store} {first second : Assignment} {final : Prop}
  {us ls ls' : List (OpId × ValueId)}

/- The number of the variable of a loop. -/
theorem Numbered.number {level : Nat} {l : OpId} (hNumbered : Numbered g ls σ first)
    (hAt : (ls.map Prod.fst)[level]? = some l) (hVar : g.inductionVar l = .ok v) :
    ls[level]? = some (l, v) ∧ ∃ i, σ.env v = some (.scalar (.index i)) ∧ first v = some i := by
  rw [List.getElem?_map] at hAt
  obtain ⟨⟨l', v'⟩, hPair, rfl⟩ := map_eq_some_iff.mp hAt
  obtain ⟨hVar', hNumber⟩ := hNumbered _ (mem_of_getElem? hPair)
  cases hVar.symm.trans hVar'
  exact ⟨hPair, hNumber⟩

/- Visits one after the other are in the order of some depth. -/
theorem before_of_earlier (hFirst : Numbered g (us ++ ls) σ first)
    (hSecond : Numbered g (us ++ ls') τ second) (hOuter : ∀ l ∈ us, σ.env l.2 = τ.env l.2)
    (hEarlier : Earlier σ τ final ls ls') :
    ∃ depth common, Graph.commonLength ((us ++ ls).map Prod.fst)
        ((us ++ ls').map Prod.fst) = common ∧ us.length < depth ∧ depth ≤ common + 1 ∧
      (common < depth → final) ∧
      g.Before (((us ++ ls).map Prod.fst).take common) depth first second := by
  obtain ⟨d, hLe, hEqual, hAt⟩ := hEarlier.exists_level
  rw [map_append, map_append, Graph.commonLength_append, length_map]
  refine ⟨us.length + d + 1, _, rfl, by omega, by omega, ?_, ?_⟩
  · intro hLess
    rcases hAt with ⟨_, _, _, _, hBelow, _⟩ | ⟨_, hFinal⟩
    · omega
    · exact hFinal
  · intro level l v hLevel hDepth hVar
    have hBelow : level < us.length + Graph.commonLength (ls.map Prod.fst) (ls'.map Prod.fst) := by
      have hShort := (List.getElem?_eq_some_iff.mp hLevel).1
      rw [length_take] at hShort
      omega
    rw [List.getElem?_take_of_lt hBelow, ← map_append] at hLevel
    have hLevel' : ((us ++ ls').map Prod.fst)[level]? = some l := by
      refine Graph.getElem?_of_lt_commonLength ?_ hLevel
      rwa [map_append, map_append, Graph.commonLength_append, length_map]
    obtain ⟨hPair, i, hEnv, hNumber⟩ := hFirst.number hLevel hVar
    obtain ⟨_, j, hEnv', hNumber'⟩ := hSecond.number hLevel' hVar
    refine ⟨i, j, hNumber, hNumber', ?_⟩
    split
    · rename_i hAbove
      have hSame : σ.env v = τ.env v := by
        by_cases hInner : level < us.length
        · rw [List.getElem?_append_left hInner] at hPair
          exact hOuter _ (mem_of_getElem? hPair)
        · rw [List.getElem?_append_right (by omega)] at hPair
          exact hEqual _ _ (by omega) hPair
      rw [hEnv, hEnv'] at hSame
      cases hSame
      rfl
    · rename_i hThere
      have hEq : level - us.length = d := by omega
      rw [List.getElem?_append_right (by omega), hEq] at hPair
      rcases hAt with ⟨l₀, i₀, j₀, hAt, _, hEnv₀, hEnv₀', hLess⟩ | ⟨hAll, _⟩
      · cases hAt.symm.trans hPair
        cases hEnv.symm.trans hEnv₀
        cases hEnv'.symm.trans hEnv₀'
        exact hLess
      · omega

end Function

end AffineIR
