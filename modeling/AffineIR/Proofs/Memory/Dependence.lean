import AffineIR.Proofs.Memory.Solutions

/-
  Dependences are solutions.

  Two visits of accesses are two assignments under which the
  accesses run: the loop variables are within their bounds, the
  guards hold, and the indices have values.  When the visits
  touch the same element, agree on what is defined outside of
  both nests, and stand in the order of a loop depth, then the
  system of that depth has a solution.

  Main result: `Graph.dependenceSystem_solvable`
-/

namespace AffineIR

open Answer List

variable {c h l x y : OpId} {element inputs lowers uppers : List Int} {operands : List ValueId}
  {depth levels numCommon numDims numSymbols : Nat} {map : Affine.Map} {s : Site}
  {access source target : Access} {first second : Assignment} {v : ValueId}

namespace Graph

/-
  The variable of a loop is at least every lower bound, below
  every upper bound, and whole steps above a single lower one.
-/
def InBounds (g : Graph) (e : Assignment) (l : OpId) : Prop := ∀ ⦃o lower upper step v lows ups⦄,
    g.op l = .ok o → o.kind = .loop lower upper step → g.inductionVar l = .ok v →
    o.lowerOperands = .ok lows → o.upperOperands = .ok ups → ∃ n lowers uppers, e v = some n ∧
      e.values? lower lows = some lowers ∧ e.values? upper ups = some uppers ∧
      (∀ c ∈ lowers, c ≤ n) ∧ (∀ c ∈ uppers, n < c) ∧ (∀ c, lowers = [c] → 0 < step → step ∣ n - c)

/- An access runs under an assignment and touches an element. -/
structure Visit (g : Graph) (e : Assignment) (h : OpId) (element : List Int) : Prop where
  consistent : g.Consistent e
  bounds {loops : List OpId} {l : OpId}
    (hLoops : g.enclosingLoops h = .ok loops) (hMem : l ∈ loops) :
    g.InBounds e l
  guards {c z : OpId} {b : BlockId} {o : Operation} {set : Affine.IntegerSet}
    (hOp : g.op c = .ok o) (hKind : o.kind = .conditional set)
    (hBlock : g.thenBlock c = .ok b) (hParent : g.parentBlock z = .ok b)
    (hHolder : g.parentOp? z = .ok (some c))
    (hAncestor : g.isAncestor z h = .ok true) : e.Admits set o.operands
  touches : ∃ o map operands, g.op h = .ok o ∧
    o.kind.accessMap? = some map ∧ o.accessIndices = .ok operands ∧
    e.values? map operands = some element

/- A value is defined inside an operation. -/
def DefinedIn (g : Graph) (l : OpId) (v : ValueId) : Prop :=
  ∃ holder, g.holder? v = .ok (some holder) ∧ g.isAncestor l holder = .ok true

/- Values that no loop of the nests defines have the same numbers. -/
def AgreeOutside (g : Graph) (nests : NestPair) (first second : Assignment) : Prop :=
  ∀ ⦃v m n⦄, first v = some m → second v = some n →
    (∀ l ∈ nests.sourceLoops ++ nests.targetLoops, ¬g.DefinedIn l v) → m = n

/-
  The variables of the common loops are the same above a depth
  and larger in the second assignment at this depth.
-/
def Before (g : Graph) (loops : List OpId) (depth : Nat) (first second : Assignment) : Prop :=
  ∀ ⦃level l v⦄, loops[level]? = some l → level < depth → g.inductionVar l = .ok v →
    ∃ m n, first v = some m ∧ second v = some n ∧ if level + 1 < depth then m = n else m < n

------
-- Bounds and guards
------

open BuildSystem

variable {g : Graph} {nests : NestPair} {side : Side} {e : Assignment} {val : Side → ValueId → Int}
  {qs : List Quantity} {var : VarForm} {n : Int}

/- The form of an expression over operands has its exact value. -/
theorem Speaks.ensures_composed {α : Type} {expr : Affine.Expr}
    {next : VarForm → BuildSystem α} {final : α → List Quantity → Prop} {w : Int}
    (hSpeaks : g.Speaks nests side e val) (hConsistent : g.Consistent e)
    (hInputs : operands.mapM e = some inputs)
    (hValue : expr.value? (inputs.take numDims) (inputs.drop numDims) = some w)
    (hNext : ∀ f ps, qs <+: ps → f.Means val ps w → Ensures val ps (next f) final) :
    Ensures val qs (do
        let composed ← ask (g.composeExpr expr numDims numSymbols operands)
        next (← g.formOf nests side (← need composed))) final := by
  refine ensures_ask.bind ?_
  intro composed ps hFirst hForm
  refine ensures_need.bind ?_
  rintro form rs hSecond rfl
  obtain ⟨w', hSame, hMeans⟩ := hConsistent.respects.means_composeExpr hInputs hForm
  cases hSame.symm.trans hValue
  refine (hSpeaks.ensures_formOf hMeans).bind ?_
  intro f ts hThird
  exact hNext f ts (hFirst.trans (hSecond.trans hThird))

theorem ensures_addLowerBounds (hSpeaks : g.Speaks nests side e val) (hConsistent : g.Consistent e)
    (hVar : var.Means val qs n) (hValues : e.values? map operands = some lowers)
    (hBelow : ∀ c ∈ lowers, c ≤ n) :
    Ensures val qs (g.addLowerBounds nests side var map operands)
      fun bounds ps => List.Forall₂ (fun f c => f.Means val ps c)
        bounds lowers := by
  obtain ⟨inputs, hInputs, hMap⟩ := values?_eq_some hValues
  clear hValues
  unfold addLowerBounds
  generalize map.results = results at hMap
  induction results generalizing qs lowers with
  | nil =>
    cases hMap
    exact ensures_pure List.Forall₂.nil
  | cons expr results ih =>
    obtain ⟨w, ws, hValue, hRest, rfl⟩ := Row.mapM_eq_some_cons hMap
    rw [mapM_cons]
    refine Ensures.bind (P := fun f ps => f.Means val ps w) ?_ ?_
    · refine hSpeaks.ensures_composed hConsistent hInputs hValue ?_
      intro bound ps hFirst hBound
      refine (ensures_needForm fun f hSome => (hVar.mono hFirst).sub? hBound hSome).bind ?_
      intro room rs hSecond hRoom
      have hNonneg : 0 ≤ n - w := Int.sub_nonneg_of_le (hBelow w mem_cons_self)
      refine (ensures_addInequality hRoom hNonneg).bind ?_
      intro _ ts hThird _
      exact ensures_pure (hBound.mono (hSecond.trans hThird))
    · intro bound ps hPrefix hBound
      refine (ih (hVar.mono hPrefix)
        (fun c hMem => hBelow c (mem_cons_of_mem _ hMem)) hRest).bind ?_
      intro bounds rs hMore hBounds
      exact ensures_pure (.cons (hBound.mono hMore) hBounds)

theorem ensures_addUpperBounds (hSpeaks : g.Speaks nests side e val) (hConsistent : g.Consistent e)
    (hVar : var.Means val qs n) (hValues : e.values? map operands = some uppers)
    (hAbove : ∀ c ∈ uppers, n < c) :
    Ensures val qs (g.addUpperBounds nests side var map operands) fun _ _ => True := by
  obtain ⟨inputs, hInputs, hMap⟩ := values?_eq_some hValues
  apply ensures_forM
  intro expr hMem ps hPrefix
  obtain ⟨w, hIn, hValue⟩ := Row.exists_mem_of_mapM hMap hMem
  refine hSpeaks.ensures_composed hConsistent hInputs hValue ?_
  intro bound rs hMore hBound
  have hVar' := hVar.mono (hPrefix.trans hMore)
  refine (ensures_needForm fun f hSome => hBound.sub? hVar' hSome).bind ?_
  intro room vs _ hRoom
  refine (ensures_needForm fun f hSome => hRoom.offset? hSome).bind ?_
  intro less _ _ hLess
  refine ensures_addInequality hLess ?_
  have hStrict := hAbove w hIn
  omega

/- A number of steps above the lower bound is whole and not negative. -/
theorem ensures_addStride {lower : VarForm} {c step : Int} (hVar : var.Means val qs n)
    (hLower : lower.Means val qs c) (hBelow : c ≤ n) (hPos : 0 < step)
    (hWhole : step ∣ n - c) : Ensures val qs (addStride var lower step) fun _ _ => True := by
  obtain ⟨k, hSteps⟩ := hWhole
  have hNonneg : 0 ≤ k := by
    by_contra hNeg
    have hLess : step * k < 0 := mul_neg_of_pos_of_neg hPos (by omega)
    omega
  unfold addStride
  refine (ensures_newVar (.count k)).bind ?_
  rintro count ps hPrefix ⟨rfl, rfl⟩
  have hCount : VarForm.Means (.leaf ⟨qs.length⟩) val (qs ++ [.count k]) k :=
    VarForm.means_leaf (q := .count k) (by simp)
  refine (ensures_needForm fun f hSome => (hVar.mono hPrefix).sub? (hLower.mono hPrefix) hSome).bind ?_
  intro distance rs hFirst hDistance
  refine (ensures_needForm fun f hSome => (hCount.mono hFirst).scale? hSome).bind ?_
  intro steps ts hSecond hMultiple
  refine (ensures_needForm (n := 0) ?_).bind ?_
  · intro f hSome
    have hMeans := (hDistance.mono hSecond).sub? hMultiple hSome
    rwa [hSteps, mul_comm k step, sub_self] at hMeans
  intro rest us hThird hRest
  refine (ensures_addEquality hRest).bind ?_
  intro _ vs hFourth _
  exact ensures_addInequality (hCount.mono (hFirst.trans (hSecond.trans
    (hThird.trans hFourth)))) hNonneg

/- The constraints of a loop are met within its bounds. -/
theorem ensures_addLoop (hSpeaks : g.Speaks nests side e val) (hConsistent : g.Consistent e)
    (hBounds : g.InBounds e l) : Ensures val qs (g.addLoop nests side l) fun _ _ => True := by
  unfold addLoop
  refine ensures_ask.bind ?_
  intro o ps _ hOp
  split
  · rename_i lower upper step hKind
    refine ensures_ask.bind ?_
    intro v qs₁ _ hInduction
    refine (hSpeaks.ensures_varOf v).bind ?_
    intro var qs₂ _ hVar
    refine ensures_ask.bind ?_
    intro lows qs₃ hThird hLows
    refine ensures_ask.bind ?_
    intro ups qs₄ hFourth hUps
    rcases hBounds hOp hKind hInduction hLows hUps with
      ⟨n, lowers, uppers, hValue, hLowers, hUppers, hBelow, hAbove, hStride⟩
    have hMeans := (hVar n hValue).mono (hThird.trans hFourth)
    refine (ensures_addLowerBounds hSpeaks hConsistent hMeans hLowers hBelow).bind ?_
    intro bounds qs₅ hFifth hForms
    refine (ensures_addUpperBounds hSpeaks hConsistent (hMeans.mono hFifth) hUppers hAbove).bind ?_
    intro _ qs₆ hSixth _
    split
    · rename_i bound
      rcases hForms with _ | ⟨hBound, hNil⟩
      cases hNil
      split
      · rename_i hStep
        have hPos : 0 < step := by omega
        exact ensures_addStride (hMeans.mono (hFifth.trans hSixth))
          (hBound.mono hSixth) (hBelow _ mem_cons_self) hPos (hStride _ rfl hPos)
      · exact ensures_pure trivial
    · exact ensures_pure trivial
  · exact ensures_pure trivial

/- The affine constraints of a set that admits the operands are met. -/
theorem ensures_addCondition {set : Affine.IntegerSet} (hSpeaks : g.Speaks nests side e val)
    (hConsistent : g.Consistent e) (hAdmits : e.Admits set operands) :
    Ensures val qs (g.addCondition nests side set operands) fun _ _ => True := by
  obtain ⟨inputs, hInputs, _, hAll⟩ := hAdmits
  apply ensures_forM
  intro c hMem ps _
  obtain ⟨w, hValue, hMet⟩ := hAll c hMem
  refine ensures_ask.bind ?_
  intro composed rs _ hForm
  rcases composed with _ | form
  · exact ensures_pure trivial
  · obtain ⟨w', hSame, hMeans⟩ := hConsistent.respects.means_composeExpr hInputs hForm
    cases hSame.symm.trans hValue
    refine (hSpeaks.ensures_formOf hMeans).bind ?_
    intro f ts _ hMeansVar
    unfold Affine.Constraint.admits at hMet
    split
    · rename_i hEquality
      rw [if_pos hEquality, beq_iff_eq] at hMet
      exact ensures_addEquality (hMet ▸ hMeansVar)
    · rename_i hInequality
      rw [if_neg hInequality, decide_eq_true_iff] at hMet
      exact ensures_addInequality hMeansVar hMet

/- A lineage starts with the operation itself. -/
theorem ops_lineageUpTo (levels : Nat) (h : OpId) :
    ∃ outer, (g.lineageUpTo levels h).ops = h :: outer := by
  cases levels with
  | zero => exact ⟨[], rfl⟩
  | succ levels =>
    rw [lineageUpTo]
    split
    · exact ⟨[], rfl⟩
    · rename_i s hSite
      have hHere : s.op = h := by
        obtain ⟨block, _, hRest⟩ := bind_eq_ok.mp hSite
        obtain ⟨blk, _, hPure⟩ := bind_eq_ok.mp hRest
        cases hPure
        rfl
      split
      · exact ⟨[], by simp [Lineage.ops, hHere]⟩
      · split
        · exact ⟨[], by simp [Lineage.ops, hHere]⟩
        · exact ⟨_, by rw [Lineage.ops, map_cons, cons_append, hHere]⟩

/- The place of an operation, and the operation around it. -/
theorem place_of_site {r : Region} (hSite : g.site h = .ok s) (hRegion : g.region s.region = .ok r)
    (hParent : r.parent = some c) :
    g.parentBlock s.op = .ok s.block ∧ g.parentOp? s.op = .ok (some c) := by
  obtain ⟨block, hBlock, hRest⟩ := bind_eq_ok.mp hSite
  obtain ⟨blk, hBlk, hPure⟩ := bind_eq_ok.mp hRest
  cases hPure
  refine ⟨hBlock, ?_⟩
  have hPlace : g.parentRegion h = .ok blk.parent :=
    bind_eq_ok.mpr ⟨block, hBlock, bind_eq_ok.mpr ⟨blk, hBlk, rfl⟩⟩
  exact bind_eq_ok.mpr ⟨_, hPlace,
    bind_eq_ok.mpr ⟨r, hRegion, congrArg Except.ok hParent⟩⟩

/- The places of a lineage, and the operations around them. -/
theorem place_of_mem_lineageUpTo
    (hMem : (s, c) ∈ (g.lineageUpTo levels h).sites.zip ((g.lineageUpTo levels h).ops.drop 1)) :
    g.parentBlock s.op = .ok s.block ∧ g.parentOp? s.op = .ok (some c) := by
  induction levels generalizing h with
  | zero => cases hMem
  | succ levels ih =>
    rw [lineageUpTo] at hMem
    split at hMem
    · cases hMem
    · rename_i site hSite
      split at hMem
      · simp [Lineage.ops] at hMem
      · rename_i r hRegion
        split at hMem
        · simp [Lineage.ops] at hMem
        · rename_i p hParent
          obtain ⟨outer, hOps⟩ := ops_lineageUpTo (g := g) levels p
          have hZip : (s, c) ∈ (site :: (g.lineageUpTo levels p).sites).zip
              (g.lineageUpTo levels p).ops := hMem
          rw [hOps, zip_cons_cons] at hZip
          rcases mem_cons.mp hZip with hHere | hOuter
          · cases hHere
            exact place_of_site hSite hRegion hParent
          · exact ih (h := p) (by rwa [hOps])

/- The guards around an operation are met. -/
theorem ensures_addGuards {l : Lineage} {pairs : List (Site × OpId)}
    (hSpeaks : g.Speaks nests side e val) (hConsistent : g.Consistent e)
    (hGuards : ∀ s c o set, (s, c) ∈ pairs → g.op c = .ok o →
      o.kind = .conditional set → g.thenBlock c = .ok s.block → e.Admits set o.operands) :
    Ensures val qs (g.addGuards nests side l pairs) fun _ _ => True := by
  induction pairs generalizing qs with
  | nil => exact ensures_ask.mono fun _ _ _ => trivial
  | cons pair pairs ih =>
    rw [addGuards]
    refine ensures_ask.bind ?_
    intro o ps _ hOp
    have hRest : ∀ rs, Ensures val rs (g.addGuards nests side l pairs)
        fun _ _ => True := fun rs => ih fun s c o set hMem =>
      hGuards s c o set (mem_cons_of_mem _ hMem)
    split
    · exact ensures_pure trivial
    · dsimp only
      split
      · rename_i set hKind
        refine ensures_ask.bind ?_
        intro b rs _ hBlock
        split
        · rename_i hSame
          exact (ensures_addCondition hSpeaks hConsistent
            (hGuards pair.1 pair.2 o set mem_cons_self hOp hKind
              (hSame ▸ hBlock))).bind fun _ ts _ _ => hRest ts
        · exact hRest rs
      · exact hRest ps

theorem op_of_access? (hAccess : g.access? h = .ok (some access)) : access.op = h := by
  obtain ⟨o, _, hAccess⟩ := bind_eq_ok.mp hAccess
  split at hAccess
  · cases hAccess
  · obtain ⟨operands, _, hAccess⟩ := bind_eq_ok.mp hAccess
    obtain ⟨indices, _, hAccess⟩ := bind_eq_ok.mp hAccess
    obtain ⟨memref, _, rfl⟩ := Option.map_eq_some_iff.mp (pure_eq_ok.mp hAccess)
    rfl

/- The forms of the indices of an access have the exact values. -/
theorem Visit.indices (hVisit : g.Visit e h element) (hAccess : g.access? h = .ok (some access)) :
    List.Forall₂ (fun index w => ∀ form, index = some form → form.Means e w)
      access.indices element := by
  obtain ⟨o, map, operands, hOp, hMap, hIndices, hValues⟩ := hVisit.touches
  exact hVisit.consistent.respects.forall₂_of_access? hAccess hOp hMap hIndices hValues

theorem ensures_addEqualIndices {sources targets : List (Option ValueForm)}
    (hFirst : g.Speaks nests .source first val) (hSecond : g.Speaks nests .target second val)
    (hSources : List.Forall₂ (fun index w => ∀ form : ValueForm,
      index = some form → form.Means first w) sources element)
    (hTargets : List.Forall₂ (fun index w => ∀ form : ValueForm,
      index = some form → form.Means second w) targets element) :
    Ensures val qs (g.addEqualIndices nests (sources.zip targets)) fun _ _ => True := by
  induction hSources generalizing qs targets with
  | nil =>
    cases hTargets
    exact ensures_pure trivial
  | @cons s w sources element hSource _ ih =>
    rcases hTargets with _ | ⟨hTarget, hRest⟩
    rename_i t targets
    rw [zip_cons_cons, addEqualIndices]
    refine ensures_need.bind ?_
    intro source ps _ hSome
    refine ensures_need.bind ?_
    intro target rs _ hSome'
    refine (hFirst.ensures_formOf (hSource source hSome)).bind ?_
    intro left ts _ hLeft
    refine (hSecond.ensures_formOf (hTarget target hSome')).bind ?_
    intro right us hMore hRight
    refine (ensures_needForm fun f hSome => (hLeft.mono hMore).sub? hRight hSome).bind ?_
    intro difference vs _ hDifference
    rw [sub_self] at hDifference
    refine (ensures_addEquality hDifference).bind ?_
    intro _ ws _ _
    exact ih hRest

theorem ensures_addOrder {pairs : List (OpId × Nat)} (hFirst : g.Speaks nests .source first val)
    (hSecond : g.Speaks nests .target second val)
    (hOrder : ∀ l level v, (l, level) ∈ pairs → g.inductionVar l = .ok v →
      ∃ m n, first v = some m ∧ second v = some n ∧ if level + 1 < depth then m = n else m < n) :
    Ensures val qs (g.addOrder nests depth pairs) fun _ _ => True := by
  induction pairs generalizing qs with
  | nil => exact ensures_pure trivial
  | cons pair pairs ih =>
    rw [addOrder]
    refine ensures_ask.bind ?_
    intro v ps _ hVar
    obtain ⟨m, n, hBefore, hAfter, hCompare⟩ := hOrder pair.1 pair.2 v mem_cons_self hVar
    refine (hFirst.ensures_varOf v).bind ?_
    intro source rs _ hSource
    refine (hSecond.ensures_varOf v).bind ?_
    intro target ts hMore hTarget
    refine (ensures_needForm fun f hSome => (hTarget n hAfter).sub?
      ((hSource m hBefore).mono hMore) hSome).bind ?_
    intro difference us _ hDifference
    have hRest : ∀ ws, Ensures val ws (g.addOrder nests depth pairs)
        fun _ _ => True := fun ws => ih fun l level v hMem =>
      hOrder l level v (mem_cons_of_mem _ hMem)
    split
    · rename_i hAbove
      rw [if_pos hAbove] at hCompare
      rw [hCompare, sub_self] at hDifference
      exact (ensures_addEquality hDifference).bind fun _ ws _ _ => hRest ws
    · rename_i hAt
      rw [if_neg hAt] at hCompare
      refine (ensures_needForm fun f hSome => hDifference.offset? hSome).bind ?_
      intro less vs _ hLess
      exact (ensures_addInequality hLess (by omega)).bind fun _ ws _ _ => hRest ws

------
-- Two visits
------

/- Numbers for both sides; shared values come from either visit. -/
def jointNumber (first second : Assignment) : Side → ValueId → Int
  | .source, v => (first v).getD 0
  | .target, v => (second v).getD 0
  | .shared, v => ((first v).or (second v)).getD 0

section TwoVisits

/- A value that no loop of the nests defines is not defined in them. -/
theorem not_definedIn (hOutside : g.isDefinedInNest nests v = .ok false) :
    ∀ l ∈ nests.sourceLoops ++ nests.targetLoops, ¬g.DefinedIn l v := by
  rintro l hMem ⟨holder, hHolder, hAncestor⟩
  unfold isDefinedInNest at hOutside
  obtain ⟨found, hFound, hAny⟩ := bind_eq_ok.mp hOutside
  cases hHolder.symm.trans hFound
  dsimp only at hAny
  generalize nests.sourceLoops ++ nests.targetLoops = loops at hAny hMem
  induction loops with
  | nil => cases hMem
  | cons k loops ih =>
    rw [anyM_cons] at hAny
    obtain ⟨isHere, hHere, hAny⟩ := bind_eq_ok.mp hAny
    cases isHere with
    | true => cases hAny
    | false =>
      rcases mem_cons.mp hMem with rfl | hIn
      · cases hAncestor.symm.trans hHere
      · exact ih hAny hIn

/- A value belongs to its side, or to both and then to no loop. -/
theorem sideOf_cases {side' : Side} (hSide : g.sideOf nests side v = .ok side') :
    side' = side ∨ side' = .shared ∧ g.isDefinedInNest nests v = .ok false := by
  unfold sideOf at hSide
  obtain ⟨isInduction, _, hSide⟩ := bind_eq_ok.mp hSide
  split at hSide
  · exact .inl (pure_eq_ok.mp hSide).symm
  · obtain ⟨isDefined, hDefined, hSide⟩ := bind_eq_ok.mp hSide
    split at hSide
    · exact .inl (pure_eq_ok.mp hSide).symm
    · rename_i hOutside
      rw [Bool.not_eq_true] at hOutside
      subst hOutside
      exact .inr ⟨(pure_eq_ok.mp hSide).symm, hDefined⟩

theorem speaks_source : g.Speaks nests .source first (jointNumber first second) := by
  intro v n side' hValue hSide
  rcases sideOf_cases hSide with rfl | ⟨rfl, _⟩ <;> simp [jointNumber, hValue]

theorem speaks_target (hAgree : g.AgreeOutside nests first second) :
    g.Speaks nests .target second (jointNumber first second) := by
  intro v n side' hValue hSide
  rcases sideOf_cases hSide with rfl | ⟨rfl, hOutside⟩
  · simp [jointNumber, hValue]
  · rcases hFirst : first v with _ | m
    · simp [jointNumber, hFirst, hValue]
    · simp [jointNumber, hFirst, hAgree hFirst hValue (not_definedIn hOutside)]

theorem ensures_addGuardsOf (hSpeaks : g.Speaks nests side e val) (hVisit : g.Visit e h element) :
    Ensures val qs (g.addGuardsOf nests side h) fun _ _ => True := by
  refine ensures_addGuards hSpeaks hVisit.consistent ?_
  intro s c o set hMem hOp hKind hBlock
  have hSite : s ∈ (g.lineage h).sites := (of_mem_zip hMem).1
  obtain ⟨hParent, hHolder⟩ := place_of_mem_lineageUpTo hMem
  have hAncestor : g.isAncestor s.op h = .ok true := by
    unfold isAncestor
    rw [if_pos]
    exact mem_append_left _ (mem_map_of_mem hSite)
  exact hVisit.guards hOp hKind hBlock hParent hHolder hAncestor

/- The whole system is solved by two visits in order. -/
theorem ensures_addDependence (hSource : g.access? x = .ok (some source))
    (hTarget : g.access? y = .ok (some target))
    (hSourceLoops : g.enclosingLoops x = .ok nests.sourceLoops)
    (hTargetLoops : g.enclosingLoops y = .ok nests.targetLoops) (hFirst : g.Visit first x element)
    (hSecond : g.Visit second y element) (hAgree : g.AgreeOutside nests first second)
    (hBefore : g.Before (nests.sourceLoops.take numCommon) depth first second) :
    Ensures (jointNumber first second) [] (g.addDependence nests source target numCommon depth)
      fun _ _ => True := by
  have hSpeaksFirst : g.Speaks nests .source first (jointNumber first second) := speaks_source
  have hSpeaksSecond := speaks_target hAgree
  refine (ensures_forM fun l hMem ps _ => ensures_addLoop hSpeaksFirst
    hFirst.consistent (hFirst.bounds hSourceLoops hMem)).bind ?_
  intro _ qs₁ _ _
  refine (ensures_forM fun l hMem ps _ => ensures_addLoop hSpeaksSecond
    hSecond.consistent (hSecond.bounds hTargetLoops hMem)).bind ?_
  intro _ qs₂ _ _
  rw [op_of_access? hSource, op_of_access? hTarget]
  refine (ensures_addGuardsOf hSpeaksFirst hFirst).bind ?_
  intro _ qs₃ _ _
  refine (ensures_addGuardsOf hSpeaksSecond hSecond).bind ?_
  intro _ qs₄ _ _
  refine (ensures_addEqualIndices hSpeaksFirst hSpeaksSecond
    (hFirst.indices hSource) (hSecond.indices hTarget)).bind ?_
  intro _ qs₅ _ _
  apply ensures_addOrder hSpeaksFirst hSpeaksSecond
  intro l level v hMem hVar
  have hAt := mem_zipIdx_iff_getElem?.mp hMem
  have hInside := (List.getElem?_eq_some_iff.mp hAt).1
  rw [length_take] at hInside
  rw [List.getElem?_take_of_lt (by omega)] at hAt
  apply hBefore _ (by omega) hVar
  rwa [List.getElem?_take_of_lt (by omega)]

/- A system that is solved while it is built has a solution. -/
theorem holds_of_ensures {system : ConstraintSystem}
    (hBuilt : Ensures val [] (g.addDependence nests source target numCommon depth) fun _ _ => True)
    (hSystem : g.dependenceSystem nests source target numCommon depth =
      .ok system) : ∃ point, system.Holds point := by
  obtain ⟨⟨_, b⟩, hRun, hPure⟩ := bind_eq_ok.mp hSystem
  cases hPure
  obtain ⟨qs, _, hSolves, _⟩ := hBuilt (solves_empty _) hRun
  exact ⟨_, hSolves.holds⟩

/-
  Two visits that touch the same element, the source's first at
  a loop depth, solve the system of this depth.  Values from
  outside both nests have to be the same in both visits.
-/
theorem dependenceSystem_solvable
    {x y : OpId} {source target : Access} {element : List Int} {numCommon depth : Nat}
    {system : ConstraintSystem} (hSource : g.access? x = .ok (some source))
    (hTarget : g.access? y = .ok (some target))
    (hSourceLoops : g.enclosingLoops x = .ok nests.sourceLoops)
    (hTargetLoops : g.enclosingLoops y = .ok nests.targetLoops) (hFirst : g.Visit first x element)
    (hSecond : g.Visit second y element) (hAgree : g.AgreeOutside nests first second)
    (hBefore : g.Before (nests.sourceLoops.take numCommon) depth first second)
    (hSystem : g.dependenceSystem nests source target numCommon depth = .ok system) :
    ∃ point, system.Holds point := by
  have hBuilt := ensures_addDependence hSource hTarget hSourceLoops
    hTargetLoops hFirst hSecond hAgree hBefore
  exact holds_of_ensures hBuilt hSystem

end TwoVisits

/-
  A loop over every second element of a buffer that stores to
  its element and, behind the first one, loads the one before.
-/
def strideGraph : Graph where
  ops := {
    slots := #[some {
        kind := .loop (.ofConstant 0) (.ofConstant 8) 2
        regions := [⟨1⟩]
        parent := some ⟨0⟩ },
      some {
        kind := .apply ⟨1, 0, [.add (.dim 0) (.constant (-2))]⟩
        operands := [⟨2⟩]
        results := [⟨3⟩]
        parent := some ⟨1⟩ },
      some {
        kind := .affineStore (.identity 1)
        operands := [⟨1⟩, ⟨0⟩, ⟨2⟩]
        parent := some ⟨1⟩ },
      some {
        kind := .conditional ⟨1, 0, [⟨.add (.dim 0) (.constant (-1)), false⟩]⟩
        operands := [⟨2⟩]
        regions := [⟨2⟩]
        parent := some ⟨1⟩ },
      some {
        kind := .affineLoad (.identity 1)
        operands := [⟨0⟩, ⟨3⟩]
        results := [⟨4⟩]
        parent := some ⟨2⟩ }]
    live := 5 }
  blocks := {
    slots := #[some { args := [⟨0⟩, ⟨1⟩], ops := [⟨0⟩], parent := ⟨0⟩ },
      some { args := [⟨2⟩], ops := [⟨1⟩, ⟨2⟩, ⟨3⟩], parent := ⟨1⟩ },
      some { ops := [⟨4⟩], parent := ⟨2⟩ }]
    live := 3 }
  regions := {
    slots := #[some { blocks := [⟨0⟩] }, some { blocks := [⟨1⟩], parent := some ⟨0⟩ },
      some { blocks := [⟨2⟩], parent := some ⟨3⟩ }]
    live := 3 }
  values := {
    slots := #[some { ty := .memref [8] .i32, definer := .argument ⟨0⟩ 0 },
      some { ty := .i32, definer := .argument ⟨0⟩ 1 },
      some { ty := .index, definer := .argument ⟨1⟩ 0 },
      some { ty := .index, definer := .result ⟨1⟩ 0 },
      some { ty := .i32, definer := .result ⟨4⟩ 0 }]
    live := 5 }

/- The loop variable of the graph, and the index that it gives. -/
def strideAssignment (n : Int) : Assignment
  | ⟨2⟩ => some n
  | ⟨3⟩ => some (n - 2)
  | _ => none

/- An iteration of the loop visits an access. -/
theorem visit_strideGraph (hPos : 1 ≤ n) (hLess : n < 8) (hEven : 2 ∣ n)
    (hLoops : strideGraph.enclosingLoops h = .ok [⟨0⟩])
    (hTouches : ∃ o map operands, strideGraph.op h = .ok o ∧
      o.kind.accessMap? = some map ∧ o.accessIndices = .ok operands ∧
      (strideAssignment n).values? map operands = some element) :
    strideGraph.Visit (strideAssignment n) h element where
  consistent := by
    constructor
    · intro v h o literal c m ty hDefiner hOp hKind
      rcases h with ⟨_ | _ | _ | _ | _ | k⟩ <;> cases hOp <;> cases hKind
    · intro v h o map expr m hDefiner hOp hKind hSingle hValue
      rcases v with ⟨_ | _ | _ | _ | _ | k⟩ <;> cases hDefiner <;> cases hOp <;> cases hKind
      cases hSingle
      cases hValue
      rfl
  bounds := by
    intro loops l hSome hMem
    cases hLoops.symm.trans hSome
    cases mem_singleton.mp hMem
    intro o lower upper step v lows ups hOp hKind hVar hLows hUps
    cases hOp
    cases hKind
    cases hVar
    cases hLows
    cases hUps
    refine ⟨n, [0], [8], rfl, rfl, rfl, ?_, ?_, ?_⟩
    · simpa using (by omega : 0 ≤ n)
    · simpa using hLess
    · rintro c hSingle _
      cases hSingle
      simpa using hEven
  guards := by
    intro c z b o set hOp hKind
    rcases c with ⟨_ | _ | _ | _ | _ | k⟩ <;> cases hOp <;> cases hKind
    intro _ _ _ _
    refine ⟨[n], rfl, rfl, ?_⟩
    intro c hMem
    cases mem_singleton.mp hMem
    refine ⟨n + -1, rfl, ?_⟩
    simpa [Affine.Constraint.admits] using hPos
  touches := hTouches

/- The store and the load of the loop. -/
def strideStore : Access := ⟨⟨2⟩, ⟨0⟩, true, [some ⟨[(⟨2⟩, 1)], 0⟩]⟩

def strideLoad : Access := ⟨⟨4⟩, ⟨0⟩, false, [some ⟨[(⟨2⟩, 1)], -2⟩]⟩

/- The element stored when the variable is 2 is loaded when it is 4. -/
theorem dependenceSystem_solvable_strideGraph :
    ∃ system, strideGraph.dependenceSystem ⟨[⟨0⟩], [⟨0⟩]⟩ strideStore strideLoad 1 1 = .ok system ∧
      ∃ point, system.Holds point := by
  have hBuilt : (strideGraph.dependenceSystem ⟨[⟨0⟩], [⟨0⟩]⟩ strideStore
      strideLoad 1 1).toOption.isSome = true := by decide +kernel
  rcases hSystem : strideGraph.dependenceSystem ⟨[⟨0⟩], [⟨0⟩]⟩ strideStore
    strideLoad 1 1 with obstacle | system
  · rw [hSystem] at hBuilt
    cases hBuilt
  have hStore : strideGraph.Visit (strideAssignment 2) ⟨2⟩ [2] :=
    visit_strideGraph (by omega) (by omega) (by omega) rfl ⟨_, _, _, rfl, rfl, rfl, rfl⟩
  have hLoad : strideGraph.Visit (strideAssignment 4) ⟨4⟩ [2] :=
    visit_strideGraph (by omega) (by omega) (by omega) rfl ⟨_, _, _, rfl, rfl, rfl, rfl⟩
  refine ⟨system, rfl, dependenceSystem_solvable rfl rfl rfl rfl hStore hLoad ?_ ?_ hSystem⟩
  -- Both assigned values are defined in the loop.
  · intro v m n hFirst hSecond hOutside
    exfalso
    obtain ⟨_ | _ | _ | _ | k⟩ := v
    · cases hFirst
    · cases hFirst
    · exact hOutside ⟨0⟩ mem_cons_self ⟨⟨0⟩, rfl, rfl⟩
    · exact hOutside ⟨0⟩ mem_cons_self ⟨⟨1⟩, rfl, rfl⟩
    · cases hFirst
  · intro level l v hAt hLevel hVar
    cases Nat.lt_one_iff.mp hLevel
    cases hAt
    cases hVar
    exact ⟨2, 4, rfl, rfl, by decide⟩

end Graph

end AffineIR
