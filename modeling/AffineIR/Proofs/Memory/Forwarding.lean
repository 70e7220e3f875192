import AffineIR.Proofs.Memory.Interference
import AffineIR.Proofs.Memory.Sources
import AffineIR.Proofs.Run.Returning

/-
  Loads that are replaced.

  A load that forwarding replaces takes the value of a store or
  of another load to the same element.  In a run, the source is
  executed last before the load and from then on nothing writes
  to the element.  So the load finds what was stored there, or
  what the other load has found.

  Main result: `Function.loaded_eq_replacement`
-/

namespace AffineIR

open Answer List Option

------
-- Elements between a source and a load
------

namespace Act

variable {a : Act} {σ σ' : Store} {place : Nat × Nat} {l : Literal}

/- A store puts the datum of its first operand into an element. -/
theorem store_of_step (hStore : a.kind.isStore = true) (hStep : a.step σ = some σ') :
    ∃ v l place, a.operands[0]? = some v ∧ σ.env v = some (.scalar l) ∧
      a.place? σ = some place ∧ σ'.element? place = some l := by
  cases effect_of_step hStep with
  | @write v l place hKind hOperand hScalar hPlace hThere =>
    refine ⟨v, l, place, hOperand, ?_, hPlace, ?_⟩
    · obtain ⟨d, hEnv, hDatum⟩ := bind_eq_some_iff.mp hScalar
      cases d with
      | scalar l' =>
        cases hDatum
        exact hEnv
      | buffer id => cases hDatum
    · obtain ⟨old, hOld⟩ := isSome_iff_exists.mp hThere
      obtain ⟨b, hBuffer, hData⟩ := bind_eq_some_iff.mp hOld
      unfold Store.element? Store.setElement
      rw [Array.getElem?_modify, if_pos rfl, hBuffer]
      exact Array.getElem?_setIfInBounds_self_of_lt (Array.getElem?_eq_some_iff.mp hData).1
  | value hKind => cases hK : a.kind <;> simp_all [Kind.isStore, Kind.isValue]
  | skip hKind | alloc hKind | free hKind => simp [hKind, Kind.isStore] at hStore

/- A load gives an element to its result. -/
theorem load_of_step (hLoad : a.kind.isLoad = true) (hStep : a.step σ = some σ') :
    ∃ v l place, a.results[0]? = some v ∧ a.place? σ = some place ∧
      σ.element? place = some l ∧ σ' = σ.assign v (.scalar l) := by
  cases effect_of_step hStep with
  | @value d v hKind hValue hResult =>
    rw [value?_of_isLoad hLoad] at hValue
    obtain ⟨place, hPlace, hValue⟩ := bind_eq_some_iff.mp hValue
    obtain ⟨l, hElement, rfl⟩ := map_eq_some_iff.mp hValue
    exact ⟨v, l, place, hResult, hPlace, hElement, rfl⟩
  | write hKind => cases hK : a.kind <;> simp_all [Kind.isStore, Kind.isLoad]
  | skip hKind | alloc hKind | free hKind => simp [hKind, Kind.isLoad] at hLoad

theorem exists_place_of_step (hAccess : a.kind.isStore = true ∨ a.kind.isLoad = true)
    (hStep : a.step σ = some σ') : ∃ place, a.place? σ = some place := by
  rcases hAccess with hStore | hLoad
  · obtain ⟨_, _, place, _, _, hPlace, _⟩ := store_of_step hStore hStep
    exact ⟨place, hPlace⟩
  · obtain ⟨_, _, place, _, hPlace, _⟩ := load_of_step hLoad hStep
    exact ⟨place, hPlace⟩

theorem mem_bound_of_load {v : ValueId} (hLoad : a.kind.isLoad = true)
    (hResult : a.results[0]? = some v) : v ∈ a.bound := by
  have hValue : a.kind.isValue = true := by
    cases hKind : a.kind <;> simp_all [Kind.isLoad, Kind.isValue]
  unfold bound
  rw [if_pos (.inl hValue)]
  refine mem_of_getElem? (i := 0) ?_
  rwa [List.getElem?_take_of_lt (Nat.zero_lt_one)]

/- Elements change by stores to them only. -/
theorem element_of_step (hStep : a.step σ = some σ')
    (hApart : a.kind.isStore = true → a.place? σ ≠ some place)
    (hElement : σ.element? place = some l) : σ'.element? place = some l := by
  obtain ⟨b, hBuffer, hData⟩ := bind_eq_some_iff.mp hElement
  by_cases hFreed : a.freed? σ = some place.1
  · cases effect_of_step hStep with
    | value => exact hElement
    | skip => exact hElement
    | write hKind =>
      unfold freed? at hFreed
      split at hFreed
      next hDealloc => simp [hDealloc, Kind.isStore] at hKind
      next => cases hFreed
    | alloc hKind =>
      unfold freed? at hFreed
      split at hFreed
      next hDealloc => cases hKind.symm.trans hDealloc
      next => cases hFreed
    | @free id hKind hFreed' =>
      cases hFreed.symm.trans hFreed'
      unfold Store.element? Store.setFreed
      rwa [Array.getElem?_modify, if_pos rfl, hBuffer]
  · have hSame : σ.SamePlace σ' place := samePlace_of_step hStep fun hTouches =>
      hTouches.elim (fun hStore => hApart hStore.1 hStore.2) hFreed
    obtain ⟨b', hBuffer', _, _, hData'⟩ := hSame b hBuffer
    exact bind_eq_some_iff.mpr ⟨b', hBuffer', hData'.trans hData⟩

end Act

/- No store to an element is in a trace. -/
def Trace.Spares (t : Trace) (place : Nat × Nat) : Prop :=
  ∀ e ∈ t, e.1.kind.isStore = true → e.1.place? e.2 ≠ some place

namespace Prog

variable {p q rest : Prog} {w w₀ w₁ : List Mark} {t t₀ : Trace} {σ σ₀ σ₁ τ : Store} {a b : Act}
  {place : Nat × Nat}

/- An element that no store goes to is as it was. -/
theorem along_element (p : Prog) (place : Nat × Nat) (l : Literal) :
    p.Along fun σ t τ => t.Spares place → σ.element? place = some l →
      τ.element? place = some l where
  refl _ _ := id
  trans hFirst hSecond hSpares hElement :=
    hSecond (fun e hMem => hSpares e (mem_append_right _ hMem))
      (hFirst (fun e hMem => hSpares e (mem_append_left _ hMem)) hElement)
  head _ _ _ := id
  step _ hStep hSpares := Act.element_of_step hStep (hSpares _ (mem_singleton_self _))
  count _ _ _ _ := id

/- A way to a statement starts at one. -/
theorem Leads.exists_head (hLeads : p.Leads w q)
    (hHead : q.head? = some b) : ∃ a, p.head? = some a := by
  cases p with
  | nil =>
    cases hLeads
    cases hHead
  | act a rest | loop a var body rest | cond a branch rest => exact ⟨a, rfl⟩

/- Arriving just behind an action is taking its step. -/
theorem Arrives.step_of_past (hNodup : p.ids.Nodup) (hPart : p.Leads w₀ (.act a rest))
    (hArrives : p.Arrives σ w (t₀ ++ [(a, σ₀)]) rest σ₁)
    (hHead : rest.head? = some b) : a.step σ₀ = some σ₁ := by
  have hBehind := mem_ids_of_head hHead
  rcases hArrives.split hNodup hPart hHead (mem_cons_of_mem _ hBehind) with
    ⟨t₁, σ', w₂, t₂, _, hTrace, _, hRest⟩
  have hIds := nodup_cons.mp (hNodup.sublist hPart.sublist_ids)
  cases hRest with
  | act hStep hRest =>
    obtain ⟨rfl, _⟩ := hRest.leads.unique hIds.2 (.here rest) hHead hHead rfl
    obtain ⟨rfl, rfl⟩ := hRest.once hIds.2 (.here rest _) hHead rfl
    cases (append_inj' hTrace rfl).2
    exact hStep

end Prog

namespace Function

open Prog

variable {f : Function} {params : List ValueId} {b : BlockId} {blk : Block} {xs : List OpId}
  {p q q₀ : Prog} {x : OpId} {o o' : Operation} {w w₀ w₁ : List Mark} {t t₀ t₁ : Trace}
  {σ σ₀ τ : Store} {a a₀ : Act} {place place₀ : Nat × Nat} {source : OpId}

/- What is not control flow has nothing inside it. -/
theorem Whole.eq_act (hWhole : f.Whole params b blk xs p x o) (hLeads : p.Leads w q)
    (hHead : q.head? = some a) (hKind : a.kind.isControl = false) : ∃ rest, q = .act a rest := by
  obtain ⟨_, _, _, hThere⟩ := hWhole.part.leads hLeads hHead
  cases hThere.unfolds with
  | nil => cases hHead
  | act =>
    cases hHead
    exact ⟨_, rfl⟩
  | loop hOp hParent hLoop =>
    cases hHead
    cases hKind.symm.trans (congrArg Kind.isControl hLoop)
  | cond hOp hParent hCond =>
    cases hHead
    cases hKind.symm.trans (congrArg Kind.isControl hCond)

/-
  An action that dominates a statement stands before it, or
  before something around it, in the same block.
-/
theorem Whole.before_of_dominates {c c' : DominanceCache} (hWhole : f.Whole params b blk xs p x o)
    (hLeads : p.Leads w q) (hHead : q.head? = some a) (hOp : f.graph.op source = .ok o')
    (hKind : o'.kind.isControl = false) (hOther : source ≠ a.op)
    (hDirection : c.direction = .forward)
    (hDominates : (f.graph.dominates source a.op).run c = .ok (true, c')) :
    ∃ z, f.graph.isBefore source z = .ok true ∧ f.graph.isAncestor z a.op = .ok true := by
  obtain ⟨_, _, _, hThere⟩ := hWhole.part.leads hLeads hHead
  obtain ⟨hReached, hRises, _⟩ := hThere.first hHead
  unfold Graph.dominates Graph.properlyDominates Graph.properlyDominatesOr at hDominates
  rw [if_neg hOther, if_neg hOther] at hDominates
  obtain ⟨r, hRegion, hDominates⟩ := run_lift_bind_eq_ok.mp hDominates
  obtain ⟨lifted, hLifted, hDominates⟩ := run_lift_bind_eq_ok.mp hDominates
  cases lifted with
  | none => cases hDominates
  | some z =>
    obtain ⟨_, hFound, hOnly⟩ := hRises.ancestorInRegion
    cases hFound.symm.trans hLifted
    obtain ⟨hMem, hSite⟩ := (hOnly z).mp rfl
    have hAncestor := hRises.isAncestor_iff.mpr hMem
    rw [append_nil, mem_cons, mem_reverse] at hMem
    obtain ⟨w₁, q₁, a₁, hLeads₁, hHead₁, rfl, hInner⟩ := hLeads.around hHead hMem
    obtain ⟨b₂, blk₂, _, hThere₁⟩ := hWhole.part.leads hLeads₁ hHead₁
    obtain ⟨_, _, hSits, o₁, hOp₁, hAct₁⟩ := hThere₁.first hHead₁
    dsimp only at hDominates
    split at hDominates
    next hSame =>
      -- Nothing stands inside the source.
      subst hSame
      cases hOp.symm.trans hOp₁
      rcases mem_cons.mp hInner with hSame | hInner
      · exact absurd hSame.symm hOther
      obtain ⟨rest, rfl⟩ := hWhole.eq_act hLeads₁ hHead₁ (hAct₁ ▸ hKind)
      cases hInner
    next =>
      obtain ⟨blockA, hBlockA, hDominates⟩ := run_lift_bind_eq_ok.mp hDominates
      obtain ⟨blockB, hBlockB, hDominates⟩ := run_lift_bind_eq_ok.mp hDominates
      split at hDominates
      next =>
        obtain ⟨_, _, hGet, hDominates⟩ := run_bind_eq_ok.mp hDominates
        cases hGet
        rw [hDirection] at hDominates
        exact ⟨a₁.op, (run_lift_eq_ok.mp hDominates).1, hAncestor⟩
      next hApart =>
        -- The region has one block only.
        refine absurd ?_ hApart
        obtain ⟨_, hBlock, hRegion⟩ := bind_eq_ok.mp hRegion
        cases hBlockA.symm.trans hBlock
        obtain ⟨blkA, hBlkA, hRegion⟩ := bind_eq_ok.mp hRegion
        obtain ⟨_, hParent, hSite⟩ := bind_eq_ok.mp hSite
        cases hSits.parentBlock.symm.trans hBlockB
        cases hSits.parentBlock.symm.trans hParent
        obtain ⟨_, hBlock₂, hSite⟩ := bind_eq_ok.mp hSite
        cases hThere₁.home.block.symm.trans hBlock₂
        cases pure_eq_ok.mp hSite
        obtain ⟨reg, hReg, hSingle⟩ := hThere₁.home.region
        have hIn := hWhole.tidy.mem_blocks hBlkA ((pure_eq_ok.mp hRegion) ▸ hReg)
        rw [hSingle] at hIn
        exact mem_singleton.mp hIn

section

variable (hWhole : f.Whole params b blk xs p x o) (hStart : p.Arrives σ w₀ t₀ q₀ σ₀)

include hWhole hStart

/- Values that are seen at a statement are the same behind it. -/
theorem Whole.env_of_visible {v : ValueId} (hArrives : q₀.Arrives σ₀ w t q τ)
    (hVisible : v ∈ params ∨ Visible w₀ v) : τ.env v = σ₀.env v := by
  refine env_of_arrives ?_ hArrives
  rcases hVisible with hParam | ⟨k, hMark, hBound⟩
  · exact fun hBinds => hWhole.not_binds_param hParam (hStart.leads.binds hBinds)
  · exact hStart.leads.fresh hWhole.wellScoped hMark (.inr hBound)

/- So are the operands of the statement. -/
theorem Whole.env_of_operand {v : ValueId} (hHead₀ : q₀.head? = some a₀)
    (hArrives : q₀.Arrives σ₀ w t q τ) (hMem : v ∈ a₀.operands) : τ.env v = σ₀.env v := by
  refine env_of_arrives (fun hBinds => ?_) hArrives
  have hScoped := hStart.leads.scoped hWhole.wellScoped
  exact hScoped.not_needs hBinds (needs_of_head hHead₀ hMem)

theorem Whole.seen_agree {v : ValueId} {m n : Int} (hArrives : q₀.Arrives σ₀ w t q τ)
    (hFirst : seen params w₀ σ₀ v = some m) (hSecond : seen params w₁ τ v = some n) : m = n := by
  obtain ⟨hVisible, hInt⟩ := int?_of_seen hFirst
  obtain ⟨_, hInt'⟩ := int?_of_seen hSecond
  have hEnv := hWhole.env_of_visible hStart hArrives hVisible
  unfold Store.int? Store.scalar? at hInt hInt'
  rw [hEnv] at hInt'
  exact Option.some.inj (hInt.symm.trans hInt')

end

end Function

namespace Function

open Prog

variable {f : Function} {params : List ValueId} {b : BlockId} {blk : Block} {xs : List OpId}
  {p q q₀ : Prog} {x : OpId} {o o' : Operation} {w w₀ w₁ : List Mark} {t t₀ t₁ : Trace}
  {σ σ₀ τ : Store} {a a₀ : Act} {place place₀ : Nat × Nat} {source : OpId}

/- A source and a load access one element. -/
theorem Whole.eq_place {access target : Access} (hWhole : f.Whole params b blk xs p x o)
    (hWithin : σ.Within params p) (hStart : p.Arrives σ w₀ t₀ q₀ σ₀) (hHead₀ : q₀.head? = some a₀)
    (hArrives : q₀.Arrives σ₀ w t q τ) (hHead : q.head? = some a)
    (hAccess : f.graph.access? a₀.op = .ok (some access))
    (hTarget : f.graph.access? a.op = .ok (some target)) (hSame : access.sameElement target = true)
    (hPlace₀ : a₀.place? σ₀ = some place₀) (hPlace : a.place? τ = some place) : place₀ = place := by
  have hHere := hStart.trans hArrives
  unfold Access.sameElement at hSame
  rw [Bool.and_eq_true, Bool.and_eq_true] at hSame
  obtain ⟨⟨hMemref, hRank⟩, hIndices⟩ := hSame
  obtain ⟨memref, hMemref₀, hSlot₀⟩ := bind_eq_some_iff.mp hPlace₀
  obtain ⟨is, hIndices₀, hSlot₀⟩ := bind_eq_some_iff.mp hSlot₀
  obtain ⟨memref', hMemref', hSlot⟩ := bind_eq_some_iff.mp hPlace
  obtain ⟨js, hIndices', hSlot⟩ := bind_eq_some_iff.mp hSlot
  -- The indices are the same.
  have hEqual : is = js := Access.eq_of_sameIndex hIndices (of_decide_eq_true hRank)
    ((hWhole.visit_of_access hWithin hStart hHead₀ hAccess hIndices₀).indices hAccess)
    ((hWhole.visit_of_access hWithin hHere hHead hTarget hIndices').indices hTarget)
    fun v m n => hWhole.seen_agree hStart hArrives
  subst hEqual
  -- The buffer is the same.
  obtain ⟨o₁, hOp₁, hAct₁⟩ := (hWhole.first hStart.leads hHead₀).2
  obtain ⟨o₂, hOp₂, hAct₂⟩ := (hWhole.first hHere.leads hHead).2
  have hFirst := (Graph.parts_of_access? hAccess hOp₁).2.1
  have hSecond := (Graph.parts_of_access? hTarget hOp₂).2.1
  rw [← hAct₁, hMemref₀] at hFirst
  rw [← hAct₂, hMemref', ← of_decide_eq_true hMemref, ← hFirst] at hSecond
  cases hSecond
  obtain ⟨buf₀, hEnv₀, hBuffer₀, _, hOffset₀⟩ := Store.slot?_eq_some hSlot₀
  obtain ⟨buf, hEnv, hBuffer, _, hOffset⟩ := Store.slot?_eq_some hSlot
  rw [hWhole.env_of_operand hStart hHead₀ hArrives
    (Act.mem_operands_of_memref hMemref₀), hEnv₀] at hEnv
  have hId : place₀.1 = place.1 := Datum.buffer.inj (Option.some.inj hEnv)
  obtain ⟨buf', hBuffer', hShape⟩ := (along_shape q₀ place₀.1).arrives hArrives buf₀ hBuffer₀
  rw [hId, hBuffer] at hBuffer'
  cases hBuffer'
  rw [hShape, hOffset₀] at hOffset
  exact Prod.ext hId (Option.some.inj (Except.ok.inj hOffset))

------
-- The value of a load
------

section Supplied

variable {v : ValueId} {τ' : Store} (hWhole : f.Whole params b blk xs p x o)
  (hSound : f.graph.EmptinessSound) (hWithin : σ.Within params p) (hArrives : p.Arrives σ w t q τ)
  (hHead : q.head? = some a) (hSeparate : ∀ e ∈ t, e.2.Separate) (hSeparate' : τ.Separate)
  (hLoad : a.kind.isLoad = true) (hStep : a.step τ = some τ')
  (hSupplies : f.graph.Supplies source a.op) (hOther : source ≠ a.op)
  (hOp : f.graph.op source = .ok o')

include hWhole hSound hWithin hArrives hHead hSeparate hSeparate' hSupplies hOther hOp

/-
  Where a run comes to a load, its source was executed, and
  since then nothing has been stored to the element.
-/
theorem Whole.supplied (hKind : o'.kind.isControl = false) (hPlace : a.place? τ = some place) :
    ∃ (w₀ : List Mark) (t₀ : Trace) (rest : Prog) (σ₀ σ₁ : Store) (w₂ : List Mark) (t₂ : Trace),
      t = t₀ ++ (f.graph.actOf source o', σ₀) :: t₂ ∧
      p.Arrives σ w₀ t₀ (.act (f.graph.actOf source o') rest) σ₀ ∧
      (f.graph.actOf source o').step σ₀ = some σ₁ ∧
      rest.Arrives σ₁ w₂ t₂ q τ ∧ t₂.Spares place := by
  obtain ⟨c, c', hDirection, hDominates⟩ := hSupplies.dominates
  rcases hWhole.before_of_dominates hArrives.leads hHead hOp hKind hOther
    hDirection hDominates with ⟨z, hBefore, hAround⟩
  rcases hWhole.exists_stretch hArrives hHead hBefore hAround hSupplies.quiet with
    ⟨s, w₀, t₀, q₀, a₀, σ₀, w₁, t₁, σ₁, w₂, t₂, hWrite, hTarget, hLoops, rfl, rfl,
      hHead₀, hFirst, hInner, hSecond, hThird, hHarmless⟩
  obtain ⟨o₁, hOp₁, hAct⟩ := (hWhole.first hFirst.leads hHead₀).2
  cases hOp.symm.trans hOp₁
  rw [← hAct]
  obtain ⟨rest, rfl⟩ := hWhole.eq_act hFirst.leads hHead₀ (hAct ▸ hKind)
  have hNothing : t₁ = [] := eq_nil_iff_forall_not_mem.mpr fun e hMem => not_mem_nil (hInner e hMem)
  subst hNothing
  obtain ⟨first, hNext⟩ := hThird.leads.exists_head hHead
  refine ⟨w₀, t₀, rest, σ₀, σ₁, w₂, t₂, rfl, hFirst,
    hSecond.step_of_past hWhole.nodup_ids hFirst.leads hNext, hThird, ?_⟩
  intro e hMem hStore
  have hNodup := hWhole.nodup_ids.sublist hSecond.leads.sublist_ids
  have hScoped := hSecond.leads.scoped hWhole.wellScoped
  obtain ⟨w', t', q', hThere, hEvent, _⟩ := hThird.earlier hNodup hScoped hHead hMem
  obtain ⟨o₂, hOp₂, hAct₂⟩ := (hWhole.first (hSecond.trans hThere).leads hEvent).2
  have hAccesses : Graph.Accesses o₂ s.kind := by
    refine .inl ⟨hWrite, ?_⟩
    rwa [hAct₂] at hStore
  exact hWhole.not_accesses hSound hSecond hThird hHead hWithin
    (fun e hIn => hSeparate e (by simp [hIn])) hSeparate' hTarget hLoops
    (.inl hWrite) hPlace hMem (hHarmless e hMem) hOp₂ hAccesses

/- The last execution of a source goes to the element of the load. -/
theorem Whole.supplied_at (hAccess : o'.kind.isStore = true ∨ o'.kind.isLoad = true)
    (hPlace : a.place? τ = some place) :
    ∃ (w₀ : List Mark) (t₀ : Trace) (rest : Prog) (σ₀ σ₁ : Store) (w₂ : List Mark) (t₂ : Trace),
      t = t₀ ++ (f.graph.actOf source o', σ₀) :: t₂ ∧
      p.Arrives σ w₀ t₀ (.act (f.graph.actOf source o') rest) σ₀ ∧
      (f.graph.actOf source o').step σ₀ = some σ₁ ∧ rest.Arrives σ₁ w₂ t₂ q τ ∧ t₂.Spares place ∧
      (f.graph.actOf source o').place? σ₀ = some place := by
  have hKind : o'.kind.isControl = false := by
    cases hK : o'.kind <;> simp [hK, Kind.isStore, Kind.isLoad] at hAccess <;> rfl
  rcases hWhole.supplied hSound hWithin hArrives hHead hSeparate hSeparate'
    hSupplies hOther hOp hKind hPlace with
    ⟨w₀, t₀, rest, σ₀, σ₁, w₂, t₂, hTrace, hStart, hStep, hRest, hSpares⟩
  obtain ⟨place₀, hPlace₀⟩ := Act.exists_place_of_step hAccess hStep
  obtain ⟨access, target, hFirst, hSecond, hSame⟩ := hSupplies.same
  cases hWhole.eq_place hWithin hStart rfl (.act hStep hRest) hHead hFirst
    hSecond hSame hPlace₀ hPlace
  exact ⟨w₀, t₀, rest, σ₀, σ₁, w₂, t₂, hTrace, hStart, hStep, hRest, hSpares, hPlace₀⟩

include hLoad hStep

/-
  The last execution of a source: it took its step at the
  element of the load, and what the element had then, it has.
-/
theorem Whole.last_of_supplies (hAccess : o'.kind.isStore = true ∨ o'.kind.isLoad = true) :
    ∃ w₀ t₀ rest σ₀ σ₁ w₂ t₂ place, p.Arrives σ w₀ t₀ (.act (f.graph.actOf source o') rest) σ₀ ∧
      (f.graph.actOf source o').step σ₀ = some σ₁ ∧ rest.Arrives σ₁ w₂ t₂ q τ ∧
      (f.graph.actOf source o').place? σ₀ = some place ∧
      ∀ l, σ₁.element? place = some l → a.value? τ = some (.scalar l) := by
  obtain ⟨place, hPlace⟩ := Act.exists_place_of_step (.inr hLoad) hStep
  rcases hWhole.supplied_at hSound hWithin hArrives hHead hSeparate hSeparate'
    hSupplies hOther hOp hAccess hPlace with
    ⟨w₀, t₀, rest, σ₀, σ₁, w₂, t₂, _, hStart, hStep₀, hRest, hSpares, hPlace₀⟩
  refine ⟨w₀, t₀, rest, σ₀, σ₁, w₂, t₂, place, hStart, hStep₀, hRest, hPlace₀, ?_⟩
  intro l hElement
  have hFound := (along_element rest place l).arrives hRest hSpares hElement
  rw [Act.value?_of_isLoad hLoad, hPlace, bind_some, hFound]
  rfl

/- The load finds what the store has stored. -/
theorem Whole.value_of_stored (hStore : o'.kind.isStore = true)
    (hStored : o'.operands[0]? = some v) : ∃ d, τ.env v = some d ∧ a.value? τ = some d := by
  rcases hWhole.last_of_supplies hSound hWithin hArrives hHead hSeparate
    hSeparate' hLoad hStep hSupplies hOther hOp (.inl hStore) with
    ⟨w₀, t₀, rest, σ₀, σ₁, w₂, t₂, place, hStart, hStep₀, hRest, hPlace, hValue⟩
  obtain ⟨v', l, place', hOperand, hScalar, hPlace', hElement⟩ := Act.store_of_step hStore hStep₀
  cases hStored.symm.trans hOperand
  cases hPlace.symm.trans hPlace'
  refine ⟨.scalar l, ?_, hValue l hElement⟩
  rwa [hWhole.env_of_operand hStart rfl (.act hStep₀ hRest) (mem_of_getElem? hStored)]

/- The load finds what the other one has found. -/
theorem Whole.value_of_loaded (hLoad' : o'.kind.isLoad = true)
    (hResult : o'.results[0]? = some v) : ∃ d, τ.env v = some d ∧ a.value? τ = some d := by
  rcases hWhole.last_of_supplies hSound hWithin hArrives hHead hSeparate
    hSeparate' hLoad hStep hSupplies hOther hOp (.inr hLoad') with
    ⟨w₀, t₀, rest, σ₀, σ₁, w₂, t₂, place, hStart, hStep₀, hRest, hPlace, hValue⟩
  obtain ⟨v', l, place', hBound, hPlace', hElement, rfl⟩ := Act.load_of_step hLoad' hStep₀
  cases hResult.symm.trans hBound
  cases hPlace.symm.trans hPlace'
  refine ⟨.scalar l, ?_, hValue l hElement⟩
  -- The result is not bound again behind the load.
  have hScoped := hStart.leads.scoped hWhole.wellScoped
  have hFree : ¬rest.Binds v := hScoped.2.1 v (.inr (Act.mem_bound_of_load hLoad' hResult))
  rw [env_of_arrives hFree hRest]
  exact Store.env_assign_self ..

end Supplied

/- Both for loads that take a value. -/
theorem Whole.value_of_takes {s : ForwardState} {v : ValueId} {τ' : Store}
    (hWhole : f.Whole params b blk xs p x o) (hSound : f.graph.EmptinessSound)
    (hWithin : σ.Within params p) (hArrives : p.Arrives σ w t q τ) (hHead : q.head? = some a)
    (hSeparate : ∀ e ∈ t, e.2.Separate) (hSeparate' : τ.Separate) (hLoad : a.kind.isLoad = true)
    (hStep : a.step τ = some τ') (hGraph : s.graph = f.graph)
    (hDirection : s.dom.direction = .forward)
    (hTakes : Forward.TakesStored s a.op v ∨ Forward.TakesLoaded s a.op v) :
    ∃ d, τ.env v = some d ∧ a.value? τ = some d := by
  rcases hTakes with hStored | hLoaded
  · obtain ⟨source, o', hSupplies, hOp, hStore, hOperand⟩ := hStored.supplies hDirection
    rw [hGraph] at hSupplies hOp
    have hKind : o'.kind.isStore = true := by
      cases hK : o'.kind <;> simp_all [Kind.isAffineStore, Kind.isStore]
    have hOther : source ≠ a.op := by
      rintro rfl
      obtain ⟨o₁, hOp₁, hAct⟩ := (hWhole.first hArrives.leads hHead).2
      cases hOp.symm.trans hOp₁
      rw [hAct] at hLoad
      change o'.kind.isLoad = true at hLoad
      clear hAct
      cases hK : o'.kind <;> simp_all [Kind.isStore, Kind.isLoad]
    exact hWhole.value_of_stored hSound hWithin hArrives hHead hSeparate
      hSeparate' hLoad hStep hSupplies hOther hOp hKind hOperand
  · obtain ⟨source, o', hOther, hSupplies, hOp, hLoad', hResult⟩ := hLoaded.supplies hDirection
    rw [hGraph] at hSupplies hOp
    have hKind : o'.kind.isLoad = true := by
      cases hK : o'.kind <;> simp_all [Kind.isAffineLoad, Kind.isLoad]
    exact hWhole.value_of_loaded hSound hWithin hArrives hHead hSeparate
      hSeparate' hLoad hStep hSupplies hOther hOp hKind hResult

/-
  A load that is replaced, by the value of a store or by the
  result of another load, yields in every run that returns what
  its replacement is bound to there.
-/
theorem loaded_eq_replacement {reg : Region} {load : OpId} {s s' : ForwardState}
    (hValid : f.problems = .ok []) (hTidy : f.graph.Tidy) (hBody : f.graph.region f.body = .ok reg)
    (hSingle : reg.blocks = [b]) (hSound : f.graph.EmptinessSound) (hGraph : s.graph = f.graph)
    (hDirection : s.dom.direction = .forward) (hOp : f.graph.op load = .ok o)
    (hLoad : o.kind.isAffineLoad = true)
    (hReplaced : (Forward.forwardStore load).run s = .ok (.replaced, s') ∨
      (Forward.mergeLoad load).run s = .ok ((), s') ∧ s'.stats ≠ s.stats) :
    ∃ v loaded, (Forward.TakesStored s load v ∨ Forward.TakesLoaded s load v) ∧
      f.graph.result load = .ok loaded ∧
      (Edit.replaceUses loaded v).run f.graph = .ok ((), s'.graph) ∧ ∀ args m values m' n r,
        f.Session m → Exec.outcome (f.run args) m = (.ok values, m') → f.ComesTo args m n load r →
        (∀ k h r, k ≤ n → f.ComesTo args m k h r → r.store.Separate) →
        ∀ enter, ∃ d r', r.env.get? v = some d ∧
          Exec.outcome (Exec.op f.graph enter load) r = (.ok .done, r') ∧
          r'.env.get? loaded = some d := by
  obtain ⟨params, blk, xs, p, x, o₁, hWhole⟩ := whole_of_valid hValid hTidy hBody hSingle
  have hTaken : ∃ v loaded, (Forward.TakesStored s load v ∨ Forward.TakesLoaded s load v) ∧
      s.graph.result load = .ok loaded ∧
      (Edit.replaceUses loaded v).run s.graph = .ok ((), s'.graph) := by
    rcases hReplaced with hRun | ⟨hRun, hCounted⟩
    · obtain ⟨v, loaded, hTakes, hRest⟩ := Forward.taken_of_forwardStore hRun
      exact ⟨v, loaded, .inl hTakes, hRest⟩
    · rcases Forward.cases_of_mergeLoad hRun with hKept | ⟨v, loaded, hTakes, hRest⟩
      · exact absurd hKept.stats hCounted
      · exact ⟨v, loaded, .inr hTakes, hRest⟩
  obtain ⟨v, loaded, hTakes, hResult, hReplace⟩ := hTaken
  rw [hGraph] at hResult hReplace
  refine ⟨v, loaded, hTakes, hResult, hReplace, ?_⟩
  intro args m values m' n r hSession hRun hComes hSeparate enter
  have hKind : o.kind.isLoad = true ∧ o.kind.isControl = false ∧ o.kind.isJump = false := by
    cases hK : o.kind <;> simp [hK, Kind.isAffineLoad] at hLoad
    exact ⟨rfl, rfl, rfl⟩
  obtain ⟨hIsLoad, hControl, hJump⟩ := hKind
  rcases hWhole.arrives_of_comesTo hSession hComes hOp hJump with
    ⟨base, τ, w, t, q, u, hPass, hWithin, rfl, hTrace, hArrives, hHead⟩
  obtain ⟨σ₁, hStep⟩ := hWhole.step_of_comesTo hRun hComes hOp hControl
  have hApart := hPass.holds hTrace hSeparate
  rcases hWhole.value_of_takes hSound hWithin hArrives hHead
    (fun e hMem => hApart e (mem_append_left _ hMem))
    (hApart _ (mem_append_right _ (mem_singleton_self _))) hIsLoad hStep
    hGraph hDirection hTakes with ⟨d, hEnv, hValue⟩
  rcases (Exec.acts_op enter hOp hControl).ok (m := r) (by rw [hStep]; rfl) with
    ⟨r', hOutcome, hStore, _⟩
  refine ⟨d, r', hEnv, hOutcome, ?_⟩
  obtain ⟨v', l, place, hFirst, hPlace, hElement, rfl⟩ := Act.load_of_step hIsLoad hStep
  rw [Act.value?_of_isLoad hIsLoad, hPlace, bind_some, hElement] at hValue
  cases hValue
  obtain ⟨o', hOp', hEntry⟩ := bind_eq_ok.mp hResult
  cases hOp.symm.trans hOp'
  cases hFirst.symm.trans (entryAt_eq_ok.mp hEntry)
  change r'.store.env loaded = _
  rw [hStore]
  exact Store.env_assign_self ..

/- The load behind two stores takes the value of the first one. -/
theorem loaded_storesAndLoad :
    ∃ s' v loaded, (Forward.forwardStore ⟨2⟩).run { graph := storesAndLoad.graph } =
        .ok (.replaced, s') ∧
      (Edit.replaceUses loaded v).run storesAndLoad.graph = .ok ((), s'.graph) ∧
      ∃ d r', storesReached.env.get? v = some d ∧
        Exec.outcome (Exec.op storesAndLoad.graph (fun _ => pure .done) ⟨2⟩)
          storesReached = (.ok .done, r') ∧ r'.env.get? loaded = some d := by
  have hComes : storesAndLoad.ComesTo storesArgs storesMachine 2 ⟨2⟩
      storesReached := ⟨rfl, _, _, rfl, rfl⟩
  rcases loaded_eq_replacement (f := storesAndLoad)
    (s := { graph := storesAndLoad.graph }) (by decide +kernel)
    tidy_storesAndLoad rfl rfl emptinessSound_storesAndLoad rfl rfl
    (show storesAndLoad.graph.op ⟨2⟩ = .ok _ from rfl) rfl (.inl rfl) with
    ⟨v, loaded, _, _, hReplace, hRuns⟩
  exact ⟨_, v, loaded, rfl, hReplace, hRuns storesArgs storesMachine [] _ 2
    storesReached (.alloc _ _ .new) rfl hComes
    (fun _ _ _ hLess hComes => separate_storesAndLoad hLess hComes) _⟩

end Function

end AffineIR
