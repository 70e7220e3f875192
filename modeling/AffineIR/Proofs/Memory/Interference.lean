import AffineIR.Memory.Interference
import AffineIR.Proofs.Memory.Visits

/-
  Interference: what the check finds harmless does no harm.

  An operation between a start and an access that the check
  lets pass does not access the element of the access: it
  names another buffer, or there would be a dependence whose
  system has a solution.

  Main result: `Function.effectFree_between`
-/

namespace AffineIR

open Answer List

variable {kind : EffectKind} {h start stop x y z : OpId} {depth high i k levels low : Nat}
  {b : BlockId} {access source target : Access} {blk : Block} {ls us vs xs zs : List OpId}
  {element : List Int}

/- A search that finds nothing says no about every entry. -/
theorem Answer.eq_ok_of_anyM {ε α : Type} {f : α → Except ε Bool} {xs : List α} {x : α}
    (hNone : xs.anyM f = .ok false) (hMem : x ∈ xs) : f x = .ok false := by
  induction xs with
  | nil => cases hMem
  | cons first xs ih =>
    rw [anyM_cons] at hNone
    obtain ⟨found, hFound, hNone⟩ := bind_eq_ok.mp hNone
    cases found with
    | true => cases pure_eq_ok.mp hNone
    | false =>
      rcases mem_cons.mp hMem with rfl | hMem
      · exact hFound
      · exact ih hNone hMem

namespace Graph

variable {g : Graph} {s : Stretch} {o : Operation}

/-
  The systems that are built for accesses of a graph and found
  to be empty have no solutions.
-/
def EmptinessSound (g : Graph) : Prop := ∀ ⦃x y source target nests numCommon depth system⦄,
    g.access? x = .ok (some source) → g.access? y = .ok (some target) →
    g.enclosingLoops x = .ok nests.sourceLoops → g.enclosingLoops y = .ok nests.targetLoops →
    g.numCommonLoops x y = .ok numCommon →
    g.dependenceSystem nests source target numCommon depth = .ok system →
    system.isEmpty = .ok true → ¬∃ point, system.Holds point

theorem absent_of_dependsAt {depths : List Nat} (hNone : g.dependsAt s source depths = .ok false)
    (hMem : depth ∈ depths) : g.dependence source s.target depth = .ok .absent := by
  induction depths with
  | nil => cases hMem
  | cons first depths ih =>
    obtain ⟨answer, hAnswer, hRest⟩ := bind_eq_ok.mp hNone
    split at hRest
    · cases pure_eq_ok.mp hRest
    · rename_i hNot
      rcases mem_cons.mp hMem with rfl | hMem
      · rw [hAnswer]
        cases answer
        · rfl
        · exact absurd rfl hNot
        · exact absurd rfl hNot
      · exact ih hRest hMem

theorem mem_depthsBetween (hLow : low < depth)
    (hHigh : depth ≤ high + 1) : depth ∈ depthsBetween low high := by
  unfold depthsBetween
  rw [mem_reverse, mem_map]
  exact ⟨depth - (low + 1), mem_range.mpr (by omega), by omega⟩

/- An answer that is absent at once, or after a test that fails. -/
theorem of_guarded {c : Prop} [Decidable c]
    {test : Except Fault Bool} {rest : Except Fault Dependence}
    (hAbsent : (if c then test >>= fun holds =>
      if (!holds) = true then pure .absent else rest else rest) = .ok .absent) :
    (c ∧ test = .ok false) ∨ rest = .ok .absent := by
  split at hAbsent
  · rename_i hHolds
    obtain ⟨holds, hTest, hRest⟩ := bind_eq_ok.mp hAbsent
    cases holds with
    | false => exact .inl ⟨hHolds, hTest⟩
    | true => exact .inr hRest
  · exact .inr hAbsent

/- Why there is no dependence between accesses to one buffer. -/
theorem of_absent (hSource : g.access? x = .ok (some source))
    (hTarget : g.access? y = .ok (some target)) (hMemref : source.memref = target.memref)
    (hStore : source.isStore = true ∨ target.isStore = true)
    (hAbsent : g.dependence source target depth = .ok .absent) :
    ∃ numCommon, g.numCommonLoops x y = .ok numCommon ∧
      ((numCommon < depth ∧ g.appearsBefore x y = .ok false) ∨
        ∃ nests system, g.enclosingLoops x = .ok nests.sourceLoops ∧
          g.enclosingLoops y = .ok nests.targetLoops ∧
          g.dependenceSystem nests source target numCommon depth =
            .ok system ∧ system.isEmpty = .ok true) := by
  unfold dependence at hAbsent
  rw [op_of_access? hSource, op_of_access? hTarget] at hAbsent
  rw [if_neg (by rcases hStore with hStore | hStore <;> simp [hMemref, hStore])] at hAbsent
  obtain ⟨numCommon, hCommon, hRest⟩ := bind_eq_ok.mp hAbsent
  refine ⟨numCommon, hCommon, ?_⟩
  dsimp only at hRest
  refine (of_guarded hRest).imp_right fun hTest => ?_
  split at hTest
  · cases pure_eq_ok.mp hTest
  obtain ⟨sourceLoops, hFirst, hTest⟩ := bind_eq_ok.mp hTest
  obtain ⟨targetLoops, hSecond, hTest⟩ := bind_eq_ok.mp hTest
  refine ⟨⟨sourceLoops, targetLoops⟩, ?_⟩
  split at hTest
  · cases hTest
  · cases pure_eq_ok.mp hTest
  rename_i system hSystem
  obtain ⟨isEmpty, hEmpty, hPure⟩ := bind_eq_ok.mp hTest
  cases isEmpty with
  | true => exact ⟨system, hFirst, hSecond, hSystem, hEmpty⟩
  | false => cases pure_eq_ok.mp hPure

------
-- Single operations
------

/- An operation accesses memory in a way. -/
def Accesses (o : Operation) (kind : EffectKind) : Prop := (kind = .write ∧ o.kind.isStore = true) ∨
    (kind = .read ∧ o.kind.isLoad = true)

/- The effect that an access declares. -/
theorem effects_of_accesses {effects : Option (List MemoryEffect)} (hAccesses : Accesses o kind)
    (hEffects : o.effects = .ok effects) :
    ∃ v, o.memref? = some v ∧ effects = some [⟨kind, some v⟩] := by
  unfold Operation.effects at hEffects
  unfold Operation.memref?
  rcases hAccesses with ⟨rfl, hKind⟩ | ⟨rfl, hKind⟩ <;>
    cases hO : o.kind <;> simp only [hO, Kind.isStore, Kind.isLoad,
      Bool.false_eq_true] at hKind <;> simp only [hO] at hEffects <;>
    · obtain ⟨v, hAt, hPure⟩ := bind_eq_ok.mp hEffects
      exact ⟨v, entryAt_eq_ok.mp hAt, (pure_eq_ok.mp hPure).symm⟩

/- Effects elsewhere are not on the buffer of the target. -/
theorem ne_of_isElsewhere
    {v : ValueId}
    (hElsewhere : g.isElsewhere s ⟨kind, some v⟩ = .ok true) : v ≠ s.target.memref := by
  rintro rfl
  unfold isElsewhere at hElsewhere
  simp only [if_true] at hElsewhere
  cases pure_eq_ok.mp hElsewhere

theorem of_effectInterferes (hNone : g.effectInterferes s h = .ok false) (hOp : g.op h = .ok o) :
    o.memref? ≠ some s.target.memref ∨ ∃ source numCommon, g.access? h = .ok (some source) ∧
        g.numCommonLoops h s.target.op = .ok numCommon ∧
        g.dependsAt s source (depthsBetween s.minLoops numCommon) = .ok false := by
  unfold effectInterferes at hNone
  obtain ⟨kind, _, hNone⟩ := bind_eq_ok.mp hNone
  split at hNone
  · cases pure_eq_ok.mp hNone
  obtain ⟨o', hOp', hNone⟩ := bind_eq_ok.mp hNone
  cases hOp.symm.trans hOp'
  split at hNone
  · exact .inl ‹_›
  obtain ⟨scope, _, hNone⟩ := bind_eq_ok.mp hNone
  obtain ⟨scope', _, hNone⟩ := bind_eq_ok.mp hNone
  split at hNone
  · cases pure_eq_ok.mp hNone
  obtain ⟨scope'', _, hNone⟩ := bind_eq_ok.mp hNone
  split at hNone
  · cases pure_eq_ok.mp hNone
  obtain ⟨access, hAccess, hNone⟩ := bind_eq_ok.mp hNone
  split at hNone
  · cases pure_eq_ok.mp hNone
  obtain ⟨numCommon, hCommon, hNone⟩ := bind_eq_ok.mp hNone
  exact .inr ⟨_, numCommon, hAccess, hCommon, hNone⟩

/- Why an access does not interfere. -/
theorem of_mayInterfere (hNone : g.mayInterfereUpTo s depth h = .ok false) (hOp : g.op h = .ok o)
    (hAccesses : Accesses o s.kind) :
    o.memref? ≠ some s.target.memref ∨ ∃ source numCommon, g.access? h = .ok (some source) ∧
        g.numCommonLoops h s.target.op = .ok numCommon ∧
        g.dependsAt s source (depthsBetween s.minLoops numCommon) = .ok false := by
  cases depth with
  | zero => cases hNone
  | succ depth =>
    rw [mayInterfereUpTo] at hNone
    obtain ⟨effects, hEffects, hNone⟩ := bind_eq_ok.mp hNone
    unfold memoryEffects at hEffects
    rw [hOp] at hEffects
    obtain ⟨v, hMemref, rfl⟩ := effects_of_accesses hAccesses hEffects
    simp only [decide_true, filter_cons_of_pos, filter_nil, effectsInterfere] at hNone
    obtain ⟨elsewhere, hElsewhere, hNone⟩ := bind_eq_ok.mp hNone
    cases elsewhere with
    | true =>
      refine .inl fun hSame => ne_of_isElsewhere hElsewhere ?_
      exact Option.some.inj (hMemref.symm.trans hSame)
    | false => exact of_effectInterferes hNone hOp

/- An operation does not interfere, seen from some depth. -/
def Harmless (g : Graph) (s : Stretch) (h : OpId) : Prop :=
  ∃ depth, g.mayInterfereUpTo s depth h = .ok false

/- What an operation that has the effects of its parts holds. -/
theorem Harmless.child (hHarmless : g.Harmless s z) (hOp : g.op z = .ok o)
    (hEffects : o.effects = .ok none) (hHolder : g.Holder z h) : g.Harmless s h := by
  obtain ⟨depth, hNone⟩ := hHarmless
  cases depth with
  | zero => cases hNone
  | succ depth =>
    rw [mayInterfereUpTo] at hNone
    obtain ⟨effects, hDeclared, hNone⟩ := bind_eq_ok.mp hNone
    unfold memoryEffects at hDeclared
    rw [hOp] at hDeclared
    cases hEffects.symm.trans hDeclared
    obtain ⟨kind, _, hNone⟩ := bind_eq_ok.mp hNone
    split at hNone
    · obtain ⟨inner, hInner, hNone⟩ := bind_eq_ok.mp hNone
      exact ⟨depth, Answer.eq_ok_of_anyM hNone ((mem_children_iff hInner).mpr hHolder)⟩
    · cases pure_eq_ok.mp hNone

/- What is inside a harmless operation of a program is harmless. -/
theorem Unfolds.harmless {p : Prog} (hUnfolds : g.Unfolds b xs p)
    (hMem : h ∈ p.ids) : ∃ y ∈ xs, g.Harmless s y → g.Harmless s h := by
  refine hUnfolds.exists_of_mem_ids hMem id fun x z o hOp hControl hHolder hInner hHarmless => ?_
  have hEffects : o.effects = .ok none := by
    unfold Operation.effects
    cases hKind : o.kind <;> simp [hKind, Kind.isLoop, Kind.isConditional] at hControl <;> rfl
  exact hInner (hHarmless.child hOp hEffects hHolder)

------
-- Paths
------

theorem of_position (hPosition : g.position x = .ok i) (hParent : g.parentBlock x = .ok b) :
    ∃ blk us vs, g.block b = .ok blk ∧ blk.ops = us ++ x :: vs ∧ us.length = i := by
  unfold position at hPosition
  obtain ⟨b', hParent', hPosition⟩ := bind_eq_ok.mp hPosition
  cases hParent.symm.trans hParent'
  obtain ⟨blk, hBlock, hPosition⟩ := bind_eq_ok.mp hPosition
  split at hPosition
  · rename_i j hAt
    cases pure_eq_ok.mp hPosition
    obtain ⟨hLess, hSame, _⟩ := List.idxOf?_eq_some_iff.mp hAt
    refine ⟨blk, blk.ops.take i, blk.ops.drop (i + 1), hBlock, ?_,
      length_take_of_le (Nat.le_of_lt hLess)⟩
    rw [← hSame, ← drop_eq_getElem_cons hLess, take_append_drop]
  · cases hPosition

/- An operation in front of another one of its block. -/
theorem split_of_isBefore (hBefore : g.isBefore x y = .ok true) :
    ∃ b blk us vs zs, g.parentBlock x = .ok b ∧ g.parentBlock y = .ok b ∧
      g.block b = .ok blk ∧ blk.ops = us ++ x :: vs ++ y :: zs ∧ g.position x = .ok us.length := by
  unfold isBefore at hBefore
  obtain ⟨b, hParent, hBefore⟩ := bind_eq_ok.mp hBefore
  obtain ⟨b', hParent', hBefore⟩ := bind_eq_ok.mp hBefore
  split at hBefore
  · rename_i hSame
    subst hSame
    obtain ⟨i, hPosition, hBefore⟩ := bind_eq_ok.mp hBefore
    obtain ⟨j, hPosition', hBefore⟩ := bind_eq_ok.mp hBefore
    have hLess : i < j := of_decide_eq_true (pure_eq_ok.mp hBefore)
    obtain ⟨blk, us, us', hBlock, hOps, rfl⟩ := of_position hPosition hParent
    obtain ⟨blk', vs, zs, hBlock', hOps', rfl⟩ := of_position hPosition' hParent'
    cases hBlock.symm.trans hBlock'
    rcases append_eq_append_iff.mp (hOps.symm.trans hOps') with
      ⟨rest, rfl, hRest⟩ | ⟨rest, rfl, hRest⟩
    · cases rest with
      | nil => simp at hLess
      | cons first rest =>
        cases hRest
        exact ⟨b, blk, us, rest, zs, hParent, hParent', hBlock, hOps', hPosition⟩
    · simp at hLess
  · cases hBefore

/- What stands between two operations of a block is harmless. -/
theorem harmless_of_interferesInRegion (hNone : g.interferesInRegion s x y = .ok false)
    (hParent : g.parentBlock x = .ok b) (hBlock : g.block b = .ok blk)
    (hOps : blk.ops = us ++ x :: vs ++ y :: zs) (hPosition : g.position x = .ok us.length)
    (hOther : y ∉ vs) (hMem : z ∈ vs) : g.Harmless s z := by
  unfold interferesInRegion at hNone
  obtain ⟨b', hParent', hNone⟩ := bind_eq_ok.mp hNone
  cases hParent.symm.trans hParent'
  obtain ⟨blk', hBlock', hNone⟩ := bind_eq_ok.mp hNone
  cases hBlock.symm.trans hBlock'
  obtain ⟨i, hPosition', hNone⟩ := bind_eq_ok.mp hNone
  cases hPosition.symm.trans hPosition'
  obtain ⟨later, hLater, hNone⟩ := bind_eq_ok.mp hNone
  obtain ⟨found, hFound, hNone⟩ := bind_eq_ok.mp hNone
  cases found with
  | true => cases pure_eq_ok.mp hNone
  | false =>
    have hRest : later = vs ++ y :: zs := by
      unfold entriesFrom at hLater
      split at hLater
      · cases hLater
        simp [hOps]
      · cases hLater
    refine ⟨_, Answer.eq_ok_of_anyM hFound ?_⟩
    rw [hRest, takeWhile_append_of_pos]
    · exact mem_append_left _ hMem
    · intro v hIn
      exact decide_eq_true fun hSame => hOther (hSame ▸ hIn)

/-
  The operation in the region of a start that is on the way up
  from an operation, and the answer there.
-/
theorem of_interferesOnPaths (hNone : g.interferesOnPaths s start levels stop = .ok false)
    (hRises : g.Rises stop ls) :
    ∃ y ∈ ls, g.parentOp? y = g.parentOp? start ∧ g.interferesInRegion s start y = .ok false ∧
      (y = stop ∨ g.Harmless s y) := by
  induction levels generalizing stop ls with
  | zero => cases hNone
  | succ levels ih =>
    obtain ⟨r, hRegion, hNone⟩ := bind_eq_ok.mp hNone
    obtain ⟨r', hRegion', hNone⟩ := bind_eq_ok.mp hNone
    obtain ⟨outer, rfl⟩ := hRises.head
    split at hNone
    · rename_i hSame
      refine ⟨stop, mem_cons_self, ?_, hNone, .inl rfl⟩
      unfold parentOp?
      rw [hRegion, hRegion', hSame]
    obtain ⟨parent, hParent, hNone⟩ := bind_eq_ok.mp hNone
    split at hNone
    · cases pure_eq_ok.mp hNone
    rename_i z
    obtain ⟨found, hFound, hNone⟩ := bind_eq_ok.mp hNone
    cases found with
    | true => cases pure_eq_ok.mp hNone
    | false =>
      cases hRises with
      | top hTop => cases hTop.symm.trans hParent
      | child hParent' hOuter =>
        cases hParent.symm.trans hParent'
        obtain ⟨y, hMem, hSame, hNone', hEither⟩ := ih hFound hOuter
        refine ⟨y, mem_cons_of_mem _ hMem, hSame, hNone', .inr ?_⟩
        rcases hEither with rfl | hHarmless
        · exact ⟨_, hNone⟩
        · exact hHarmless

theorem access_of_hasEffectBetween (hNone : g.hasEffectBetween kind start stop = .ok false) :
    ∃ target, g.access? stop = .ok (some target) := by
  obtain ⟨access, hAccess, hNone⟩ := bind_eq_ok.mp hNone
  cases access with
  | none => cases pure_eq_ok.mp hNone
  | some target => exact ⟨target, hAccess⟩

theorem of_hasEffectBetween (hNone : g.hasEffectBetween kind start stop = .ok false)
    (hRises : g.Rises stop ls) :
    ∃ s : Stretch, s.kind = kind ∧ g.access? stop = .ok (some s.target) ∧
      g.numCommonLoops start stop = .ok s.minLoops ∧ ∃ y ∈ ls, g.parentOp? y = g.parentOp? start ∧
        g.interferesInRegion s start y = .ok false ∧ (y = stop ∨ g.Harmless s y) := by
  unfold hasEffectBetween at hNone
  obtain ⟨access, hAccess, hNone⟩ := bind_eq_ok.mp hNone
  split at hNone
  · cases pure_eq_ok.mp hNone
  rename_i target
  obtain ⟨r, _, hNone⟩ := bind_eq_ok.mp hNone
  obtain ⟨r', _, hNone⟩ := bind_eq_ok.mp hNone
  obtain ⟨around, _, hNone⟩ := bind_eq_ok.mp hNone
  split at hNone
  · cases pure_eq_ok.mp hNone
  obtain ⟨minLoops, hLoops, hNone⟩ := bind_eq_ok.mp hNone
  exact ⟨⟨kind, start, target, minLoops⟩, rfl, hAccess, hLoops, of_interferesOnPaths hNone hRises⟩

------
-- Accesses of one element
------

theorem memrefOperand?_of_access (hKind : o.kind.isStore = true ∨ o.kind.isLoad = true) :
    (g.actOf h o).memrefOperand? = o.memref? := by
  unfold Act.memrefOperand? Operation.memref? actOf
  cases hO : o.kind <;> simp [hO, Kind.isStore, Kind.isLoad] at hKind ⊢

/- What an access consists of. -/
theorem parts_of_access? (hAccess : g.access? h = .ok (some access)) (hOp : g.op h = .ok o) :
    (∃ map, o.kind.accessMap? = some map) ∧ (g.actOf h o).memrefOperand? = some access.memref ∧
      access.isStore = o.kind.isStore := by
  obtain ⟨o', hOp', hAccess⟩ := bind_eq_ok.mp hAccess
  cases hOp.symm.trans hOp'
  split at hAccess
  · cases pure_eq_ok.mp hAccess
  rename_i map hMap
  obtain ⟨operands, _, hAccess⟩ := bind_eq_ok.mp hAccess
  obtain ⟨indices, _, hAccess⟩ := bind_eq_ok.mp hAccess
  obtain ⟨memref, hMemref, rfl⟩ := Option.map_eq_some_iff.mp (pure_eq_ok.mp hAccess)
  have hKind : (o.kind.isStore = true ∨ o.kind.isLoad = true) ∧
      o.kind.isAffineStore = o.kind.isStore := by
    cases hO : o.kind <;> simp [hO, Kind.accessMap?] at hMap <;>
      simp [Kind.isStore, Kind.isLoad, Kind.isAffineStore]
  exact ⟨⟨map, hMap⟩, (memrefOperand?_of_access hKind.1).trans hMemref, hKind.2⟩

theorem isJump_of_access? (hAccess : g.access? h = .ok (some access))
    (hOp : g.op h = .ok o) : o.kind.isJump = false := by
  obtain ⟨map, hMap⟩ := (parts_of_access? hAccess hOp).1
  cases hKind : o.kind <;> simp [hKind, Kind.accessMap?] at hMap <;> rfl

theorem isJump_of_accesses (hAccesses : Accesses o kind) : o.kind.isJump = false := by
  rcases hAccesses with ⟨_, hKind⟩ | ⟨_, hKind⟩ <;>
    cases hO : o.kind <;> simp [hO, Kind.isStore, Kind.isLoad] at hKind <;> rfl

end Graph

namespace Function

open Prog

variable {f : Function} {params : List ValueId} {p q q₁ : Prog} {o o' : Operation}
  {w w₁ : List Mark} {t t₁ : Trace} {σ σ₁ τ : Store} {a : Act} {e : Act × Store} {s : Stretch}
  {place : Nat × Nat}

section

variable (hWhole : f.Whole params b blk xs p x o)

include hWhole

/- The loops around a part are the same all along the part. -/
theorem Whole.env_of_outer {l : OpId × ValueId} (hStart : p.Arrives σ w₁ t₁ q₁ σ₁)
    (hArrives : q₁.Arrives σ₁ w t q τ) (hMem : l ∈ loopsOf w₁) : τ.env l.2 = σ₁.env l.2 := by
  obtain ⟨a, hMark, _⟩ := mem_loopsOf_iff.mp hMem
  exact env_of_arrives (hStart.leads.fresh hWhole.wellScoped hMark
    (.inr (mem_singleton_self _))) hArrives

/- Where a run comes to an affine access, it visits an element. -/
theorem Whole.visit_of_access (hWithin : σ.Within params p) (hArrives : p.Arrives σ w t q τ)
    (hHead : q.head? = some a) (hAccess : f.graph.access? a.op = .ok (some access))
    (hIndices : a.indices? τ = some element) : f.graph.Visit (seen params w τ) a.op element := by
  obtain ⟨o', hOp, hAct⟩ := (hWhole.first hArrives.leads hHead).2
  obtain ⟨map, hMap⟩ := (Graph.parts_of_access? hAccess hOp).1
  have hMap' : a.kind.accessMap? = some map := by
    rwa [hAct]
  exact hWhole.visit hArrives
    (Along.arrives (preserves_within p params) hArrives hWithin).2 hHead hMap' hIndices

/-
  Of accesses of one element, the second one depends on the
  first one, at a depth below the loops around both.
-/
theorem Whole.exists_depth {w' : List Mark} {t' : Trace} {q' : Prog} {ρ : Store} {a' : Act}
    (hSound : f.graph.EmptinessSound) (hWithin : σ.Within params p)
    (hStart : p.Arrives σ w₁ t₁ q₁ σ₁) (hFirst : q₁.Arrives σ₁ w' t' q' ρ)
    (hSecond : q₁.Arrives σ₁ w t q τ) (hHead' : q'.head? = some a') (hHead : q.head? = some a)
    (hEarlier : Earlier ρ τ (q₁.Precedes a'.op a.op) (loopsOf w') (loopsOf w))
    (hSource : f.graph.access? a'.op = .ok (some source))
    (hTarget : f.graph.access? a.op = .ok (some target)) (hMemref : source.memref = target.memref)
    (hStore : source.isStore = true ∨ target.isStore = true)
    (hIndices' : a'.indices? ρ = some element) (hIndices : a.indices? τ = some element) :
    ∃ depth numCommon, f.graph.numCommonLoops a'.op a.op = .ok numCommon ∧
      (loopsOf w₁).length < depth ∧ depth ≤ numCommon + 1 ∧
      f.graph.dependence source target depth ≠ .ok .absent := by
  have hThere := hStart.trans hFirst
  have hHere := hStart.trans hSecond
  have hNumbered := hWhole.numbered hThere
  have hNumbered' := hWhole.numbered hHere
  have hLoops := hWhole.part.enclosingLoops hThere.leads hHead'
  have hLoops' := hWhole.part.enclosingLoops hHere.leads hHead
  rw [loopsOf_append] at hNumbered hNumbered' hLoops hLoops'
  rcases before_of_earlier hNumbered hNumbered'
    (fun l hMem => (hWhole.env_of_outer hStart hFirst hMem).trans
      (hWhole.env_of_outer hStart hSecond hMem).symm) hEarlier with
    ⟨depth, common, hCommon, hLow, hHigh, hFinal, hBefore⟩
  have hAsked : f.graph.numCommonLoops a'.op a.op = .ok common := by
    unfold Graph.numCommonLoops
    rw [hLoops, hLoops']
    exact congrArg Except.ok hCommon
  refine ⟨depth, common, hAsked, hLow, hHigh, fun hAbsent => ?_⟩
  obtain ⟨common', hAsked', hWhy⟩ := Graph.of_absent hSource hTarget hMemref hStore hAbsent
  cases hAsked.symm.trans hAsked'
  rcases hWhy with ⟨hDeep, hOrder⟩ | ⟨nests, system, hNest, hNest', hSystem, hEmpty⟩
  · have hPrecedes := hStart.leads.precedes (hFinal hDeep)
    have hInOrder := hWhole.part.inOrder_of_precedes hPrecedes
    cases appearsBefore_of_inOrder hWhole.valid hWhole.tidy (hWhole.first hThere.leads hHead').1
      (hWhole.first hHere.leads hHead).1 hInOrder hOrder
  · cases nests
    cases hLoops.symm.trans hNest
    cases hLoops'.symm.trans hNest'
    have hAgree := hWhole.agreeOutside hThere hHead' hHere hHead
    rw [loopsOf_append, loopsOf_append] at hAgree
    have hBuilt := Graph.ensures_addDependence hSource hTarget hNest hNest'
      (hWhole.visit_of_access hWithin hThere hHead' hSource hIndices')
      (hWhole.visit_of_access hWithin hHere hHead hTarget hIndices) hAgree hBefore
    exact hSound hSource hTarget hNest hNest' hAsked hSystem hEmpty
      (Graph.holds_of_ensures hBuilt hSystem)

/-
  What is harmless on the way to an access does not access its
  element.
-/
theorem Whole.not_accesses (hSound : f.graph.EmptinessSound) (hStart : p.Arrives σ w₁ t₁ q₁ σ₁)
    (hArrives : q₁.Arrives σ₁ w t q τ) (hHead : q.head? = some a) (hWithin : σ.Within params p)
    (hSeparate : ∀ e ∈ t, e.2.Separate) (hSeparate' : τ.Separate)
    (hTarget : f.graph.access? a.op = .ok (some s.target))
    (hLoops : s.minLoops = (loopsOf w₁).length) (hStore : s.kind = .write ∨ s.target.isStore = true)
    (hPlace : a.place? τ = some place) (hMem : e ∈ t) (hHarmless : f.graph.Harmless s e.1.op)
    (hOp : f.graph.op e.1.op = .ok o')
    (hAccesses : Graph.Accesses o' s.kind) : e.1.place? e.2 ≠ some place := by
  intro hSame
  have hNodup := hWhole.nodup_ids.sublist hStart.leads.sublist_ids
  have hScoped := hStart.leads.scoped hWhole.wellScoped
  obtain ⟨w', t', q', hThere, hFirst, hEarlier⟩ := hArrives.earlier hNodup hScoped hHead hMem
  rcases hArrives.same_element hScoped hMem hThere hFirst hSeparate hSeparate'
    hSame hPlace with ⟨hMemref, element, hIndices, hIndices'⟩
  obtain ⟨o₁, hOp₁, hAct⟩ := (hWhole.first (hStart.trans hThere).leads hFirst).2
  cases hOp.symm.trans hOp₁
  obtain ⟨o₂, hOp₂, hAct₂⟩ := (hWhole.first (hStart.trans hArrives).leads hHead).2
  have hTargetMemref := (Graph.parts_of_access? hTarget hOp₂).2.1
  rw [hAct₂, hTargetMemref] at hMemref
  obtain ⟨depth, hNone⟩ := hHarmless
  rcases Graph.of_mayInterfere hNone hOp hAccesses with hOther |
    ⟨source, numCommon, hSource, hCommon, hNone⟩
  · refine hOther ?_
    rw [← hMemref, hAct, Graph.memrefOperand?_of_access]
    exact (hAccesses.imp And.right And.right)
  obtain ⟨_, hMemref', hIsStore⟩ := Graph.parts_of_access? hSource hOp
  rw [← hAct, hMemref] at hMemref'
  have hEither : source.isStore = true ∨ s.target.isStore = true := by
    rcases hStore with hWrite | hStore
    · rcases hAccesses with ⟨_, hKind⟩ | ⟨hRead, _⟩
      · exact .inl (hIsStore.trans hKind)
      · cases hWrite.symm.trans hRead
    · exact .inr hStore
  rcases hWhole.exists_depth hSound hWithin hStart hThere hArrives hFirst
    hHead hEarlier hSource hTarget (Option.some.inj hMemref').symm hEither
    hIndices hIndices' with ⟨depth, common, hCommon', hLow, hHigh, hPresent⟩
  have hTargetOp := Graph.op_of_access? hTarget
  rw [hTargetOp, hCommon'] at hCommon
  cases hCommon
  refine hPresent (Graph.absent_of_dependsAt hNone ?_)
  exact Graph.mem_depthsBetween (hLoops ▸ hLow) hHigh

/- Loops around a start that are also around what comes behind it. -/
theorem Whole.minLoops {q₀ : Prog} {w₀ w₂ : List Mark} {a₀ : Act} {minLoops : Nat}
    (hStart : p.Leads w₀ q₀) (hHead₀ : q₀.head? = some a₀) (hLeads : p.Leads (w₁ ++ w₂) q)
    (hHead : q.head? = some a) (hLoops : loopsOf w₁ = loopsOf w₀)
    (hAsked : f.graph.numCommonLoops a₀.op a.op = .ok minLoops) :
    minLoops = (loopsOf w₁).length := by
  unfold Graph.numCommonLoops at hAsked
  rw [hWhole.part.enclosingLoops hStart hHead₀,
    hWhole.part.enclosingLoops hLeads hHead,
    loopsOf_append, hLoops, map_append] at hAsked
  have hCommon := Graph.commonLength_append ((loopsOf w₀).map Prod.fst) []
    ((loopsOf w₂).map Prod.fst)
  rw [append_nil] at hCommon
  have hLength := Except.ok.inj hAsked
  rw [hCommon] at hLength
  rw [← hLength, hLoops]
  simp [Graph.commonLength]

/-
  What a run comes to between a start and an access that
  nothing interferes with: first what is in the start, and
  then harmless operations.
-/
theorem Whole.exists_stretch (hArrives : p.Arrives σ w t q τ) (hHead : q.head? = some a)
    (hBefore : f.graph.isBefore start z = .ok true) (hAround : f.graph.isAncestor z a.op = .ok true)
    (hNone : f.graph.hasEffectBetween kind start a.op = .ok false) :
    ∃ (s : Stretch) (w₀ : List Mark) (t₀ : Trace) (q₀ : Prog) (a₀ : Act)
      (σ₀ : Store) (w₁ : List Mark) (t₁ : Trace) (σ₁ : Store) (w₂ : List Mark) (t₂ : Trace),
      s.kind = kind ∧ f.graph.access? a.op = .ok (some s.target) ∧
      s.minLoops = (loopsOf w₁).length ∧ t = t₀ ++ (a₀, σ₀) :: (t₁ ++ t₂) ∧ a₀.op = start ∧
      q₀.head? = some a₀ ∧ p.Arrives σ w₀ t₀ q₀ σ₀ ∧ (∀ e ∈ t₁, e.1.op ∈ q₀.inner) ∧
      p.Arrives σ w₁ (t₀ ++ (a₀, σ₀) :: t₁) q₀.tail σ₁ ∧ q₀.tail.Arrives σ₁ w₂ t₂ q τ ∧
      ∀ e ∈ t₂, f.graph.Harmless s e.1.op := by
  obtain ⟨_, _, _, hThere⟩ := hWhole.part.leads hArrives.leads hHead
  obtain ⟨hReached, hRises, _⟩ := hThere.first hHead
  rcases Graph.of_hasEffectBetween hNone hRises with
    ⟨s, hKind, hAccess, hCommon, y, hMem, hParents, hInner, hHarmless⟩
  rcases Graph.split_of_isBefore hBefore with
    ⟨b₀, blk₀, us, vs, zs, hParent, hParent', hBlock, hOps, hPosition⟩
  have hOnWay := hRises.isAncestor_iff.mp hAround
  have hSame : y = z := by
    refine hRises.eq_of_parentOp? hMem hOnWay (hParents.trans ?_)
    unfold Graph.parentOp? Graph.parentRegion
    rw [hParent, hParent']
  subst hSame
  rw [append_nil, mem_cons, mem_reverse] at hOnWay
  rcases hWhole.sibling hArrives.leads hHead hOnWay hParent' hBlock hOps with
    ⟨w₀, q₀, a₀, p₁, p₂, p₃, hStart, hHead₀, rfl, hTail, hFront, hLast, hIn⟩
  have hBehind : a.op ∈ q₀.tail.ids := by simp [hTail, hIn]
  rcases hArrives.stretch hWhole.nodup_ids hStart hHead₀ hHead hBehind with
    ⟨w₁, t₀, σ₀, t₁, σ₁, w₂, t₂, rfl, hLoops, rfl, hInside, hFirst, hSecond, hThird⟩
  refine ⟨s, w₀, t₀, q₀, a₀, σ₀, w₁, t₁, σ₁, w₂, t₂, hKind, hAccess,
    hWhole.minLoops hStart hHead₀ hArrives.leads hHead hLoops hCommon, rfl, rfl,
    hHead₀, hFirst, hInside, hSecond, hThird, ?_⟩
  have hNodup := hWhole.nodup_ids.sublist hSecond.leads.sublist_ids
  rw [hTail] at hThird hNodup
  have hOther : y ∉ vs := by
    have hOnce := hWhole.tidy.nodup_ops hBlock
    rw [hOps] at hOnce
    intro hTwice
    exact (nodup_append.mp hOnce).2.2 y (mem_append_right _
      (mem_cons_of_mem _ hTwice)) y mem_cons_self rfl
  have hQuiet : ∀ v ∈ vs, f.graph.Harmless s v := fun v =>
    Graph.harmless_of_interferesInRegion hInner hParent hBlock hOps hPosition hOther
  intro e hEvent
  rcases hHarmless with rfl | hHarmless
  · -- The access itself is the later operation of the block.
    obtain ⟨o', _, hAsked, hHead', _⟩ := hLast.uncons
    obtain ⟨o₁, hAsked₁, hAct⟩ := (hThere.first hHead).2.2.2
    cases hAsked.symm.trans hAsked₁
    have hEnd : p₂.head? = some a := hHead'.trans (congrArg some hAct.symm)
    have hIn' := hThird.mem_front hNodup hHead (.inr (head?_append p₃ hEnd)) hEvent
    obtain ⟨v, hV, hImp⟩ := hFront.harmless hIn'
    exact hImp (hQuiet v hV)
  · rw [← Prog.append_assoc] at hThird hNodup
    have hIn' := hThird.mem_front hNodup hHead (.inl (by simp [hIn])) hEvent
    obtain ⟨v, hV, hImp⟩ := (hFront.append hLast).harmless hIn'
    rcases mem_append.mp hV with hV | hV
    · exact hImp (hQuiet v hV)
    · rw [mem_singleton.mp hV] at hImp
      exact hImp hHarmless

/- What is in the start of a part, and what is behind it. -/
theorem Whole.inside_of_inner (hLeads : p.Leads w q) (hHead : q.head? = some a) :
    (∀ y ∈ q.inner, f.graph.Inside a.op y ∧ y ≠ a.op) ∧ a.op ∉ q.tail.ids := by
  obtain ⟨_, _, _, hThere⟩ := hWhole.part.leads hLeads hHead
  have hUnfolds := hThere.unfolds
  obtain ⟨zs, _, rfl, _⟩ := hUnfolds.head hHead
  obtain ⟨_, first, _, _, _, hFirst, hSplit, hIds⟩ := hUnfolds.uncons
  have hNodup := hWhole.nodup_ids.sublist hLeads.sublist_ids
  rw [hSplit, ids_append, hIds, cons_append] at hNodup
  have hOnce := nodup_cons.mp hNodup
  rw [mem_append, not_or] at hOnce
  refine ⟨fun y hMem => ⟨?_, fun hSame => hOnce.1.1 (hSame ▸ hMem)⟩, hOnce.1.2⟩
  obtain ⟨y', hIn, hInside⟩ := hFirst.inside_of_mem_ids (hIds ▸ mem_cons_of_mem _ hMem)
  exact mem_singleton.mp hIn ▸ hInside

end

------
-- Runs
------

/- What stands between two entries of a list. -/
theorem exists_mem_of_between {α : Type} {as bs cs ds : List α} {a : α}
    (hList : ds = as ++ a :: bs ++ cs) (hLow : as.length < i)
    (hHigh : i < as.length + (bs.length + 1)) : ∃ e ∈ bs, ds[i]? = some e := by
  have hInside : i - as.length - 1 < bs.length := by omega
  refine ⟨bs[i - as.length - 1], getElem_mem hInside, ?_⟩
  subst hList
  grind

/-
  Nothing between an access and the last execution of a start
  accesses the element, in the way that was asked for.
-/
theorem effectFree_between
    {reg : Region} {kind : EffectKind} {start stop z : OpId} {args : List Datum} {m r : Machine}
    {n : Nat} (hValid : f.problems = .ok []) (hTidy : f.graph.Tidy)
    (hBody : f.graph.region f.body = .ok reg) (hSingle : reg.blocks = [b])
    (hSound : f.graph.EmptinessSound) (hBefore : f.graph.isBefore start z = .ok true)
    (hAround : f.graph.isAncestor z stop = .ok true) (hOp : f.graph.op stop = .ok o)
    (hKind : kind = .write ∨ (kind = .read ∧ o.kind.isStore = true))
    (hNone : f.graph.hasEffectBetween kind start stop = .ok false) (hSession : f.Session m)
    (hComes : f.ComesTo args m n stop r)
    (hSeparate : ∀ k h r, k ≤ n → f.ComesTo args m k h r → r.store.Separate)
    (hPlace : (f.graph.actOf stop o).place? r.store = some place) :
    ∃ first r₀, first < n ∧ f.ComesTo args m first start r₀ ∧
      ∀ k h r' o', first < k → k < n → f.ComesTo args m k h r' → f.graph.op h = .ok o' →
        h ≠ start ∧ (¬f.graph.Inside start h → Graph.Accesses o' kind →
          (f.graph.actOf h o').place? r'.store ≠ some place) := by
  obtain ⟨params, blk, xs, p, x, o₁, hWhole⟩ := whole_of_valid hValid hTidy hBody hSingle
  obtain ⟨target, hAccess⟩ := Graph.access_of_hasEffectBetween hNone
  have hJump := Graph.isJump_of_access? hAccess hOp
  rcases hWhole.arrives_of_comesTo hSession hComes hOp hJump with
    ⟨base, τ, w, t, q, u, hPass, hWithin, rfl, hTrace, hArrives, hHead⟩
  rcases hWhole.exists_stretch hArrives hHead hBefore hAround hNone with
    ⟨s, w₀, t₀, q₀, a₀, σ₀, w₁, t₁, σ₁, w₂, t₂, rfl, hTarget, hLoops, rfl,
      rfl, hHead₀, hFirst, hInner, hSecond, hThird, hHarmless⟩
  obtain ⟨hInside, hBehind⟩ := hWhole.inside_of_inner hFirst.leads hHead₀
  have hApart := hPass.holds hTrace hSeparate
  have hStore : s.kind = .write ∨ s.target.isStore = true := by
    refine hKind.imp_right fun hRead => ?_
    rw [(Graph.parts_of_access? hTarget hOp).2.2]
    exact hRead.2
  have hStarted : (p.pass (f.graph.actOf x o₁) τ).1[t₀.length]? = some (a₀, σ₀) := by simp [hTrace]
  obtain ⟨r₀, hComes₀, _⟩ := hPass.comes hStarted
  refine ⟨base + t₀.length, r₀, by simp, hComes₀, ?_⟩
  intro k h r' o' hLater hSooner hComes' hOp'
  rw [length_append, length_cons] at hSooner
  obtain ⟨e', hMem, hAt⟩ := exists_mem_of_between (i := k - base) hTrace (by omega) (by omega)
  have hIndex : k = base + (k - base) := by omega
  rw [hIndex] at hComes'
  obtain ⟨rfl, hStore'⟩ := hPass.event hAt hComes'
  rcases mem_append.mp hMem with hMem | hMem
  · obtain ⟨hIn, hOther⟩ := hInside _ (hInner e' hMem)
    exact ⟨hOther, fun hOutside => absurd hIn hOutside⟩
  · refine ⟨fun hSame => hBehind (hSame ▸ hThird.mem_ids_of_mem hMem), ?_⟩
    intro _ hAccesses
    have hAct := hWhole.actOf_of_pass (mem_of_getElem? hAt) hOp'
      (Graph.isJump_of_accesses hAccesses)
    rw [← hAct, hStore']
    refine hWhole.not_accesses hSound hSecond hThird hHead hWithin ?_ ?_ hTarget
      hLoops hStore hPlace hMem (hHarmless e' hMem) hOp' hAccesses
    · exact fun e hIn => hApart e (by simp [hIn])
    · exact hApart (f.graph.actOf stop o, r.store) (by simp)

/-
  Stores to two elements of a buffer, and a load of the first
  one behind them.
-/
def storesAndLoad : Function where
  name := "f"
  body := ⟨0⟩
  resultTypes := []
  graph := {
    ops := {
      slots := #[some {
          kind := .affineStore (.ofConstant 0)
          operands := [⟨1⟩, ⟨0⟩]
          parent := some ⟨0⟩ },
        some {
          kind := .affineStore (.ofConstant 1)
          operands := [⟨1⟩, ⟨0⟩]
          parent := some ⟨0⟩ },
        some {
          kind := .affineLoad (.ofConstant 0)
          operands := [⟨0⟩]
          results := [⟨2⟩]
          parent := some ⟨0⟩ },
        some { kind := .ret, parent := some ⟨0⟩ }]
      live := 4 }
    blocks := {
      slots := #[some {
          args := [⟨0⟩, ⟨1⟩]
          ops := [⟨0⟩, ⟨1⟩, ⟨2⟩, ⟨3⟩]
          parent := ⟨0⟩ }]
      live := 1 }
    regions := {
      slots := #[some { blocks := [⟨0⟩] }]
      live := 1 }
    values := {
      slots := #[some {
          ty := .memref [2] .i32
          definer := .argument ⟨0⟩ 0
          uses := [⟨⟨0⟩, 1⟩, ⟨⟨1⟩, 1⟩, ⟨⟨2⟩, 0⟩] },
        some {
          ty := .i32
          definer := .argument ⟨0⟩ 1
          uses := [⟨⟨0⟩, 0⟩, ⟨⟨1⟩, 0⟩] },
        some { ty := .i32, definer := .result ⟨2⟩ 0 }]
      live := 3 } }

theorem tidy_storesAndLoad : storesAndLoad.graph.Tidy where
  ops := by decide +kernel
  regions := by decide +kernel
  blocks := by
    have hEntries : storesAndLoad.graph.blocks.entries =
        [(⟨0⟩, ⟨[⟨0⟩, ⟨1⟩], [⟨0⟩, ⟨1⟩, ⟨2⟩, ⟨3⟩], ⟨0⟩⟩)] := rfl
    intro e hMem
    rw [hEntries, mem_singleton] at hMem
    subst hMem
    exact ⟨by decide, ⟨_, rfl, by decide⟩, by decide +kernel⟩

/- The accesses of the function. -/
theorem access_storesAndLoad (hAccess : storesAndLoad.graph.access? h = .ok (some access)) :
    h = ⟨0⟩ ∨ h = ⟨1⟩ ∨ h = ⟨2⟩ := by
  obtain ⟨i⟩ := h
  match i, hAccess with
  | 0, _ => exact .inl rfl
  | 1, _ => exact .inr (.inl rfl)
  | 2, _ => exact .inr (.inr rfl)
  | 3, hAccess => cases hAccess
  | n + 4, hAccess => cases hAccess

/- The systems have one row: the constant indices are the same. -/
theorem emptinessSound_storesAndLoad : storesAndLoad.graph.EmptinessSound := by
  intro x y source target nests numCommon depth system hSource hTarget hLoops
    hLoops' hCommon hSystem hEmpty
  have hRow : ∃ c : Int, system = ⟨0, [⟨[], c⟩], []⟩ := by
    obtain ⟨sourceLoops, targetLoops⟩ := nests
    rcases access_storesAndLoad hSource with rfl | rfl | rfl <;>
      rcases access_storesAndLoad hTarget with rfl | rfl | rfl <;>
      cases hSource <;> cases hTarget <;> cases hLoops <;> cases hLoops' <;>
      cases hCommon <;> cases hSystem <;> exact ⟨_, rfl⟩
  obtain ⟨c, rfl⟩ := hRow
  rintro ⟨point, hEqual, _⟩
  have hZero : c = 0 := by simpa [Row.eval, Row.sumFrom] using hEqual ⟨[], c⟩ (mem_singleton_self _)
  subst hZero
  cases hEmpty

/- A machine with one buffer, and arguments for the function. -/
def storesMachine : Machine := (Exec.outcome (Exec.allocBuffer (.memref [2] .i32) none) {}).2

def storesArgs : List Datum := [.buffer 0, .scalar (.i32 7)]

/- The machine where the run comes to the load. -/
def storesReached : Machine := (Exec.outcome (storesAndLoad.run storesArgs)
    { storesMachine with limit := 2 }).2

/- There is only one buffer. -/
theorem separate_storesAndLoad {r : Machine} (hLess : k ≤ 2)
    (hComes : storesAndLoad.ComesTo storesArgs storesMachine k h r) : r.store.Separate := by
  have hCells : ∀ k < 3, (Exec.outcome (storesAndLoad.run storesArgs)
      { storesMachine with limit := k }).2.env.cells =
        #[some (.buffer 0), some (.scalar (.i32 7))] := by
    decide +kernel
  have hEnv := hCells k (by omega)
  rw [hComes.1] at hEnv
  have hOnly {v : ValueId} {id : Nat} (hBuffer : r.store.env v = some (.buffer id)) : v = ⟨0⟩ := by
    obtain ⟨i⟩ := v
    unfold Machine.store Table.get? at hBuffer
    dsimp only at hBuffer hEnv
    rw [hEnv] at hBuffer
    match i, hBuffer with
    | 0, _ => rfl
    | 1, hBuffer => cases hBuffer
    | i + 2, hBuffer => simp at hBuffer
  intro v w id hFirst hSecond
  exact (hOnly hFirst).trans (hOnly hSecond).symm

/- No other store touches the first element before the load. -/
theorem effectFree_storesAndLoad :
    storesAndLoad.graph.hasEffectBetween .write ⟨0⟩ ⟨2⟩ = .ok false ∧ ∃ first r, first < 2 ∧
        storesAndLoad.ComesTo storesArgs storesMachine first ⟨0⟩ r ∧
        ∀ k h r' o', first < k → k < 2 → storesAndLoad.ComesTo storesArgs storesMachine k h r' →
          storesAndLoad.graph.op h = .ok o' → h ≠ ⟨0⟩ ∧ (¬storesAndLoad.graph.Inside ⟨0⟩ h →
            Graph.Accesses o' .write → (storesAndLoad.graph.actOf h o').place? r'.store ≠
              some (0, 0)) := by
  refine ⟨by decide +kernel, ?_⟩
  have hComes : storesAndLoad.ComesTo storesArgs storesMachine 2 ⟨2⟩
      storesReached := ⟨rfl, _, _, rfl, rfl⟩
  exact effectFree_between (z := ⟨2⟩) (r := storesReached) (by decide +kernel)
    tidy_storesAndLoad rfl rfl emptinessSound_storesAndLoad (by decide +kernel)
    (by decide +kernel) rfl (.inl rfl) (by decide +kernel) (.alloc _ _ .new)
    hComes (fun _ _ _ hLess hComes => separate_storesAndLoad hLess hComes) rfl

end Function

end AffineIR
