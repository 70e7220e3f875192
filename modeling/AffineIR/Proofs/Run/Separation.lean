import AffineIR.Proofs.Affine.Exact
import AffineIR.Proofs.Run.Standing

/-
  Different names for different buffers.

  If no two values are ever bound to the same buffer, then two
  accesses to one element name the same value and have the
  same indices, even if time passes between them: a buffer is
  not handed on from one name to another one without both
  having it for a moment.

  Main result: `Prog.Arrives.same_element`
-/

namespace AffineIR

open List Option

variable {offset offset' : Nat} {place : Nat × Nat} {memref v w : ValueId}

namespace Shape

variable {shape : Shape} {indices indices' : List Int} {r : Nat}

theorem offsetFrom_cons {extent index : Int}
    (hOffset : offsetFrom offset (extent :: shape) (index :: indices) = .ok (some r)) :
    0 ≤ index ∧ index < extent ∧ offsetFrom (offset * extent.toNat + index.toNat) shape indices =
        .ok (some r) := by
  rw [offsetFrom] at hOffset
  split at hOffset
  · cases hOffset
  rename_i hInside
  split at hOffset
  · cases hOffset
  rename_i scaled hScaled
  split at hOffset
  · cases hOffset
  rename_i next hNext
  rw [Word.eq_of_count hNext, Word.eq_of_count hScaled] at hOffset
  exact ⟨by omega, by omega, hOffset⟩

/- Elements at the same position have the same indices. -/
theorem eq_of_offsetFrom (hFirst : offsetFrom offset shape indices = .ok (some r))
    (hSecond : offsetFrom offset' shape indices' = .ok (some r)) :
    offset = offset' ∧ indices = indices' := by
  induction shape generalizing offset offset' indices indices' with
  | nil =>
    cases indices with
    | nil =>
      cases indices' with
      | nil =>
        cases hFirst
        cases hSecond
        exact ⟨rfl, rfl⟩
      | cons => cases hSecond
    | cons => cases hFirst
  | cons extent shape ih =>
    cases indices with
    | nil => cases hFirst
    | cons index indices =>
      cases indices' with
      | nil => cases hSecond
      | cons index' indices' =>
        obtain ⟨hLow, hHigh, hRest⟩ := offsetFrom_cons hFirst
        obtain ⟨hLow', hHigh', hRest'⟩ := offsetFrom_cons hSecond
        obtain ⟨hSum, rfl⟩ := ih hRest hRest'
        -- quotient and remainder by the extent
        have hQuotient := congrArg (· / extent.toNat) hSum
        have hRemainder := congrArg (· % extent.toNat) hSum
        have hPos : 0 < extent.toNat := by omega
        have hLess : index.toNat < extent.toNat := by omega
        have hLess' : index'.toNat < extent.toNat := by omega
        simp only [Nat.mul_comm _ extent.toNat, Nat.mul_add_div hPos, Nat.div_eq_of_lt hLess,
          Nat.div_eq_of_lt hLess', Nat.add_zero] at hQuotient
        simp only [Nat.mul_comm _ extent.toNat, Nat.mul_add_mod,
          Nat.mod_eq_of_lt hLess, Nat.mod_eq_of_lt hLess'] at hRemainder
        have hIndex : index = index' := by omega
        exact ⟨hQuotient, by rw [hIndex]⟩

theorem eq_of_offset? (hFirst : shape.offset? indices = .ok (some r))
    (hSecond : shape.offset? indices' = .ok (some r)) : indices = indices' := by
  unfold offset? at hFirst hSecond
  split at hFirst
  · split at hSecond
    · exact (eq_of_offsetFrom hFirst hSecond).2
    · cases hSecond
  · cases hFirst

end Shape

namespace Store

variable {σ : Store} {indices : List Int}

/- The element that indices name, opened. -/
theorem slot?_eq_some (hSlot : σ.slot? memref indices = some place) :
    ∃ b, σ.env memref = some (.buffer place.1) ∧ σ.buffers[place.1]? = some b ∧ b.freed = false ∧
      b.shape.offset? indices = .ok (some place.2) := by
  obtain ⟨d, hEnv, hSlot⟩ := bind_eq_some_iff.mp hSlot
  cases d with
  | scalar => cases hSlot
  | buffer id =>
    obtain ⟨b, hBuffer, hSlot⟩ := bind_eq_some_iff.mp hSlot
    split at hSlot
    · cases hSlot
    · rename_i hLive
      obtain ⟨answer, hAnswer, hSlot⟩ := bind_eq_some_iff.mp hSlot
      obtain ⟨offset, rfl, rfl⟩ := map_eq_some_iff.mp hSlot
      refine ⟨b, hEnv, hBuffer, by simpa using hLive, ?_⟩
      cases hOffset : b.shape.offset? indices with
      | error e => rw [hOffset] at hAnswer; cases hAnswer
      | ok found => rw [hOffset] at hAnswer; cases hAnswer; rfl

/- No two values are bound to the same buffer. -/
def Separate (σ : Store) : Prop :=
  ∀ ⦃v w id⦄, σ.env v = some (.buffer id) → σ.env w = some (.buffer id) → v = w

end Store

namespace Act

variable {a : Act} {σ σ' : Store} {id : Nat}

theorem eq_of_mem_bound (hFirst : v ∈ a.bound) (hSecond : w ∈ a.bound) : v = w := by
  unfold bound at hFirst hSecond
  split at hFirst
  · rw [if_pos ‹_›] at hSecond
    rcases hResults : a.results with _ | ⟨r, rest⟩
    · rw [hResults] at hFirst
      cases hFirst
    · simp only [hResults, take_succ_cons, take_zero,
        mem_singleton] at hFirst hSecond
      rw [hFirst, hSecond]
  · cases hFirst

theorem mem_operands_of_memref
    (hMemref : a.memrefOperand? = some memref) : memref ∈ a.operands := by
  unfold memrefOperand? at hMemref
  split at hMemref
  · exact mem_of_getElem? hMemref
  · exact mem_of_getElem? hMemref

theorem size_le_of_step (hStep : a.step σ = some σ') : σ.buffers.size ≤ σ'.buffers.size := by
  cases effect_of_step hStep with
  | value => exact Nat.le_refl _
  | write => simp [Store.setElement]
  | skip => exact Nat.le_refl _
  | alloc hKind hTy hAlloc =>
    obtain ⟨b, _, rfl, _⟩ := Store.alloc?_eq_some hAlloc
    simp
  | free => simp [Store.setFreed]

/- What is bound to a buffer was before, or is bound to a copy. -/
theorem holder_of_step (hStep : a.step σ = some σ') (hThere : id < σ.buffers.size)
    (hBuffer : σ'.env w = some (.buffer id)) :
    σ.env w = some (.buffer id) ∨ (w ∈ a.bound ∧ ∃ u, σ.env u = some (.buffer id)) := by
  by_cases hBound : w ∈ a.bound
  · cases effect_of_step hStep with
    | @value d r hKind hValue hResult =>
      by_cases hEq : w = r
      · subst hEq
        rw [Store.env_assign_self] at hBuffer
        cases hBuffer
        exact .inr ⟨hBound, env_of_value?_buffer hValue⟩
      · rw [Store.env_assign_of_ne _ _ hEq] at hBuffer
        exact .inl hBuffer
    | write => exact .inl hBuffer
    | skip => exact .inl hBuffer
    | @alloc ty d τ r hKind hTy hAlloc hResult =>
      obtain ⟨b, rfl, rfl, _⟩ := Store.alloc?_eq_some hAlloc
      by_cases hEq : w = r
      · subst hEq
        rw [Store.env_assign_self] at hBuffer
        cases hBuffer
        exact absurd hThere (Nat.lt_irrefl _)
      · rw [Store.env_assign_of_ne _ _ hEq] at hBuffer
        exact .inl hBuffer
    | free => exact .inl hBuffer
  · rw [env_of_step hStep hBound] at hBuffer
    exact .inl hBuffer

theorem shape_of_step {b : Buffer} (hStep : a.step σ = some σ')
    (hBuffer : σ.buffers[id]? = some b) : ∃ b', σ'.buffers[id]? = some b' ∧ b'.shape = b.shape := by
  have hModify {i : Nat} {f : Buffer → Buffer} (hShape : ∀ b, (f b).shape = b.shape) :
      ∃ b', (σ.buffers.modify i f)[id]? = some b' ∧ b'.shape = b.shape := by
    rw [Array.getElem?_modify]
    split
    · exact ⟨f b, by rw [hBuffer]; rfl, hShape b⟩
    · exact ⟨b, hBuffer, rfl⟩
  cases effect_of_step hStep with
  | value => exact ⟨b, hBuffer, rfl⟩
  | write => exact hModify fun _ => rfl
  | skip => exact ⟨b, hBuffer, rfl⟩
  | alloc hKind hTy hAlloc =>
    obtain ⟨b', _, rfl, _⟩ := Store.alloc?_eq_some hAlloc
    have hInside := (Array.getElem?_eq_some_iff.mp hBuffer).1
    refine ⟨b, ?_, rfl⟩
    rw [Store.buffers_assign, Array.getElem?_push, if_neg (by omega), hBuffer]
  | free => exact hModify fun _ => rfl

end Act

------
-- Names of buffers
------

namespace Prog

variable {p q q₁ : Prog} {w w₁ : List Mark} {t t₁ : Trace} {σ τ : Store} {id : Nat} {a b : Act}
  {e : Act × Store}

/- What holds along every run holds since every event of it. -/
theorem Along.since {P : Store → Trace → Store → Prop} (hAlong : p.Along P) :
    p.Along fun σ t τ => P σ t τ ∧ ∀ t₁ e t₂, t = t₁ ++ e :: t₂ → P e.2 (e :: t₂) τ where
  refl σ := ⟨hAlong.refl σ, fun t₁ e t₂ hSplit => by simp at hSplit⟩
  trans {σ₁ σ₂ σ₃ u₁ u₂} hFirst hSecond := by
    refine ⟨hAlong.trans hFirst.1 hSecond.1, ?_⟩
    intro t₁ e t₂ hSplit
    rcases append_eq_append_iff.mp hSplit with ⟨s, rfl, hRest⟩ | ⟨s, hStart, hRest⟩
    · exact hSecond.2 s e t₂ hRest
    · cases s with
      | nil => exact hSecond.2 [] e t₂ hRest.symm
      | cons e' s =>
        cases hRest
        exact hAlong.trans (hFirst.2 t₁ e s hStart) hSecond.1
  head a σ := by
    refine ⟨hAlong.head a σ, ?_⟩
    intro t₁ e t₂ hSplit
    rcases cons_eq_append_iff.mp hSplit with ⟨rfl, hHere⟩ | ⟨s, _, hNil⟩
    · cases hHere
      exact hAlong.head a σ
    · simp at hNil
  step {a σ σ'} hDoes hStep := by
    refine ⟨hAlong.step hDoes hStep, ?_⟩
    intro t₁ e t₂ hSplit
    rcases cons_eq_append_iff.mp hSplit with ⟨rfl, hHere⟩ | ⟨s, _, hNil⟩
    · cases hHere
      exact hAlong.step hDoes hStep
    · simp at hNil
  count hVar σ i := ⟨hAlong.count hVar σ i, fun t₁ e t₂ hSplit => by simp at hSplit⟩

/- Results of actions are not variables of loops. -/
theorem WellScoped.not_counts (hScoped : p.WellScoped) (hDoes : p.Does a)
    (hMem : v ∈ a.bound) : ¬p.Counts v := by
  have hBinds {q : Prog} (hDoes : q.Does a) : q.Binds v := binds_iff.mpr (.inl ⟨a, hDoes, hMem⟩)
  have hBinds' {q : Prog} (hCounts : q.Counts v) : q.Binds v := binds_iff.mpr (.inr hCounts)
  induction p with
  | nil => exact hDoes.elim
  | act a' rest ih =>
    obtain ⟨_, hFresh, hRest⟩ := hScoped
    rcases hDoes with rfl | hDoes
    · exact fun hCounts => hFresh v (.inr hMem) (hBinds' hCounts)
    · exact ih hRest hDoes
  | loop a' var body rest ihBody ihRest =>
    obtain ⟨hHead, _, hApart, hApart', hBody, hRest⟩ := hScoped
    rcases hDoes with hDoes | hDoes
    · rintro (rfl | hCounts | hCounts)
      · exact hHead v (.inr rfl) (hBinds hDoes)
      · exact ihBody hBody hDoes hCounts
      · exact hApart.binds (.inr (.inl (hBinds hDoes))) (hBinds' hCounts)
    · rintro (rfl | hCounts | hCounts)
      · exact hApart'.binds (hBinds hDoes) (.inl rfl)
      · exact hApart'.binds (hBinds hDoes) (.inr (.inl (hBinds' hCounts)))
      · exact ihRest hRest hDoes hCounts
  | cond a' branch rest ihBranch ihRest =>
    obtain ⟨_, hOther, hApart, hApart', hBranch, hRest⟩ := hScoped
    rcases hDoes with ⟨taken, hDoes⟩ | hDoes
    · rintro (⟨there, hCounts⟩ | hCounts)
      · by_cases hSame : taken = there
        · subst hSame
          exact ihBranch taken (hBranch taken) hDoes hCounts
        · exact (hOther hSame).binds (hBinds hDoes) (hBinds' hCounts)
      · exact hApart.binds (.inl ⟨taken, hBinds hDoes⟩) (hBinds' hCounts)
    · rintro (⟨taken, hCounts⟩ | hCounts)
      · exact hApart'.binds (hBinds hDoes) (.inl ⟨taken, hBinds' hCounts⟩)
      · exact ihRest hRest hDoes hCounts

/- An operand that is bound to a buffer is not the variable of a loop. -/
theorem Arrives.not_counts (hScoped : p.WellScoped) (hArrives : p.Arrives σ w t q τ)
    (hHead : q.head? = some a) (hMem : v ∈ a.operands)
    (hBuffer : τ.env v = some (.buffer id)) : ¬p.Counts v := by
  intro hCounts
  have hLeads := hArrives.leads
  rcases hScoped.visible_of_operand hLeads hHead hMem
    (binds_iff.mpr (.inr hCounts)) with ⟨k, hMark, hBound⟩
  cases k with
  | past a' =>
    obtain ⟨_, _, _, _, _, hFirst, hOpens, _⟩ := hLeads.at_mark hMark
    cases hOpens
    exact hScoped.not_counts (hFirst.does (.inl rfl)) hBound hCounts
  | inside a' var =>
    cases mem_singleton.mp hBound
    obtain ⟨_, i, _, _, hIndex⟩ := hArrives.holds hScoped hMark
    cases hBuffer.symm.trans hIndex
  | branch a' taken => cases hBound

/-
  A buffer is known by one name only, or by this name and
  another one at the same time.
-/
def KnownAs (p : Prog) (v : ValueId) (id : Nat) (σ : Store) : Prop := id < σ.buffers.size ∧
    ((∀ w, σ.env w = some (.buffer id) → w = v) ∨
      ∃ w, w ≠ v ∧ ¬p.Counts w ∧ σ.env w = some (.buffer id) ∧ σ.env v = some (.buffer id))

theorem KnownAs.eq (hKnown : p.KnownAs v id σ) (hSeparate : σ.Separate) {w : ValueId}
    (hBuffer : σ.env w = some (.buffer id)) : w = v := by
  rcases hKnown.2 with hOnly | ⟨w', hNe, _, hOther, hSelf⟩
  · exact hOnly w hBuffer
  · exact absurd (hSeparate hOther hSelf) hNe

theorem along_knownAs (hScoped : p.WellScoped) (hVar : ¬p.Counts v) (id : Nat) :
    p.Along fun σ t τ => (∀ e ∈ t, e.2.Separate) → p.KnownAs v id σ → p.KnownAs v id τ where
  refl σ _ := fun hKnown => hKnown
  trans {σ₁ σ₂ σ₃ t₁ t₂} hFirst hSecond hSeparate hKnown :=
    hSecond (fun e hMem => hSeparate e (mem_append_right _ hMem))
      (hFirst (fun e hMem => hSeparate e (mem_append_left _ hMem)) hKnown)
  head a σ _ := fun hKnown => hKnown
  step {a σ σ'} hDoes hStep hSeparate hKnown := by
    have hOnly {u : ValueId} (hBuffer : σ.env u = some (.buffer id)) : u = v :=
      hKnown.eq (hSeparate _ (mem_singleton_self _)) hBuffer
    refine ⟨Nat.lt_of_lt_of_le hKnown.1 (Act.size_le_of_step hStep), ?_⟩
    by_cases hOther : ∃ w, w ≠ v ∧ σ'.env w = some (.buffer id)
    · obtain ⟨w, hNe, hBuffer⟩ := hOther
      rcases Act.holder_of_step hStep hKnown.1 hBuffer with hBefore | ⟨hBound, u, hBefore⟩
      · exact absurd (hOnly hBefore) hNe
      · -- the result `w` is a copy, and `v` has the buffer still
        have hSame := hOnly hBefore
        subst hSame
        refine .inr ⟨w, hNe, hScoped.not_counts hDoes hBound, hBuffer, ?_⟩
        have hKept : _ ∉ a.bound := fun hMem => hNe (Act.eq_of_mem_bound hBound hMem)
        rw [Act.env_of_step hStep hKept, hBefore]
    · exact .inl fun w hBuffer => Decidable.byContradiction fun hNe => hOther ⟨w, hNe, hBuffer⟩
  count {var} hCounts σ i _ hKnown := by
    have hEnv {w : ValueId} (hNe : w ≠ var) : (σ.count var i).env w = σ.env w :=
      Store.env_assign_of_ne _ _ hNe
    have hNotVar {w : ValueId} (hFree : ¬p.Counts w) : w ≠ var := by
      rintro rfl
      exact hFree hCounts
    refine ⟨hKnown.1, ?_⟩
    rcases hKnown.2 with hOnly | ⟨w, hNe, hFree, hOther, hSelf⟩
    · refine .inl fun w hBuffer => hOnly w ?_
      rw [← hBuffer, hEnv]
      rintro rfl
      rw [Store.count, Store.env_assign_self] at hBuffer
      cases hBuffer
    · exact .inr ⟨w, hNe, hFree, (hEnv (hNotVar hFree)).trans hOther,
        (hEnv (hNotVar hVar)).trans hSelf⟩

/- Buffers keep their shapes. -/
theorem along_shape (p : Prog) (id : Nat) :
    p.Along fun σ _ τ => ∀ b, σ.buffers[id]? = some b →
      ∃ b', τ.buffers[id]? = some b' ∧ b'.shape = b.shape where
  refl σ b hBuffer := ⟨b, hBuffer, rfl⟩
  trans hFirst hSecond b hBuffer := by
    obtain ⟨b₁, hBuffer₁, hShape₁⟩ := hFirst b hBuffer
    obtain ⟨b₂, hBuffer₂, hShape₂⟩ := hSecond b₁ hBuffer₁
    exact ⟨b₂, hBuffer₂, hShape₂.trans hShape₁⟩
  head a σ b hBuffer := ⟨b, hBuffer, rfl⟩
  step _ hStep b hBuffer := Act.shape_of_step hStep hBuffer
  count _ _ _ b hBuffer := ⟨b, hBuffer, rfl⟩

/-
  Accesses to one element, one after the other, name the same
  value and have the same indices.
-/
theorem Arrives.same_element (hScoped : p.WellScoped) (hArrives : p.Arrives σ w t q τ)
    (hMem : e ∈ t) (hThere : p.Arrives σ w₁ t₁ q₁ e.2) (hFirst : q₁.head? = some e.1)
    (hSeparate : ∀ e ∈ t, e.2.Separate) (hSeparate' : τ.Separate)
    (hPlace : e.1.place? e.2 = some place) (hPlace' : b.place? τ = some place) :
    e.1.memrefOperand? = b.memrefOperand? ∧ ∃ indices, e.1.indices? e.2 = some indices ∧
        b.indices? τ = some indices := by
  obtain ⟨u₁, u₂, hSplit⟩ := append_of_mem hMem
  obtain ⟨memref, hMemref, hSlot⟩ := bind_eq_some_iff.mp hPlace
  obtain ⟨indices, hIndices, hSlot⟩ := bind_eq_some_iff.mp hSlot
  obtain ⟨memref', hMemref', hSlot'⟩ := bind_eq_some_iff.mp hPlace'
  obtain ⟨indices', hIndices', hSlot'⟩ := bind_eq_some_iff.mp hSlot'
  obtain ⟨buf, hEnv, hBuffer, _, hOffset⟩ := Store.slot?_eq_some hSlot
  obtain ⟨buf', hEnv', hBuffer', _, hOffset'⟩ := Store.slot?_eq_some hSlot'
  have hFree := hThere.not_counts hScoped hFirst (Act.mem_operands_of_memref hMemref) hEnv
  have hKnown := (along_knownAs hScoped hFree place.1).since.arrives hArrives
  have hHere : p.KnownAs memref place.1 e.2 := by
    refine ⟨(Array.getElem?_eq_some_iff.mp hBuffer).1, .inl ?_⟩
    intro v hSame
    exact hSeparate e hMem hSame hEnv
  have hSame := (hKnown.2 u₁ e u₂ hSplit
    (fun e' hIn => hSeparate e' (hSplit ▸ mem_append_right _ hIn)) hHere).eq hSeparate' hEnv'
  subst hSame
  obtain ⟨_, hShapes⟩ := (along_shape p place.1).since.arrives hArrives
  obtain ⟨buf₁, hBuffer₁, hShape⟩ := hShapes u₁ e u₂ hSplit buf hBuffer
  cases hBuffer'.symm.trans hBuffer₁
  rw [hShape] at hOffset'
  have hIndex := Shape.eq_of_offset? hOffset hOffset'
  subst hIndex
  exact ⟨hMemref.trans hMemref'.symm, indices, hIndices, hIndices'⟩

end Prog

end AffineIR
