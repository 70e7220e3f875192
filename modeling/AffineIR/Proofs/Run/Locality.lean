import AffineIR.Proofs.Run.Action

/-
  What single operations depend on and what they leave alone.

  A step depends on the data of its operands and on buffers;
  it binds at most its first result.  A value stays the same
  as long as its operands do and, for a load, the element that
  it reads.

  Main result: `Act.value?_of_samePlace`
-/

namespace AffineIR

open List Option

variable {σ' : Store} {v : ValueId} {vs : List ValueId} {id n : Nat} {place : Nat × Nat}

------
-- Questions
------

namespace Store

variable {σ τ : Store}

theorem scalar?_congr (hEnv : σ.env v = τ.env v) : σ.scalar? v = τ.scalar? v := by
  unfold scalar?
  rw [hEnv]

theorem ints?_congr (hEnv : ∀ v ∈ vs, σ.env v = τ.env v) : σ.ints? vs = τ.ints? vs := by
  unfold ints?
  induction vs with
  | nil => rfl
  | cons v vs ih =>
    have hFirst : σ.int? v = τ.int? v := by
      unfold int?
      rw [scalar?_congr (hEnv v mem_cons_self)]
    have hRest := ih fun w hMem => hEnv w (mem_cons_of_mem v hMem)
    rw [mapM_cons, mapM_cons, hFirst, hRest]

theorem map?_congr (map : Affine.Map)
    (hEnv : ∀ v ∈ vs, σ.env v = τ.env v) : σ.map? map vs = τ.map? map vs := by
  unfold map?
  rw [ints?_congr hEnv]

theorem set?_congr (set : Affine.IntegerSet)
    (hEnv : ∀ v ∈ vs, σ.env v = τ.env v) : σ.set? set vs = τ.set? set vs := by
  unfold set?
  rw [ints?_congr hEnv]

theorem slot?_congr (indices : List Int) (hBuffers : σ.buffers = τ.buffers)
    (hEnv : σ.env v = τ.env v) : σ.slot? v indices = τ.slot? v indices := by
  unfold slot?
  rw [hEnv, hBuffers]

theorem element?_congr (place : Nat × Nat)
    (hBuffers : σ.buffers = τ.buffers) : σ.element? place = τ.element? place := by
  unfold element?
  rw [hBuffers]

end Store

/- Questions about an entry that may be missing. -/
theorem bind_congr_of_mem {α β : Type} {xs : List α} {f g : α → Option β} (i : Nat)
    (hSame : ∀ x ∈ xs, f x = g x) : xs[i]?.bind f = xs[i]?.bind g := by
  cases hEntry : xs[i]? with
  | none => rfl
  | some x => exact hSame x (mem_of_getElem? hEntry)

theorem bind_congr_of_some {α β : Type} {x : Option α} {f g : α → Option β}
    (hSame : ∀ a, x = some a → f a = g a) : x.bind f = x.bind g := by
  cases x with
  | none => rfl
  | some a => exact hSame a rfl

namespace Act

variable {a : Act} {σ τ : Store}

theorem indices?_congr
    (hEnv : ∀ v ∈ a.operands, σ.env v = τ.env v) : a.indices? σ = a.indices? τ := by
  have hPart {n : Nat} {vs : List ValueId} (hRest : (entriesFrom a.operands n).toOption = some vs) :
      ∀ v ∈ vs, σ.env v = τ.env v := fun v hMem => hEnv v (subset_of_entriesFrom (Answer.eq_ok_of_toOption hRest) hMem)
  unfold indices?
  split
  · exact bind_congr_of_some fun vs hRest => Store.map?_congr _ (hPart hRest)
  · exact bind_congr_of_some fun vs hRest => Store.ints?_congr (hPart hRest)
  · exact bind_congr_of_some fun vs hRest => Store.map?_congr _ (hPart hRest)
  · exact bind_congr_of_some fun vs hRest => Store.ints?_congr (hPart hRest)
  · rfl

/- A value depends on the operands, and for a load on buffers. -/
theorem value?_congr (hBuffers : a.kind.isLoad → σ.buffers = τ.buffers)
    (hEnv : ∀ v ∈ a.operands, σ.env v = τ.env v) : a.value? σ = a.value? τ := by
  have hScalar (i : Nat) : a.operands[i]?.bind σ.scalar? = a.operands[i]?.bind τ.scalar? :=
    bind_congr_of_mem i fun v hMem => Store.scalar?_congr (hEnv v hMem)
  have hDatum (i : Nat) : a.operands[i]?.bind σ.env = a.operands[i]?.bind τ.env :=
    bind_congr_of_mem i hEnv
  have hIndices := indices?_congr hEnv
  have hRead (hLoad : a.kind.isLoad) :
      ((a.indices? σ).bind fun indices =>
        a.operands[0]?.bind fun memref => (σ.read? memref indices).map Datum.scalar) =
      (a.indices? τ).bind fun indices =>
        a.operands[0]?.bind fun memref =>
          (τ.read? memref indices).map Datum.scalar := by
    rw [hIndices]
    apply bind_congr_of_some
    intro indices _
    apply bind_congr_of_mem
    intro memref hMem
    unfold Store.read?
    rw [Store.slot?_congr indices (hBuffers hLoad) (hEnv memref hMem)]
    congr 1
    apply bind_congr_of_some
    intro place _
    exact Store.element?_congr place (hBuffers hLoad)
  unfold value?
  split
  · rfl
  · simp only [hScalar]
  · simp only [hScalar]
  · simp only [hScalar, hDatum]
  · rw [Store.map?_congr _ hEnv]
  · rename_i set _
    apply bind_congr_of_some
    intro n _
    have hPoint :
        (entriesUpTo a.operands n).toOption.bind (σ.set? set) =
          (entriesUpTo a.operands n).toOption.bind (τ.set? set) :=
      bind_congr_of_some fun vs hFirst =>
        Store.set?_congr set fun v hMem =>
          hEnv v (subset_of_entriesUpTo (Answer.eq_ok_of_toOption hFirst) hMem)
    rw [hPoint]
    simp only [hDatum]
  · rename_i hKind
    exact hRead (by rw [hKind]; rfl)
  · rename_i hKind
    exact hRead (by rw [hKind]; rfl)
  · rfl

/- The value that a step binds. -/
def bound (a : Act) : List ValueId :=
  if a.kind.isValue ∨ a.kind = .alloc then a.results.take 1 else []

theorem step_of_isValue (hValue : a.kind.isValue) (σ : Store) :
    a.step σ = (a.value? σ).bind fun d =>
        a.results[0]?.map fun r => σ.assign r d := by
  unfold step
  cases hKind : a.kind <;> simp_all [Kind.isValue]

/- The ways in which a step can change a store. -/
inductive Effect (a : Act) (σ : Store) : Store → Prop where
  | value {d : Datum} {r : ValueId} (hKind : a.kind.isValue) (hValue : a.value? σ = some d)
      (hResult : a.results[0]? = some r) : Effect a σ (σ.assign r d)
  | write {v : ValueId} {l : Literal} {place : Nat × Nat} (hKind : a.kind.isStore)
      (hOperand : a.operands[0]? = some v) (hScalar : σ.scalar? v = some l)
      (hPlace : a.place? σ = some place) (hThere : (σ.element? place).isSome) :
      Effect a σ (σ.setElement place l)
  | skip (hKind : a.kind = .yield) : Effect a σ σ
  | alloc {ty : Ty} {d : Datum} {τ : Store} {r : ValueId} (hKind : a.kind = .alloc)
      (hTy : a.ty = some ty) (hAlloc : σ.alloc? ty = some (d, τ))
      (hResult : a.results[0]? = some r) : Effect a σ (τ.assign r d)
  | free {id : Nat} (hKind : a.kind = .dealloc)
      (hFreed : a.freed? σ = some id) : Effect a σ (σ.setFreed id)

theorem effect_of_write (hKind : a.kind.isStore)
    (hStep : ((a.operands[0]?.bind σ.scalar?).bind fun value =>
      (a.indices? σ).bind fun indices =>
        a.operands[1]?.bind fun memref =>
          σ.write? memref indices value) = some σ') :
    a.Effect σ σ' := by
  obtain ⟨l, hL, hRest⟩ := bind_eq_some_iff.mp hStep
  obtain ⟨v, hV, hScalar⟩ := bind_eq_some_iff.mp hL
  obtain ⟨indices, hIndices, hRest⟩ := bind_eq_some_iff.mp hRest
  obtain ⟨memref, hMemref, hWrite⟩ := bind_eq_some_iff.mp hRest
  obtain ⟨place, hSlot, hIf⟩ := bind_eq_some_iff.mp hWrite
  split at hIf
  · rename_i hThere
    cases hIf
    refine .write hKind hV hScalar ?_ hThere
    unfold place? memrefOperand?
    rwa [if_pos hKind, hMemref, hIndices]
  · cases hIf

theorem effect_of_step (hStep : a.step σ = some σ') : a.Effect σ σ' := by
  unfold step at hStep
  split at hStep
  · rename_i hKind
    exact effect_of_write (by rw [hKind]; rfl) hStep
  · rename_i hKind
    exact effect_of_write (by rw [hKind]; rfl) hStep
  · rename_i hKind
    cases hStep
    exact .skip hKind
  · rename_i hKind
    obtain ⟨ty, hTy, hRest⟩ := bind_eq_some_iff.mp hStep
    obtain ⟨⟨d, τ⟩, hAlloc, hMap⟩ := bind_eq_some_iff.mp hRest
    obtain ⟨r, hResult, hEq⟩ := map_eq_some_iff.mp hMap
    subst hEq
    exact .alloc hKind hTy hAlloc hResult
  · rename_i hKind
    obtain ⟨id, hFreed, hEq⟩ := map_eq_some_iff.mp hStep
    subst hEq
    refine .free hKind ?_
    unfold freed?
    rwa [if_pos hKind]
  · obtain ⟨d, hValue, hMap⟩ := bind_eq_some_iff.mp hStep
    obtain ⟨r, hResult, hEq⟩ := map_eq_some_iff.mp hMap
    subst hEq
    refine .value ?_ hValue hResult
    unfold value? at hValue
    split at hValue <;> simp_all [Kind.isValue]

theorem step_of_effect (hEffect : a.Effect σ σ') : a.step σ = some σ' := by
  cases hEffect with
  | value hKind hValue hResult =>
    rw [step_of_isValue hKind, hValue, bind_some, hResult]
    rfl
  | @write v l place hKind hOperand hScalar hPlace hThere =>
    unfold place? memrefOperand? at hPlace
    rw [if_pos hKind] at hPlace
    obtain ⟨memref, hMemref, hRest⟩ := bind_eq_some_iff.mp hPlace
    obtain ⟨indices, hIndices, hSlot⟩ := bind_eq_some_iff.mp hRest
    have hWrite :
        ((a.operands[0]?.bind σ.scalar?).bind fun value =>
          (a.indices? σ).bind fun indices =>
            a.operands[1]?.bind fun memref => σ.write? memref indices value) =
          some (σ.setElement place l) := by
      rw [hOperand, bind_some, hScalar, bind_some, hIndices,
        bind_some, hMemref, bind_some]
      unfold Store.write?
      rw [hSlot, bind_some, if_pos hThere]
    unfold step
    cases hK : a.kind <;> simp_all [Kind.isStore]
  | skip hKind =>
    unfold step
    rw [hKind]
  | alloc hKind hTy hAlloc hResult =>
    unfold step
    rw [hKind]
    simp only [hTy, hAlloc, hResult, bind_some, map_some]
  | free hKind hFreed =>
    unfold freed? at hFreed
    rw [if_pos hKind] at hFreed
    unfold step
    rw [hKind]
    simp only [hFreed, map_some]

/- A step binds nothing but its result. -/
theorem env_of_step (hStep : a.step σ = some σ') (hFree : v ∉ a.bound) : σ'.env v = σ.env v := by
  have hOther
      {r : ValueId}
      (hKind : a.kind.isValue ∨ a.kind = .alloc)
      (hResult : a.results[0]? = some r) : v ≠ r := by
    intro hEq
    apply hFree
    unfold bound
    rw [if_pos hKind, hEq]
    cases hResults : a.results with
    | nil => simp [hResults] at hResult
    | cons r' rest => simp_all
  cases effect_of_step hStep with
  | value hKind _ hResult => exact Store.env_assign_of_ne _ _ (hOther (.inl hKind) hResult)
  | write => rfl
  | skip => rfl
  | alloc hKind hTy hAlloc hResult =>
    rw [Store.env_assign_of_ne _ _ (hOther (.inr hKind) hResult)]
    obtain ⟨b, _, hStore, _⟩ := Store.alloc?_eq_some hAlloc
    rw [hStore]
  | free => rfl

theorem place?_congr (hBuffers : σ.buffers = τ.buffers)
    (hEnv : ∀ v ∈ a.operands, σ.env v = τ.env v) : a.place? σ = a.place? τ := by
  unfold place? memrefOperand?
  rw [indices?_congr hEnv]
  split
  · apply bind_congr_of_mem
    intro memref hMem
    exact bind_congr_of_some fun indices _ => Store.slot?_congr indices hBuffers (hEnv memref hMem)
  · apply bind_congr_of_mem
    intro memref hMem
    exact bind_congr_of_some fun indices _ => Store.slot?_congr indices hBuffers (hEnv memref hMem)

theorem values?_congr (hEnv : ∀ v ∈ a.operands, σ.env v = τ.env v) : a.values? σ = a.values? τ := by
  unfold values?
  split
  · rename_i lower upper step hKind
    split
    · rfl
    · apply bind_congr_of_some
      intro n _
      have hLower :
          (entriesUpTo a.operands n).toOption.bind (σ.map? lower) =
            (entriesUpTo a.operands n).toOption.bind (τ.map? lower) :=
        bind_congr_of_some fun vs hFirst =>
          Store.map?_congr lower fun v hMem =>
            hEnv v (subset_of_entriesUpTo (Answer.eq_ok_of_toOption hFirst) hMem)
      have hUpper :
          (entriesFrom a.operands n).toOption.bind (σ.map? upper) =
            (entriesFrom a.operands n).toOption.bind (τ.map? upper) :=
        bind_congr_of_some fun vs hRest =>
          Store.map?_congr upper fun v hMem =>
            hEnv v (subset_of_entriesFrom (Answer.eq_ok_of_toOption hRest) hMem)
      rw [hLower, hUpper]
  · rfl

theorem holds?_congr (hEnv : ∀ v ∈ a.operands, σ.env v = τ.env v) : a.holds? σ = a.holds? τ := by
  unfold holds?
  split
  · exact Store.set?_congr _ hEnv
  · rfl

end Act

------
-- Elements
------

/- An element and its buffer are as they were. -/
def Store.SamePlace (σ τ : Store) (place : Nat × Nat) : Prop := ∀ b, σ.buffers[place.1]? = some b →
    ∃ b', τ.buffers[place.1]? = some b' ∧ b'.shape = b.shape ∧
      b'.freed = b.freed ∧ b'.data[place.2]? = b.data[place.2]?

namespace Store.SamePlace

variable {σ τ ρ : Store}

theorem of_buffers (place : Nat × Nat)
    (hBuffers : σ.buffers = τ.buffers) : σ.SamePlace τ place := by
  intro b hBuffer
  exact ⟨b, hBuffers ▸ hBuffer, rfl, rfl, rfl⟩

end Store.SamePlace

namespace Act

variable {a : Act} {σ τ : Store}

/- An action overwrites an element or frees its buffer. -/
def Touches (a : Act) (σ : Store) (place : Nat × Nat) : Prop :=
  (a.kind.isStore ∧ a.place? σ = some place) ∨ a.freed? σ = some place.1

theorem samePlace_of_step (hStep : a.step σ = some σ')
    (hApart : ¬a.Touches σ place) : σ.SamePlace σ' place := by
  cases effect_of_step hStep with
  | value | skip => exact .of_buffers place rfl
  | @write v l other hKind hOperand hScalar hPlace hThere =>
    have hNe : other ≠ place := by
      intro hEq
      exact hApart (.inl ⟨hKind, hEq ▸ hPlace⟩)
    intro b hBuffer
    change ∃ b', (σ.buffers.modify other.1 _)[place.1]? = some b' ∧ _
    rw [Array.getElem?_modify]
    by_cases hSame : other.1 = place.1
    · rw [if_pos hSame, hBuffer]
      refine ⟨_, rfl, rfl, rfl, ?_⟩
      apply Array.getElem?_setIfInBounds_ne
      intro hOffset
      exact hNe (Prod.ext hSame hOffset)
    · rw [if_neg hSame]
      exact ⟨b, hBuffer, rfl, rfl, rfl⟩
  | alloc hKind hTy hAlloc hResult =>
    obtain ⟨new, _, hStore, _⟩ := Store.alloc?_eq_some hAlloc
    intro b hBuffer
    refine ⟨b, ?_, rfl, rfl, rfl⟩
    rw [hStore]
    change (σ.buffers.push new)[place.1]? = some b
    obtain ⟨hLt, hEntry⟩ := Array.getElem?_eq_some_iff.mp hBuffer
    rw [Array.getElem?_push_lt hLt, hEntry]
  | @free id hKind hFreed =>
    intro b hBuffer
    refine ⟨b, ?_, rfl, rfl, rfl⟩
    change (σ.buffers.modify id _)[place.1]? = some b
    have hNe : id ≠ place.1 := by
      intro hEq
      exact hApart (.inr (hEq ▸ hFreed))
    rwa [Array.getElem?_modify, if_neg hNe]

/- A load gives the contents of its element. -/
theorem value?_of_isLoad (hLoad : a.kind.isLoad) (σ : Store) :
    a.value? σ = (a.place? σ).bind fun place =>
        (σ.element? place).map Datum.scalar := by
  have hStore : ¬a.kind.isStore := by
    cases hKind : a.kind <;> simp_all [Kind.isLoad, Kind.isStore]
  have hRead :
      a.value? σ = (a.indices? σ).bind fun indices =>
          a.operands[0]?.bind fun memref =>
            (σ.read? memref indices).map Datum.scalar := by
    unfold value?
    cases hKind : a.kind <;> simp_all [Kind.isLoad]
  rw [hRead]
  unfold place? memrefOperand? Store.read?
  rw [if_neg hStore]
  cases a.operands[0]? with
  | none => cases a.indices? σ <;> rfl
  | some memref =>
    cases a.indices? σ with
    | none => rfl
    | some indices =>
      simp only [bind_some]
      cases σ.slot? memref indices <;> rfl

/- Elements are found in the same place. -/
theorem place?_of_samePlace (hPlace : a.place? σ = some place)
    (hEnv : ∀ v ∈ a.operands, σ.env v = τ.env v)
    (hSame : σ.SamePlace τ place) : a.place? τ = some place := by
  unfold place? at hPlace ⊢
  rw [← indices?_congr hEnv]
  obtain ⟨memref, hMemref, hRest⟩ := bind_eq_some_iff.mp hPlace
  obtain ⟨indices, hIndices, hSlot⟩ := bind_eq_some_iff.mp hRest
  have hMem : memref ∈ a.operands := by
    unfold memrefOperand? at hMemref
    split at hMemref <;> exact mem_of_getElem? hMemref
  rw [hMemref, hIndices]
  change τ.slot? memref indices = some place
  unfold Store.slot? at hSlot ⊢
  rw [← hEnv memref hMem]
  obtain ⟨d, hDatum, hRest⟩ := bind_eq_some_iff.mp hSlot
  rw [hDatum]
  cases d with
  | scalar l => cases hRest
  | buffer id =>
    obtain ⟨b, hBuffer, hRest⟩ := bind_eq_some_iff.mp hRest
    have hId : place.1 = id := by
      split at hRest
      · cases hRest
      · obtain ⟨answer, _, hMap⟩ := bind_eq_some_iff.mp hRest
        obtain ⟨offset, _, hEq⟩ := map_eq_some_iff.mp hMap
        rw [← hEq]
    subst hId
    obtain ⟨b', hBuffer', hShape, hFreed, _⟩ := hSame b hBuffer
    simp only [bind_some, hBuffer', hFreed, hShape]
    exact hRest

/-
  A value is the same as long as the operands are and, for a
  load, the element it reads is.
-/
theorem value?_of_samePlace {d : Datum} (hValue : a.value? σ = some d)
    (hEnv : ∀ v ∈ a.operands, σ.env v = τ.env v)
    (hSame : ∀ place, a.kind.isLoad → a.place? σ = some place →
      σ.SamePlace τ place) : a.value? τ = some d := by
  by_cases hLoad : a.kind.isLoad
  · rw [value?_of_isLoad hLoad] at hValue ⊢
    obtain ⟨place, hPlace, hMap⟩ := bind_eq_some_iff.mp hValue
    rw [place?_of_samePlace hPlace hEnv (hSame place hLoad hPlace)]
    obtain ⟨l, hElement, hEq⟩ := map_eq_some_iff.mp hMap
    unfold Store.element? at hElement
    obtain ⟨b, hBuffer, hData⟩ := bind_eq_some_iff.mp hElement
    obtain ⟨b', hBuffer', _, _, hData'⟩ := hSame place hLoad hPlace b hBuffer
    simp only [bind_some, Store.element?, hBuffer', hData', hData, map_some, hEq]
  · rw [← value?_congr (fun hYes => absurd hYes hLoad) hEnv, hValue]

end Act

namespace Act

variable {a : Act} {σ : Store}

/- A value that is a buffer is one of the operands. -/
theorem env_of_value?_buffer
    (hValue : a.value? σ = some (.buffer id)) : ∃ v, σ.env v = some (.buffer id) := by
  have hChosen
      {v : Option ValueId}
      (hBind : v.bind σ.env = some (.buffer id)) : ∃ v, σ.env v = some (.buffer id) := by
    obtain ⟨v, _, hEnv⟩ := bind_eq_some_iff.mp hBind
    exact ⟨v, hEnv⟩
  unfold value? at hValue
  split at hValue
  · cases hValue
  · simp [bind_eq_some_iff] at hValue
  · simp [bind_eq_some_iff] at hValue
  · obtain ⟨l, _, hRest⟩ := bind_eq_some_iff.mp hValue
    obtain ⟨cond, _, hRest⟩ := bind_eq_some_iff.mp hRest
    exact hChosen hRest
  · simp [bind_eq_some_iff] at hValue
  · obtain ⟨n, _, hRest⟩ := bind_eq_some_iff.mp hValue
    obtain ⟨taken, _, hRest⟩ := bind_eq_some_iff.mp hRest
    exact hChosen hRest
  · simp [bind_eq_some_iff] at hValue
  · simp [bind_eq_some_iff] at hValue
  · cases hValue

end Act

end AffineIR
