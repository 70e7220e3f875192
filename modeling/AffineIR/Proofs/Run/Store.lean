import AffineIR.Run.Exec

/-
  Stores: the part of a machine that a program works on.

  A store has the buffers and the bindings of values, without
  the counters.  Questions about a machine are questions about
  its store, and each of them is matched here by a partial
  function on stores.

  Main declarations:
    * `Store.map?`, `Store.set?`
-/

namespace AffineIR

open Option

theorem Answer.eq_ok_of_toOption {ε α : Type} {x : Except ε α} {a : α}
    (hSome : x.toOption = some a) : x = .ok a := by
  cases x with
  | error e => cases hSome
  | ok b =>
    cases hSome
    rfl

section Entries

variable {α : Type} {xs ys : List α} {i : Nat} {x : α}

theorem entryAt_eq_ok : entryAt xs i = .ok x ↔ xs[i]? = some x := by
  unfold entryAt
  cases xs[i]? <;> simp

theorem mem_of_entryAt (hEntry : entryAt xs i = .ok x) : x ∈ xs :=
  List.mem_of_getElem? (entryAt_eq_ok.mp hEntry)

theorem subset_of_entriesFrom (hEntries : entriesFrom xs i = .ok ys) : ys ⊆ xs := by
  unfold entriesFrom at hEntries
  split at hEntries
  · cases hEntries
    exact List.drop_subset i xs
  · cases hEntries

theorem subset_of_entriesUpTo (hEntries : entriesUpTo xs i = .ok ys) : ys ⊆ xs := by
  unfold entriesUpTo at hEntries
  split at hEntries
  · cases hEntries
    exact List.take_subset i xs
  · cases hEntries

end Entries

theorem Table.get?_insert {tag : String} {α : Type} (t : Table tag α) (h k : Handle tag)
    (x : α) : (t.insert h x).get? k = if k = h then some x else t.get? k := by
  have hGrown : h.index < (Table.grow t.cells h.index).size := by
    unfold Table.grow
    split
    · assumption
    · simp
      omega
  unfold Table.insert Table.get?
  by_cases hSame : k = h
  · subst hSame
    simp [hGrown]
  · have hIndex : h.index ≠ k.index := by
      intro hEq
      apply hSame
      cases h
      cases k
      simp_all
    simp only [hSame, if_false, Array.getElem?_setIfInBounds, hIndex]
    unfold Table.grow
    split
    · rfl
    · rename_i hSmall
      rw [Array.getElem?_append]
      split
      · rfl
      · rename_i hOut
        rw [Array.getElem?_replicate, Array.getElem?_eq_none (by omega)]
        split <;> rfl

------
-- Stores
------

structure Store where
  buffers : Array Buffer
  env : ValueId → Option Datum

/- What a program sees of a machine. -/
def Machine.store (m : Machine) : Store := ⟨m.buffers, m.env.get?⟩

/- The counters of two machines are the same. -/
structure Machine.SameCounters (m m' : Machine) : Prop where
  counts : m'.counts = m.counts
  steps : m'.steps = m.steps
  limit : m'.limit = m.limit

theorem Machine.SameCounters.refl (m : Machine) : m.SameCounters m := ⟨rfl, rfl, rfl⟩

theorem Machine.SameCounters.trans {m₁ m₂ m₃ : Machine} (hFirst : m₁.SameCounters m₂)
    (hSecond : m₂.SameCounters m₃) : m₁.SameCounters m₃ :=
  ⟨hSecond.counts.trans hFirst.counts, hSecond.steps.trans hFirst.steps,
    hSecond.limit.trans hFirst.limit⟩

namespace Store

@[ext] theorem ext {σ τ : Store} (hBuffers : σ.buffers = τ.buffers)
    (hEnv : ∀ v, σ.env v = τ.env v) : σ = τ := by
  cases σ
  cases τ
  simp only [Store.mk.injEq]
  exact ⟨hBuffers, funext hEnv⟩

/- Bind a value. -/
def assign (σ : Store) (v : ValueId) (d : Datum) : Store :=
  { σ with env := fun w => if w = v then some d else σ.env w }

@[simp] theorem buffers_assign (σ : Store) (v : ValueId)
    (d : Datum) : (σ.assign v d).buffers = σ.buffers :=
  rfl

@[simp] theorem env_assign_self (σ : Store) (v : ValueId)
    (d : Datum) : (σ.assign v d).env v = some d := by
  simp [assign]

theorem env_assign_of_ne (σ : Store) {v w : ValueId} (d : Datum)
    (hNe : w ≠ v) : (σ.assign v d).env w = σ.env w := by
  simp [assign, hNe]

/- Binding a value to what it is bound to changes nothing. -/
theorem assign_eq_self {σ : Store} {v : ValueId} {d : Datum}
    (hBound : σ.env v = some d) : σ.assign v d = σ := by
  apply Store.ext
  · rfl
  · intro w
    by_cases hSame : w = v
    · rw [hSame, env_assign_self, hBound]
    · exact env_assign_of_ne σ d hSame

end Store

theorem Machine.store_assign (m : Machine) (v : ValueId) (d : Datum) :
    ({ m with env := m.env.insert v d } : Machine).store = m.store.assign v d := by
  apply Store.ext
  · rfl
  · intro w
    exact Table.get?_insert m.env v w d

------
-- Computations
------

namespace Exec

/- What a computation gives on a machine, and what it leaves. -/
def outcome {α : Type} (x : Exec α) (m : Machine) : Except Failure α × Machine :=
  (ExceptT.run x).run m

theorem outcome_pure {α : Type} (a : α) (m : Machine) : outcome (pure a) m = (.ok a, m) :=
  rfl

theorem outcome_bind {α β : Type} (x : Exec α) (k : α → Exec β) (m : Machine) :
    outcome (x >>= k) m =
      match outcome x m with
      | (.ok a, m') => outcome (k a) m'
      | (.error e, m') => (.error e, m') := by
  unfold outcome
  rw [ExceptT.run_bind, StateT.run_bind]
  generalize (ExceptT.run x).run m = r
  rcases r with ⟨_ | _, _⟩ <;> rfl

/-
  A computation that asks a question about the store and
  leaves the machine as it is.
-/
structure Reads {α : Type} (x : Exec α) (f : Store → Option α) : Prop where
  ok {m : Machine} {a : α} (hSome : f m.store = some a) : outcome x m = (.ok a, m)
  fails {m : Machine} (hNone : f m.store = none) : ∃ e, outcome x m = (.error e, m)

/-
  A computation that works on the store and leaves the
  counters as they are.  If it fails, nothing is bound.
-/
structure Acts {α : Type} (x : Exec α) (f : Store → Option (α × Store)) : Prop where
  ok {m : Machine} {a : α} {σ : Store} (hSome : f m.store = some (a, σ)) :
    ∃ m', outcome x m = (.ok a, m') ∧ m'.store = σ ∧ m.SameCounters m'
  fails {m : Machine} (hNone : f m.store = none) :
    ∃ e m', outcome x m = (.error e, m') ∧ m'.store.env = m.store.env ∧ m.SameCounters m'

namespace Reads

variable {α β : Type}

theorem congr {x : Exec α} {f g : Store → Option α} (hReads : Reads x f)
    (hSame : ∀ σ, g σ = f σ) : Reads x g :=
  funext hSame ▸ hReads

theorem pure (a : α) : Reads (Pure.pure a) fun _ => some a where
  ok hSome := by
    cases hSome
    rfl
  fails hNone := nomatch hNone

theorem throw (e : Failure) :
    Reads (α := α) (MonadExcept.throw e) fun _ => none where
  ok hSome := nomatch hSome
  fails _ := ⟨e, rfl⟩

theorem bind {x : Exec α} {k : α → Exec β} {f : Store → Option α} {g : α → Store → Option β}
    (hFirst : Reads x f) (hRest : ∀ a, Reads (k a) (g a)) :
    Reads (x >>= k) fun σ => (f σ).bind fun a => g a σ where
  ok {m b} hSome := by
    obtain ⟨a, hA, hB⟩ := bind_eq_some_iff.mp hSome
    rw [outcome_bind, hFirst.ok hA]
    exact (hRest a).ok hB
  fails {m} hNone := by
    rw [outcome_bind]
    cases hA : f m.store with
    | none =>
      obtain ⟨e, hError⟩ := hFirst.fails hA
      rw [hError]
      exact ⟨e, rfl⟩
    | some a =>
      rw [hFirst.ok hA]
      simp only [hA, bind_some] at hNone
      exact (hRest a).fails hNone

theorem ask (answer : Except Fault α) : Reads (Exec.ask answer) fun _ => answer.toOption := by
  cases answer with
  | ok a => exact pure a
  | error e => exact throw (.fault e)

/- A question for each entry of a list. -/
theorem mapM {x : α → Exec β} {f : α → Store → Option β} (hEach : ∀ a, Reads (x a) (f a))
    (as : List α) : Reads (as.mapM x) fun σ => as.mapM (f · σ) := by
  induction as with
  | nil => exact pure []
  | cons a as ih =>
    rw [List.mapM_cons]
    apply congr ((hEach a).bind fun b => ih.bind fun bs => pure (b :: bs))
    intro σ
    simp only [List.mapM_cons]
    rfl

end Reads

namespace Acts

variable {α β : Type}

theorem congr {x : Exec α} {f g : Store → Option (α × Store)} (hActs : Acts x f)
    (hSame : ∀ σ, g σ = f σ) : Acts x g :=
  funext hSame ▸ hActs

theorem ofReads {x : Exec α} {f : Store → Option α} (hReads : Reads x f) :
    Acts x fun σ => (f σ).map fun a => (a, σ) where
  ok {m a σ} hSome := by
    obtain ⟨b, hB, hEq⟩ := map_eq_some_iff.mp hSome
    cases hEq
    exact ⟨m, hReads.ok hB, rfl, .refl m⟩
  fails {m} hNone := by
    obtain ⟨e, hError⟩ := hReads.fails (map_eq_none_iff.mp hNone)
    exact ⟨e, m, hError, rfl, .refl m⟩

/- An action that binds nothing, and one that depends on its answer. -/
theorem bind {x : Exec α} {k : α → Exec β} {f : Store → Option (α × Store)}
    {g : α → Store → Option (β × Store)} (hFirst : Acts x f)
    (hEnv : ∀ {σ a σ'}, f σ = some (a, σ') → σ'.env = σ.env) (hRest : ∀ a, Acts (k a) (g a)) :
    Acts (x >>= k) fun σ => (f σ).bind fun (a, σ') => g a σ' where
  ok {m b σ} hSome := by
    obtain ⟨⟨a, σ'⟩, hA, hB⟩ := bind_eq_some_iff.mp hSome
    obtain ⟨m₁, hRun, hStore, hSame⟩ := hFirst.ok hA
    subst hStore
    obtain ⟨m₂, hRun', hStore', hSame'⟩ := (hRest a).ok hB
    rw [outcome_bind, hRun]
    exact ⟨m₂, hRun', hStore', hSame.trans hSame'⟩
  fails {m} hNone := by
    rw [outcome_bind]
    cases hA : f m.store with
    | none =>
      obtain ⟨e, m', hError, hSame⟩ := hFirst.fails hA
      rw [hError]
      exact ⟨e, m', rfl, hSame⟩
    | some r =>
      obtain ⟨m₁, hRun, hStore, hSame₁⟩ := hFirst.ok hA
      rw [hRun]
      simp only [hA, bind_some, ← hStore] at hNone
      obtain ⟨e, m₂, hError, hEnv₂, hSame₂⟩ := (hRest r.1).fails hNone
      refine ⟨e, m₂, hError, ?_, hSame₁.trans hSame₂⟩
      rw [hEnv₂, hStore, hEnv hA]

/- An action followed by an answer that is fixed by it. -/
theorem thenPure {x : Exec α} {f : Store → Option (α × Store)} (hActs : Acts x f) (b : α → β) :
    Acts (x >>= fun a => Pure.pure (b a)) fun σ => (f σ).map fun (a, σ') => (b a, σ') where
  ok {m c σ} hSome := by
    obtain ⟨⟨a, σ'⟩, hA, hEq⟩ := map_eq_some_iff.mp hSome
    cases hEq
    obtain ⟨m', hRun, hAfter⟩ := hActs.ok hA
    rw [outcome_bind, hRun]
    exact ⟨m', rfl, hAfter⟩
  fails {m} hNone := by
    obtain ⟨e, m', hError, hSame⟩ := hActs.fails (map_eq_none_iff.mp hNone)
    rw [outcome_bind, hError]
    exact ⟨e, m', rfl, hSame⟩

end Acts

/- A question followed by an action that depends on the answer. -/
theorem Reads.thenActs {α β : Type} {x : Exec α} {k : α → Exec β} {f : Store → Option α}
    {g : α → Store → Option (β × Store)} (hFirst : Reads x f)
    (hRest : ∀ a, Acts (k a) (g a)) : Acts (x >>= k) fun σ => (f σ).bind fun a => g a σ := by
  refine (Acts.bind (.ofReads hFirst) ?_ hRest).congr fun σ => ?_
  · intro σ a σ' hSome
    obtain ⟨_, _, hEq⟩ := map_eq_some_iff.mp hSome
    cases hEq
    rfl
  · cases f σ <;> rfl

end Exec

------
-- Questions about values
------

namespace Store

def scalar? (σ : Store) (v : ValueId) : Option Literal := (σ.env v).bind fun d =>
    match d with
    | .scalar l => some l
    | .buffer _ => none

def int? (σ : Store) (v : ValueId) : Option Int := (σ.scalar? v).bind Literal.toInt?

def ints? (σ : Store) (vs : List ValueId) : Option (List Int) := vs.mapM σ.int?

/- The results of a map at the values of its operands. -/
def map? (σ : Store) (map : Affine.Map) (operands : List ValueId) : Option (List Int) :=
  (σ.ints? operands).bind fun xs => (map.eval xs).toOption.bind id

/- Whether the values of operands are a point of a set. -/
def set? (σ : Store) (set : Affine.IntegerSet) (operands : List ValueId) : Option Bool :=
  (σ.ints? operands).bind fun xs => (set.contains xs).toOption.bind id

end Store

namespace Exec

theorem reads_lookup (v : ValueId) :
    Reads (lookup v) fun σ => σ.env v where
  ok {m d} hSome := by
    have hGet : m.env.get? v = some d := hSome
    have hState : outcome get m = (.ok m, m) := rfl
    unfold lookup
    rw [outcome_bind, hState]
    simp only [hGet]
    rfl
  fails {m} hNone := by
    have hGet : m.env.get? v = none := hNone
    have hState : outcome get m = (.ok m, m) := rfl
    refine ⟨.trap (.typeMismatch (.unbound v)), ?_⟩
    unfold lookup
    rw [outcome_bind, hState]
    simp only [hGet]
    rfl

theorem reads_scalar (v : ValueId) : Reads (scalar v) fun σ => σ.scalar? v := by
  apply Reads.bind (reads_lookup v)
  intro d
  cases d with
  | scalar l => exact .pure l
  | buffer id => exact .throw _

theorem reads_int (v : ValueId) : Reads (int v) fun σ => σ.int? v := by
  apply Reads.bind (reads_scalar v)
  intro l
  cases hInt : l.toInt? with
  | some n => exact .pure n
  | none => exact .throw _

theorem reads_ints (vs : List ValueId) : Reads (ints vs) fun σ => σ.ints? vs := .mapM reads_int vs

theorem reads_evalMap (h : OpId) (map : Affine.Map)
    (operands : List ValueId) : Reads (evalMap h map operands) fun σ => σ.map? map operands := by
  apply Reads.bind (reads_ints operands)
  intro xs
  apply Reads.bind (.ask (map.eval xs))
  intro answer
  cases answer with
  | some results => exact .pure results
  | none => exact .throw _

theorem reads_evalSet (h : OpId) (set : Affine.IntegerSet)
    (operands : List ValueId) : Reads (evalSet h set operands) fun σ => σ.set? set operands := by
  apply Reads.bind (reads_ints operands)
  intro xs
  apply Reads.bind (.ask (set.contains xs))
  intro answer
  cases answer with
  | some b => exact .pure b
  | none => exact .throw _

end Exec

------
-- Buffers
------

namespace Store

/- The element that indices name in a buffer that is not freed. -/
def slot? (σ : Store) (memref : ValueId) (indices : List Int) : Option (Nat × Nat) :=
  (σ.env memref).bind fun d =>
    match d with
    | .scalar _ => none
    | .buffer id =>
      σ.buffers[id]?.bind fun b =>
        if b.freed then none
        else (b.shape.offset? indices).toOption.bind fun answer =>
          answer.map fun offset => (id, offset)

/- The contents of an element. -/
def element? (σ : Store) (place : Nat × Nat) : Option Literal :=
  σ.buffers[place.1]?.bind fun b => b.data[place.2]?

def read? (σ : Store) (memref : ValueId) (indices : List Int) : Option Literal :=
  (σ.slot? memref indices).bind σ.element?

/- The store with another value for an element. -/
def setElement (σ : Store) (place : Nat × Nat) (value : Literal) : Store :=
  { σ with
    buffers := σ.buffers.modify place.1 fun b =>
      { b with data := b.data.setIfInBounds place.2 value } }

def write? (σ : Store) (memref : ValueId) (indices : List Int) (value : Literal) : Option Store :=
  (σ.slot? memref indices).bind fun place =>
    if (σ.element? place).isSome then some (σ.setElement place value)
    else none

/- The buffer that a value is bound to, if it is not freed. -/
def live? (σ : Store) (memref : ValueId) : Option Nat := (σ.env memref).bind fun d =>
    match d with
    | .scalar _ => none
    | .buffer id => σ.buffers[id]?.bind fun b => if b.freed then none else some id

def setFreed (σ : Store) (id : Nat) : Store :=
  { σ with
    buffers := σ.buffers.modify id fun b => { b with freed := true } }

/- The store with a new buffer of zeros, and the buffer. -/
def alloc? (σ : Store) (ty : Ty) : Option (Datum × Store) :=
  match ty with
  | .memref shape element =>
    (Literal.zero? element).bind fun zero =>
      shape.numElements.toOption.map fun n =>
        (.buffer σ.buffers.size,
          { σ with
            buffers := σ.buffers.push
              { shape := shape, data := Array.replicate n zero } })
  | _ => none

/- Allocation adds a buffer that only depends on its type. -/
theorem alloc?_eq_some {σ τ : Store} {ty : Ty} {d : Datum} (hAlloc : σ.alloc? ty = some (d, τ)) :
    ∃ b, d = .buffer σ.buffers.size ∧ τ = { σ with buffers := σ.buffers.push b } ∧
      ∀ ρ : Store, ρ.alloc? ty = some (.buffer ρ.buffers.size,
          { ρ with buffers := ρ.buffers.push b }) := by
  unfold alloc? at hAlloc
  split at hAlloc
  · rename_i shape element
    obtain ⟨zero, hZero, hRest⟩ := bind_eq_some_iff.mp hAlloc
    obtain ⟨n, hCount, hEq⟩ := map_eq_some_iff.mp hRest
    cases hEq
    refine ⟨{ shape := shape, data := Array.replicate n zero }, rfl, rfl, ?_⟩
    intro ρ
    simp only [alloc?, hZero, hCount, bind_some, map_some]
  · cases hAlloc

theorem env_of_alloc? {σ τ : Store} {ty : Ty} {d : Datum}
    (hAlloc : σ.alloc? ty = some (d, τ)) : τ.env = σ.env := by
  obtain ⟨b, _, hStore, _⟩ := alloc?_eq_some hAlloc
  rw [hStore]

end Store

namespace Exec

/- A question that looks at the machine first. -/
theorem Reads.get {β : Type} {k : Machine → Exec β} {g : Store → Option β}
    (hRest : ∀ m : Machine, (∀ b, g m.store = some b → outcome (k m) m = (.ok b, m)) ∧
        (g m.store = none → ∃ e, outcome (k m) m = (.error e, m))) :
    Reads (MonadState.get >>= k) g where
  ok {m b} hSome := (hRest m).1 b hSome
  fails {m} hNone := (hRest m).2 hNone

theorem reads_liveBuffer (v : ValueId) :
    Reads (liveBuffer v) fun σ =>
      (σ.live? v).bind fun id =>
        σ.buffers[id]?.map fun b => (id, b) := by
  apply Reads.congr (f := fun σ =>
    (σ.env v).bind fun d =>
      match d with
      | .scalar _ => none
      | .buffer id =>
        σ.buffers[id]?.bind fun b => if b.freed then none else some (id, b))
  · apply Reads.bind (reads_lookup v)
    intro d
    cases d with
    | scalar l => exact .throw _
    | buffer id =>
      apply Reads.get
      intro m
      change (∀ b, m.buffers[id]?.bind _ = some b → _) ∧ (m.buffers[id]?.bind _ = none → _)
      cases hBuffer : m.buffers[id]? with
      | none => exact ⟨nofun, fun _ => ⟨_, rfl⟩⟩
      | some b =>
        simp only [bind_some]
        cases hFreed : b.freed with
        | true => exact ⟨nofun, fun _ => ⟨_, rfl⟩⟩
        | false =>
          refine ⟨fun r hEq => ?_, nofun⟩
          cases hEq
          rfl
  · intro σ
    unfold Store.live?
    rcases σ.env v with _ | l | id
    · rfl
    · rfl
    · cases hBuffer : σ.buffers[id]? with
      | none => simp [hBuffer]
      | some b => cases hFreed : b.freed <;> simp [hFreed, hBuffer]

theorem reads_slot (v : ValueId) (indices : List Int) :
    Reads (slot v indices) fun σ => σ.slot? v indices := by
  apply Reads.congr ((reads_liveBuffer v).bind fun found =>
      (Reads.ask (found.2.shape.offset? indices)).bind fun answer =>
        (show Reads _ fun _ => answer.map fun offset => (found.1, offset) by
          cases answer with
          | some offset => exact .pure (found.1, offset)
          | none => exact .throw (.trap (.outOfBounds found.1 indices))))
  intro σ
  unfold Store.slot? Store.live?
  rcases σ.env v with _ | l | id
  · rfl
  · rfl
  · cases hBuffer : σ.buffers[id]? with
    | none => simp [hBuffer]
    | some b => cases hFreed : b.freed <;> simp [hFreed, hBuffer]

theorem reads_readElement (v : ValueId) (indices : List Int) :
    Reads (readElement v indices) fun σ => σ.read? v indices := by
  apply Reads.bind (reads_slot v indices)
  intro place
  apply Reads.get
  intro m
  change (∀ b, m.buffers[place.1]?.bind (fun b => b.data[place.2]?) = some b → _) ∧
    (m.buffers[place.1]?.bind (fun b => b.data[place.2]?) = none → _)
  cases hElement : m.buffers[place.1]?.bind fun b => b.data[place.2]? with
  | none =>
    refine ⟨nofun, fun _ => ⟨.overrun place.1 place.2, ?_⟩⟩
    rfl
  | some l =>
    refine ⟨fun b hEq => ?_, nofun⟩
    cases hEq
    rfl

theorem acts_assign (v : ValueId) (d : Datum) :
    Acts (assign v d) fun σ => some ((), σ.assign v d) where
  ok {m a σ} hSome := by
    cases hSome
    exact ⟨{ m with env := m.env.insert v d }, rfl, m.store_assign v d, ⟨rfl, rfl, rfl⟩⟩
  fails hNone := nomatch hNone

theorem acts_bindResult (o : Operation) (d : Datum) :
    Acts (bindResult o d) fun σ =>
      o.results[0]?.map fun r => ((), σ.assign r d) := by
  apply Acts.congr ((Reads.ask (entryAt o.results 0)).thenActs fun r => acts_assign r d)
  intro σ
  unfold entryAt
  cases o.results[0]? <;> rfl

theorem acts_writeElement (v : ValueId) (indices : List Int) (value : Literal) :
    Acts (writeElement v indices value) fun σ =>
      (σ.write? v indices value).map fun σ' => ((), σ') := by
  have hWrite (place : Nat × Nat) :
      Acts (do
          if ((← get).buffers[place.1]?.bind fun b => b.data[place.2]?).isSome then
            modify fun m =>
              { m with
                buffers := m.buffers.modify place.1 fun b =>
                  { b with data := b.data.setIfInBounds place.2 value } }
          else
            throw (.overrun place.1 place.2) : Exec Unit)
        fun σ =>
          if (σ.element? place).isSome then
            some ((), σ.setElement place value)
          else none := by
    constructor
    · intro m a σ hSome
      by_cases hThere : (m.store.element? place).isSome
      · cases (if_pos hThere).symm.trans hSome
        refine ⟨{ m with
          buffers := m.buffers.modify place.1 fun b =>
            { b with data := b.data.setIfInBounds place.2 value } },
          ?_, rfl, ⟨rfl, rfl, rfl⟩⟩
        rw [outcome_bind]
        change outcome (if (m.store.element? place).isSome then _ else _) m = _
        rw [if_pos hThere]
        rfl
      · cases (if_neg hThere).symm.trans hSome
    · intro m hNone
      by_cases hThere : (m.store.element? place).isSome
      · cases (if_pos hThere).symm.trans hNone
      · refine ⟨.overrun place.1 place.2, m, ?_, rfl, .refl m⟩
        rw [outcome_bind]
        change outcome (if (m.store.element? place).isSome then _ else _) m = _
        rw [if_neg hThere]
        rfl
  apply Acts.congr ((reads_slot v indices).thenActs hWrite)
  intro σ
  unfold Store.write?
  cases σ.slot? v indices with
  | none => rfl
  | some place =>
    simp only [bind_some]
    split <;> rfl

theorem acts_freeBuffer (v : ValueId) :
    Acts (freeBuffer v) fun σ =>
      (σ.live? v).map fun id => ((), σ.setFreed id) := by
  have hFree (id : Nat) :
      Acts (modify fun m : Machine =>
          { m with
            buffers := m.buffers.modify id fun b => { b with freed := true } } : Exec Unit)
        fun σ => some ((), σ.setFreed id) := by
    constructor
    · intro m a σ hSome
      cases hSome
      exact ⟨_, rfl, rfl, ⟨rfl, rfl, rfl⟩⟩
    · exact nofun
  apply Acts.congr ((reads_liveBuffer v).thenActs fun found => hFree found.1)
  intro σ
  unfold Store.live?
  rcases σ.env v with _ | l | id
  · rfl
  · rfl
  · cases hBuffer : σ.buffers[id]? with
    | none => simp [hBuffer]
    | some b => cases hFreed : b.freed <;> simp [hFreed, hBuffer]

theorem acts_allocBuffer (ty : Ty) : Acts (allocBuffer ty none) fun σ => σ.alloc? ty := by
  cases ty with
  | memref shape element =>
    have hData :
        Reads (initialData shape element none) fun _ =>
          (Literal.zero? element).bind fun zero =>
            shape.numElements.toOption.map fun n =>
              Array.replicate n zero := by
      unfold initialData
      cases Literal.zero? element with
      | none => exact .throw _
      | some zero =>
        apply Reads.congr ((Reads.ask shape.numElements).bind fun n =>
            .pure (Array.replicate n zero))
        intro σ
        cases shape.numElements <;> rfl
    have hPush (data : Array Literal) :
        Acts (modifyGet fun m : Machine =>
            (Datum.buffer m.buffers.size,
              { m with
                buffers := m.buffers.push
                  { shape := shape, data := data } }) : Exec Datum)
          fun σ =>
            some (.buffer σ.buffers.size,
              { σ with
                buffers := σ.buffers.push
                  { shape := shape, data := data } }) := by
      constructor
      · intro m a σ hSome
        cases hSome
        exact ⟨_, rfl, rfl, ⟨rfl, rfl, rfl⟩⟩
      · exact nofun
    apply Acts.congr (hData.thenActs hPush)
    intro σ
    simp only [Store.alloc?]
    cases Literal.zero? element with
    | none => rfl
    | some zero => cases shape.numElements <;> rfl
  | _ =>
    constructor
    · exact nofun
    · intro m _
      exact ⟨_, m, rfl, rfl, .refl m⟩

/- The machine with one more operation counted. -/
def counted (m : Machine) (h : OpId) : Machine :=
  { m with
    steps := m.steps + 1
    counts := m.counts.insert h (m.count h + 1) }

theorem outcome_tick_of_le {m : Machine} (h : OpId)
    (hLimit : m.steps + 1 ≤ m.limit) : outcome (tick h) m = (.ok (), counted m h) := by
  have hNot : ¬m.limit < m.steps + 1 := by omega
  change outcome (ite (m.limit < m.steps + 1) _ _) _ = _
  rw [if_neg hNot]
  rfl

theorem outcome_tick_of_lt {m : Machine} (h : OpId) (hLimit : m.limit < m.steps + 1) :
    outcome (tick h) m =
      (.error (.trap (.stepLimit m.limit)), { m with steps := m.steps + 1 }) := by
  change outcome (ite (m.limit < m.steps + 1) _ _) _ = _
  rw [if_pos hLimit]
  rfl

end Exec

end AffineIR
