import AffineIR.Memory.Effects
import AffineIR.Proofs.Graph.Nesting
import AffineIR.Proofs.Run.Action

/-
  Computations that go side by side.

  Two machines are alike if they differ in their limits and in
  the contents of some buffers only.  A pact says which contents
  these are, and what holds of the first machine all the time.
  Operations that keep the pact give the same answers on both
  machines, fail with the same failures, and leave machines that
  are alike.

  Main declarations:
    * `Pact.Keeps.op`, `Pact.Sides.ops`
-/

namespace AffineIR

open Answer

/- The failures of a machine that lacks a binding, an element or fuel. -/
def Failure.isLoss : Failure → Bool
  | .trap (.typeMismatch (.unbound _)) | .overrun _ _ | .endless => true
  | _ => false

/- Kinds that go on in another block. -/
def Kind.isBranch : Kind → Bool
  | branch | condBranch => true
  | _ => false

/- The operands that a selection may give on. -/
def Operation.choices (o : Operation) : List ValueId :=
  match o.kind with
  | .select => o.operands.drop 1
  | .affineSelect set => set.numInputs.toOption.elim [] o.operands.drop
  | _ => []

/- What a buffer is, apart from its contents. -/
def Buffer.head (b : Buffer) : Shape × Bool × Nat := (b.shape, b.freed, b.data.size)

structure Pact where
  /- The limits that the machines may have. -/
  limits : Nat → Nat → Prop := Eq
  /- The buffers whose contents may differ. -/
  loose : Nat → Prop := fun _ => False
  /- What holds of the first machine. -/
  holds : Machine → Prop := fun _ => True
  /- The failures that both machines may come to. -/
  shares : Failure → Prop := fun _ => True
  /- The failures of the first machine that end the comparison. -/
  stops : Failure → Machine → Prop := fun _ _ => False
  own {e : Failure} (hOther : e.isLoss = false) : shares e := by exact fun _ => trivial

/- Two machines that differ in their limits and in some contents only. -/
structure Machine.Alike (limits : Nat → Nat → Prop) (loose : Nat → Prop)
    (m n : Machine) : Prop where
  env : n.env = m.env
  counts : n.counts = m.counts
  steps : n.steps = m.steps
  limits : limits m.limit n.limit
  size : n.buffers.size = m.buffers.size
  heads (id : Nat) : n.buffers[id]?.map Buffer.head = m.buffers[id]?.map Buffer.head
  buffers {id : Nat} (hTight : ¬loose id) : n.buffers[id]? = m.buffers[id]?

theorem Exec.outcome_get_bind {α : Type} (k : Machine → Exec α)
    (m : Machine) : outcome (get >>= k) m = outcome (k m) m :=
  rfl

theorem Exec.outcome_lookup (v : ValueId) (m : Machine) :
    outcome (lookup v) m =
      ((m.env.get? v).elim (.error (.trap (.typeMismatch (.unbound v)))) .ok, m) := by
  unfold lookup
  rw [outcome_get_bind]
  cases m.env.get? v <;> rfl

/- What a block does when its operations are left. -/
def Exec.follow (block : BlockId → Exec Flow) : Flow → Exec Flow
  | .branch next => block next
  | flow => pure flow

/- What comes behind an operation of a block. -/
def Exec.onward (g : Graph) (enter : RegionId → Exec Flow) (rest : List OpId)
    (k : Flow → Exec Flow) : Flow → Exec Flow
  | .done => ops g enter rest >>= k
  | flow => k flow

theorem Exec.ops_cons_bind {g : Graph} {enter : RegionId → Exec Flow} {k : Flow → Exec Flow}
    (h : OpId) (hs : List OpId) :
    ops g enter (h :: hs) >>= k = tick h >>= fun _ => op g enter h >>= onward g enter hs k := by
  unfold ops
  simp only [bind_assoc]
  congr
  funext _
  congr
  funext flow
  cases flow <;> rfl

/- A new buffer has the size of its shape; it depends on nothing else. -/
theorem Exec.outcome_allocBuffer (ty : Ty) (init : Option (List Literal)) :
    (∃ e : Failure, e.isLoss = false ∧ ∀ m, outcome (allocBuffer ty init) m = (.error e, m)) ∨
    ∃ b : Buffer, b.shape.numElements = .ok b.data.size ∧ ∀ m, outcome (allocBuffer ty init) m =
      (.ok (.buffer m.buffers.size), { m with buffers := m.buffers.push b }) := by
  cases ty with
  | memref shape element =>
    dsimp only [allocBuffer, initialData]
    cases Literal.zero? element with
    | none => exact .inl ⟨_, rfl, fun m => rfl⟩
    | some zero =>
      cases hSize : shape.numElements with
      | error e => exact .inl ⟨.fault e, rfl, fun m => rfl⟩
      | ok n =>
        cases init with
        | none => exact .inr ⟨⟨shape, Array.replicate n zero, false⟩, by simpa, fun m => rfl⟩
        | some values =>
          simp only [ask, pure_bind]
          split
          · rename_i hLength
            exact .inr ⟨⟨shape, values.toArray, false⟩, by simpa [hLength], fun m => rfl⟩
          · exact .inl ⟨_, rfl, fun m => rfl⟩
  | _ => exact .inl ⟨_, rfl, fun m => rfl⟩

namespace Pact

open Exec

variable {α β : Type} {p : Pact} {x y : Exec α} {P Q : α → Prop} {m n : Machine} {v : ValueId}

/-
  The second computation does what the first one does, unless
  that ends the comparison.
-/
def Sides (p : Pact) (x y : Exec α) (P : α → Prop) : Prop :=
  ∀ ⦃m n⦄, m.Alike p.limits p.loose n → p.holds m →
    match outcome x m with
    | (.ok a, m') => P a ∧ ∃ n', outcome y n = (.ok a, n') ∧
        m'.Alike p.limits p.loose n' ∧ p.holds m'
    | (.error e, m') => p.stops e m' ∨ p.shares e ∧ ∃ n', outcome y n = (.error e, n') ∧
        m'.Alike p.limits p.loose n' ∧ p.holds m'

namespace Sides

theorem pure {a : α} (hHere : P a) : p.Sides (pure a) (pure a) P :=
  fun _ n hAlike hHolds => ⟨hHere, n, rfl, hAlike, hHolds⟩

theorem fail {e : Failure} (hShares : p.shares e) : p.Sides (throw e) (throw e) P :=
  fun _ n hAlike hHolds => .inr ⟨hShares, n, rfl, hAlike, hHolds⟩

theorem throw {e : Failure} (hOther : e.isLoss = false) : p.Sides (throw e) (throw e) P :=
  fail (p.own hOther)

theorem bind {k l : α → Exec β} {Q : β → Prop} (hFirst : p.Sides x y P)
    (hRest : ∀ a, P a → p.Sides (k a) (l a) Q) : p.Sides (x >>= k) (y >>= l) Q := by
  intro m n hAlike hHolds
  have hFirst := hFirst hAlike hHolds
  rw [outcome_bind]
  generalize outcome x m = out at hFirst ⊢
  obtain ⟨e | a, m'⟩ := out
  · refine hFirst.imp_right fun ⟨hShares, n', hSame, hAfter⟩ => ⟨hShares, n', ?_, hAfter⟩
    rw [outcome_bind, hSame]
  · obtain ⟨hP, n', hSame, hAlike', hHolds'⟩ := hFirst
    have hRest := hRest a hP hAlike' hHolds'
    rwa [outcome_bind, hSame]

/- What is the same after computations that the comparison goes through. -/
theorem same (hSides : p.Sides x y P) (hAlike : m.Alike p.limits p.loose n) (hHolds : p.holds m)
    (hGoes : ∀ e m', outcome x m = (.error e, m') → ¬p.stops e m') :
    (outcome y n).1 = (outcome x m).1 ∧
      (outcome x m).2.Alike p.limits p.loose (outcome y n).2 ∧ p.holds (outcome x m).2 ∧
      ∀ e, (outcome x m).1 = .error e → p.shares e := by
  have hSides := hSides hAlike hHolds
  generalize outcome x m = out at hSides hGoes ⊢
  obtain ⟨e | a, m'⟩ := out
  · rcases hSides with hStops | ⟨hShares, n', hSame, hAlike', hHolds'⟩
    · exact absurd hStops (hGoes e m' rfl)
    · rw [hSame]
      refine ⟨rfl, hAlike', hHolds', fun e' hError => ?_⟩
      cases hError
      exact hShares
  · obtain ⟨_, n', hSame, hAlike', hHolds'⟩ := hSides
    rw [hSame]
    exact ⟨rfl, hAlike', hHolds', nofun⟩

theorem mono (hHere : p.Sides x y P) (hMore : ∀ a, P a → Q a) : p.Sides x y Q := by
  have hSame := hHere.bind fun a hP => pure (hMore a hP)
  rwa [bind_pure, bind_pure] at hSame

theorem ask (answer : Except Fault α) :
    p.Sides (ask answer) (ask answer) fun a => answer = .ok a := by
  cases answer with
  | ok a => exact pure rfl
  | error e => exact throw rfl

theorem mapM {x : ValueId → Exec α} {vs : List ValueId}
    (hEach : ∀ v ∈ vs, p.Sides (x v) (x v) fun _ => True) :
    p.Sides (vs.mapM x) (vs.mapM x) fun _ => True := by
  induction vs with
  | nil => exact pure trivial
  | cons v vs ih =>
    rw [List.mapM_cons]
    obtain ⟨hHead, hTail⟩ := List.forall_mem_cons.mp hEach
    exact hHead.bind fun a _ => (ih hTail).bind fun as _ => pure trivial

end Sides

end Pact

------
-- Machines that are alike
------

namespace Machine.Alike

open Exec

variable {limits : Nat → Nat → Prop} {loose : Nat → Prop} {p : Pact} {m n : Machine} {v : ValueId}

theorem refl (hLimits : limits m.limit m.limit) : m.Alike limits loose m :=
  ⟨rfl, rfl, rfl, hLimits, rfl, fun _ => rfl, fun _ => rfl⟩

theorem count_eq (hAlike : m.Alike limits loose n) (h : OpId) : n.count h = m.count h := by
  unfold Machine.count
  rw [hAlike.counts]

theorem buffers_eq (hAlike : m.Alike limits loose n)
    (hTight : ∀ id, ¬loose id) : n.buffers = m.buffers :=
  Array.ext_getElem? fun i => hAlike.buffers (hTight i)

theorem eq_of_tight (hAlike : m.Alike limits loose n)
    (hLimits : limits m.limit n.limit → m.limit = n.limit) (hTight : ∀ id, ¬loose id) : n = m := by
  cases m
  cases n
  cases hAlike.env
  cases hAlike.counts
  cases hAlike.steps
  cases hLimits hAlike.limits
  cases hAlike.buffers_eq hTight
  rfl

theorem assign (hAlike : m.Alike limits loose n) (v : ValueId) (d : Datum) :
    ({ m with env := m.env.insert v d } : Machine).Alike limits loose
      { n with env := n.env.insert v d } :=
  { hAlike with env := by rw [hAlike.env] }

theorem counted (hAlike : m.Alike limits loose n)
    (h : OpId) : (counted m h).Alike limits loose (counted n h) :=
  { hAlike with
    counts := by simp only [Exec.counted, Machine.count, hAlike.counts]
    steps := by simp only [Exec.counted, hAlike.steps] }

/- One buffer is changed in the same way on both machines. -/
theorem modify {f : Buffer → Buffer} {id : Nat} (hAlike : m.Alike limits loose n)
    (hHead : ∀ {b b'}, Buffer.head b' = b.head → (f b').head = (f b).head) :
    ({ m with buffers := m.buffers.modify id f } : Machine).Alike limits loose
      { n with buffers := n.buffers.modify id f } := by
  refine { hAlike with size := ?_, heads := fun i => ?_, buffers := fun {i} hTight => ?_ }
  · simpa using hAlike.size
  · have hHeads := hAlike.heads i
    rw [Array.getElem?_modify, Array.getElem?_modify]
    split
    · cases hM : m.buffers[i]? <;> cases hN : n.buffers[i]? <;> simp_all
      exact hHead hHeads
    · exact hHeads
  · rw [Array.getElem?_modify, Array.getElem?_modify, hAlike.buffers hTight]

/- A buffer is added to both machines. -/
theorem push {b : Buffer} (hAlike : m.Alike limits loose n) :
    ({ m with buffers := m.buffers.push b } : Machine).Alike limits loose
      { n with buffers := n.buffers.push b } := by
  refine { hAlike with size := ?_, heads := fun i => ?_, buffers := fun {i} hTight => ?_ }
  · simpa using hAlike.size
  · rw [Array.getElem?_push, Array.getElem?_push, hAlike.size]
    split
    · rfl
    · exact hAlike.heads i
  · rw [Array.getElem?_push, Array.getElem?_push, hAlike.size, hAlike.buffers hTight]

/- The buffer of a value, on both machines. -/
theorem liveBuffer (hAlike : m.Alike p.limits p.loose n)
    (hUnbound : m.env.get? v = none → p.shares (.trap (.typeMismatch (.unbound v)))) :
    (∃ e, p.shares e ∧ outcome (liveBuffer v) m = (.error e, m) ∧
      outcome (liveBuffer v) n = (.error e, n)) ∨
    ∃ id b b', outcome (liveBuffer v) m = (.ok (id, b), m) ∧
      outcome (liveBuffer v) n = (.ok (id, b'), n) ∧ m.env.get? v = some (.buffer id) ∧
      m.buffers[id]? = some b ∧ n.buffers[id]? = some b' ∧ b'.head = b.head := by
  unfold Exec.liveBuffer
  rw [outcome_bind, outcome_bind, outcome_lookup, outcome_lookup, hAlike.env]
  rcases hBound : m.env.get? v with _ | l | id
  · exact .inl ⟨_, hUnbound hBound, rfl, rfl⟩
  · exact .inl ⟨_, p.own rfl, rfl, rfl⟩
  · have hHead := hAlike.heads id
    simp only [Option.elim, outcome_get_bind]
    cases hM : m.buffers[id]? <;> cases hN : n.buffers[id]? <;> simp only [hM, hN] at hHead ⊢
    · exact .inl ⟨_, p.own rfl, rfl, rfl⟩
    · cases hHead
    · cases hHead
    · rename_i b b'
      have hSame : b'.head = b.head := Option.some.inj hHead
      have hFreed : b'.freed = b.freed := congrArg (·.2.1) hSame
      rw [hFreed]
      split
      · exact .inl ⟨_, p.own rfl, rfl, rfl⟩
      · exact .inr ⟨id, b, b', rfl, rfl, rfl, hM, hN, hSame⟩

/- The place of an element, on both machines. -/
theorem slot (hAlike : m.Alike p.limits p.loose n) (indices : List Int)
    (hUnbound : m.env.get? v = none → p.shares (.trap (.typeMismatch (.unbound v)))) :
    (∃ e, p.shares e ∧ outcome (slot v indices) m = (.error e, m) ∧
      outcome (slot v indices) n = (.error e, n)) ∨
    ∃ id b b' offset, outcome (slot v indices) m = (.ok (id, offset), m) ∧
      outcome (slot v indices) n = (.ok (id, offset), n) ∧ m.env.get? v = some (.buffer id) ∧
      m.buffers[id]? = some b ∧ n.buffers[id]? = some b' ∧ b'.head = b.head ∧
      b.shape.offset? indices = .ok (some offset) := by
  unfold Exec.slot
  rw [outcome_bind, outcome_bind]
  rcases hAlike.liveBuffer hUnbound with ⟨e, hShares, hM, hN⟩ |
    ⟨id, b, b', hM, hN, hBound, hB, hB', hSame⟩
  · rw [hM, hN]
    exact .inl ⟨e, hShares, rfl, rfl⟩
  · have hShape : b'.shape = b.shape := congrArg (·.1) hSame
    rw [hM, hN]
    dsimp only
    rw [hShape]
    rcases hOffset : b.shape.offset? indices with e | _ | offset
    · exact .inl ⟨_, p.own rfl, rfl, rfl⟩
    · exact .inl ⟨_, p.own rfl, rfl, rfl⟩
    · exact .inr ⟨id, b, b', offset, rfl, rfl, hBound, hB, hB', hSame, hOffset⟩

end Machine.Alike

namespace Pact

open Exec

------
-- Operations
------

/- What an operation may do without breaking a pact. -/
structure Keeps (p : Pact) (o : Operation) : Prop where
  unbound {m : Machine} {v : ValueId} (hMem : v ∈ o.operands) (hHolds : p.holds m)
    (hNone : m.env.get? v = none) : p.shares (.trap (.typeMismatch (.unbound v)))
  overrun {m : Machine} {id offset : Nat} {b : Buffer} {indices : List Int} (hHolds : p.holds m)
    (hBuffer : m.buffers[id]? = some b) (hOffset : b.shape.offset? indices = .ok (some offset))
    (hOut : b.data.size ≤ offset) : p.shares (.overrun id offset)
  scalar {m : Machine} (v : ValueId) (l : Literal) (hHolds : p.holds m) :
    p.holds { m with env := m.env.insert v (.scalar l) }
  copy {m : Machine} {v w : ValueId} {d : Datum} (hMem : w ∈ o.choices)
    (hResult : o.results[0]? = some v) (hBound : m.env.get? w = some d) (hHolds : p.holds m) :
    p.holds { m with env := m.env.insert v d }
  alloc {m : Machine} {b : Buffer} (v : ValueId) (hSize : b.shape.numElements = .ok b.data.size)
    (hHolds : p.holds m) :
    p.holds { m with
      buffers := m.buffers.push b
      env := m.env.insert v (.buffer m.buffers.size) }
  read {m : Machine} {v : ValueId} {id : Nat} (hEffect : o.effects = .ok (some [⟨.read, v⟩]))
    (hBound : m.env.get? v = some (.buffer id)) (hHolds : p.holds m) : ¬p.loose id
  write {m : Machine} {v : ValueId} {id : Nat} (offset : Nat) (l : Literal)
    (hEffect : o.effects = .ok (some [⟨.write, v⟩])) (hBound : m.env.get? v = some (.buffer id))
    (hHolds : p.holds m) :
    p.holds { m with
      buffers := m.buffers.modify id fun b => { b with data := b.data.setIfInBounds offset l } }
  free {m : Machine} {v : ValueId} {id : Nat} (hEffect : o.effects = .ok (some [⟨.free, v⟩]))
    (hBound : m.env.get? v = some (.buffer id)) (hHolds : p.holds m) :
    p.holds { m with buffers := m.buffers.modify id fun b => { b with freed := true } }

/- A computation that does on both machines what it does on the first. -/
abbrev Passes {α : Type} (p : Pact) (x : Exec α) : Prop := p.Sides x x fun _ => True

namespace Keeps

variable {p : Pact} {o : Operation} {v w : ValueId}

theorem sides_assign (hKeeps : p.Keeps o) (v : ValueId)
    (l : Literal) : p.Passes (assign v (.scalar l)) :=
  fun _ _ hAlike hHolds => ⟨trivial, _, rfl, hAlike.assign v _, hKeeps.scalar v l hHolds⟩

theorem sides_lookup (hKeeps : p.Keeps o) (hMem : v ∈ o.operands) : p.Passes (lookup v) := by
  intro m n hAlike hHolds
  rw [outcome_lookup, outcome_lookup, hAlike.env]
  cases hBound : m.env.get? v with
  | none => exact .inr ⟨hKeeps.unbound hMem hHolds hBound, n, rfl, hAlike, hHolds⟩
  | some d => exact ⟨trivial, n, rfl, hAlike, hHolds⟩

theorem sides_copy (hKeeps : p.Keeps o) (hMem : w ∈ o.operands) (hChoice : w ∈ o.choices)
    (hResult : o.results[0]? = some v) : p.Passes (lookup w >>= assign v) := by
  intro m n hAlike hHolds
  rw [outcome_bind, outcome_bind, outcome_lookup, outcome_lookup, hAlike.env]
  cases hBound : m.env.get? w with
  | none => exact .inr ⟨hKeeps.unbound hMem hHolds hBound, n, rfl, hAlike, hHolds⟩
  | some d => exact ⟨trivial, _, rfl, hAlike.assign v d, hKeeps.copy hChoice hResult hBound hHolds⟩

theorem sides_alloc (hKeeps : p.Keeps o) (v : ValueId)
    (ty : Ty) : p.Passes (allocBuffer ty none >>= assign v) := by
  intro m n hAlike hHolds
  rw [outcome_bind, outcome_bind]
  rcases outcome_allocBuffer ty none with ⟨e, hOther, hSame⟩ | ⟨b, hSize, hSame⟩
  · rw [hSame, hSame]
    exact .inr ⟨p.own hOther, n, rfl, hAlike, hHolds⟩
  · rw [hSame, hSame, hAlike.size]
    exact ⟨trivial, _, rfl, hAlike.push.assign v _, hKeeps.alloc v hSize hHolds⟩

theorem sides_read (hKeeps : p.Keeps o) (indices : List Int) (hMem : v ∈ o.operands)
    (hEffect : o.effects = .ok (some [⟨.read, v⟩])) : p.Passes (readElement v indices) := by
  intro m n hAlike hHolds
  unfold readElement
  rw [outcome_bind, outcome_bind]
  rcases hAlike.slot indices (hKeeps.unbound hMem hHolds) with ⟨e, hShares, hM, hN⟩ |
    ⟨id, b, b', offset, hM, hN, hBound, hB, hB', hSame, hOffset⟩
  · rw [hM, hN]
    exact .inr ⟨hShares, n, rfl, hAlike, hHolds⟩
  · have hTight := hAlike.buffers (hKeeps.read hEffect hBound hHolds)
    rw [hM, hN]
    simp only [outcome_get_bind, hTight, hB, Option.bind_some]
    cases hElement : b.data[offset]? with
    | none =>
      have hShares := hKeeps.overrun hHolds hB hOffset (Array.getElem?_eq_none_iff.mp hElement)
      exact .inr ⟨hShares, n, rfl, hAlike, hHolds⟩
    | some l => exact ⟨trivial, n, rfl, hAlike, hHolds⟩

theorem sides_write (hKeeps : p.Keeps o) (indices : List Int) (l : Literal) (hMem : v ∈ o.operands)
    (hEffect : o.effects = .ok (some [⟨.write, v⟩])) : p.Passes (writeElement v indices l) := by
  intro m n hAlike hHolds
  unfold writeElement
  rw [outcome_bind, outcome_bind]
  rcases hAlike.slot indices (hKeeps.unbound hMem hHolds) with ⟨e, hShares, hM, hN⟩ |
    ⟨id, b, b', offset, hM, hN, hBound, hB, hB', hSame, hOffset⟩
  · rw [hM, hN]
    exact .inr ⟨hShares, n, rfl, hAlike, hHolds⟩
  · have hSize : b'.data.size = b.data.size := congrArg (·.2.2) hSame
    rw [hM, hN]
    simp only [outcome_get_bind, hB, hB', Option.bind_some]
    by_cases hIn : offset < b.data.size
    · rw [Array.getElem?_eq_getElem hIn, Array.getElem?_eq_getElem (hSize ▸ hIn)]
      refine ⟨trivial, _, rfl, hAlike.modify ?_, hKeeps.write offset l hEffect hBound hHolds⟩
      intro b b' hSame
      simpa [Buffer.head] using hSame
    · rw [Array.getElem?_eq_none (by omega), Array.getElem?_eq_none (by omega)]
      have hShares := hKeeps.overrun hHolds hB hOffset (by omega)
      exact .inr ⟨hShares, n, rfl, hAlike, hHolds⟩

theorem sides_free (hKeeps : p.Keeps o) (hMem : v ∈ o.operands)
    (hEffect : o.effects = .ok (some [⟨.free, v⟩])) : p.Passes (freeBuffer v) := by
  intro m n hAlike hHolds
  unfold freeBuffer
  rw [outcome_bind, outcome_bind]
  rcases hAlike.liveBuffer (hKeeps.unbound hMem hHolds) with ⟨e, hShares, hM, hN⟩ |
    ⟨id, b, b', hM, hN, hBound, hB, hB', hSame⟩
  · rw [hM, hN]
    exact .inr ⟨hShares, n, rfl, hAlike, hHolds⟩
  · rw [hM, hN]
    refine ⟨trivial, _, rfl, hAlike.modify ?_, hKeeps.free hEffect hBound hHolds⟩
    intro b b' hSame
    simp_all [Buffer.head]

/- Where an operation may lead. -/
def Leads (o : Operation) (flow : Flow) : Prop :=
  ∀ s, flow = .branch s → o.kind.isBranch = true ∧ s ∈ o.successors

/- A computation that passes and leads where an operation may. -/
abbrev Ends (p : Pact) (o : Operation) (x : Exec Flow) : Prop := p.Sides x x (Leads o)

theorem done : Ends p o (pure .done) := .pure nofun

theorem ret (values : List Datum) : Ends p o (pure (.ret values)) := .pure nofun

section Questions

variable {h : OpId} {vs : List ValueId} (hKeeps : p.Keeps o)
include hKeeps

theorem sides_scalar (hMem : v ∈ o.operands) : p.Passes (Exec.scalar v) := by
  refine (hKeeps.sides_lookup hMem).bind fun d _ => ?_
  cases d with
  | scalar l => exact .pure trivial
  | buffer id => exact .throw rfl

/- The scalar of an operand, and what is done with it. -/
theorem operand {k k' : Literal → Exec Flow} (i : Nat)
    (hRest : ∀ l, p.Sides (k l) (k' l) (Leads o)) :
    p.Sides (ask (entryAt o.operands i) >>= fun v => Exec.scalar v >>= k)
      (ask (entryAt o.operands i) >>= fun v => Exec.scalar v >>= k') (Leads o) :=
  (Sides.ask _).bind fun _ hEntry =>
    (hKeeps.sides_scalar (mem_of_entryAt hEntry)).bind fun l _ => hRest l

theorem sides_ints (hMem : ∀ v ∈ vs, v ∈ o.operands) : p.Passes (ints vs) := by
  refine .mapM fun v hIn => (hKeeps.sides_scalar (hMem v hIn)).bind fun l _ => ?_
  cases l.toInt? with
  | some n => exact .pure trivial
  | none => exact .throw rfl

theorem sides_evalMap (map : Affine.Map)
    (hMem : ∀ v ∈ vs, v ∈ o.operands) : p.Passes (evalMap h map vs) := by
  refine (hKeeps.sides_ints hMem).bind fun ns _ => (Sides.ask _).bind fun answer _ => ?_
  cases answer with
  | some results => exact .pure trivial
  | none => exact .throw rfl

theorem sides_evalSet (set : Affine.IntegerSet)
    (hMem : ∀ v ∈ vs, v ∈ o.operands) : p.Passes (evalSet h set vs) := by
  refine (hKeeps.sides_ints hMem).bind fun ns _ => (Sides.ask _).bind fun answer _ => ?_
  cases answer with
  | some b => exact .pure trivial
  | none => exact .throw rfl

/- Binding the result to a scalar ends an operation. -/
theorem finish (l : Literal) : Ends p o (do bindResult o (.scalar l); return .done) :=
  ((Sides.ask _).bind fun v _ => hKeeps.sides_assign v l).bind fun _ _ => done

/- Binding the result to what an operand is bound to ends an operation. -/
theorem pass (hMem : w ∈ o.operands)
    (hChoice : w ∈ o.choices) : Ends p o (do bindResult o (← lookup w); return .done) := by
  unfold bindResult entryAt
  cases hResult : o.results[0]? with
  | none => exact (hKeeps.sides_lookup hMem).bind fun d _ => .throw rfl
  | some v =>
    have hCopy := (hKeeps.sides_copy hMem hChoice hResult).bind fun _ _ => done (o := o)
    rwa [bind_assoc] at hCopy

/- A load with its indices. -/
theorem load (indices : List Int) (hKind : o.kind.isLoad = true) :
    Ends p o (do
      let value ← readElement (← ask (entryAt o.operands 0)) indices
      bindResult o (.scalar value)
      return .done) := by
  refine (Sides.ask _).bind fun v hEntry => ?_
  refine (hKeeps.sides_read indices (mem_of_entryAt hEntry) ?_).bind fun l _ => hKeeps.finish l
  unfold Operation.effects
  cases hIs : o.kind <;> simp_all [Kind.isLoad, bind, Except.bind, pure, Except.pure]

/- A store with its value and its indices. -/
theorem store (indices : List Int) (l : Literal) (hKind : o.kind.isStore = true) :
    Ends p o (do writeElement (← ask (entryAt o.operands 1)) indices l; return .done) := by
  refine (Sides.ask _).bind fun v hEntry => ?_
  refine (hKeeps.sides_write indices l (mem_of_entryAt hEntry) ?_).bind fun _ _ => done
  unfold Operation.effects
  cases hIs : o.kind <;> simp_all [Kind.isStore, bind, Except.bind, pure, Except.pure]

end Questions

/- Going round a loop any number of times. -/
theorem iterateUpTo {body body' : Int → Exec Flow}
    (hBody : ∀ i, p.Sides (body i) (body' i) fun _ => True) (upper step : Int) (fuel : Nat)
    (i : Int) :
    p.Sides (iterateUpTo body upper step fuel i) (iterateUpTo body' upper step fuel i)
      (Leads o) := by
  induction fuel generalizing i with
  | zero => exact done
  | succ fuel ih =>
    unfold Exec.iterateUpTo
    split
    · refine (hBody i).bind fun flow _ => ?_
      split
      · exact ret _
      · split
        · exact ih _
        · exact done
    · exact done

variable {g : Graph} {h : OpId} {enter enter' : RegionId → Exec Flow}

theorem loop {lower upper : Affine.Map} {step : Int} (hKeeps : p.Keeps o) (hOp : g.op h = .ok o)
    (hKind : o.kind = .loop lower upper step)
    (hEnter : ∀ r ∈ o.regions, ∀ var, g.inductionVar h = .ok var → ∀ i,
      p.Sides (assign var (.scalar (.index i)) >>= fun _ => enter r)
        (assign var (.scalar (.index i)) >>= fun _ => enter' r) fun _ => True) :
    p.Sides (loop g enter h o lower upper step) (loop g enter' h o lower upper step) (Leads o) := by
  unfold Exec.loop Operation.lowerOperands Operation.upperOperands
  simp only [hKind]
  split
  · exact Sides.bind (P := fun _ => False) (.throw rfl) nofun
  refine (Sides.ask _).bind fun lowers hLowers => ?_
  refine (hKeeps.sides_evalMap lower fun v hMem => ?_).bind fun firsts _ => ?_
  · obtain ⟨n, _, hEntries⟩ := bind_eq_ok.mp hLowers
    exact subset_of_entriesUpTo hEntries hMem
  refine (Sides.ask _).bind fun uppers hUppers => ?_
  refine (hKeeps.sides_evalMap upper fun v hMem => ?_).bind fun lasts _ => ?_
  · obtain ⟨n, _, hEntries⟩ := bind_eq_ok.mp hUppers
    exact subset_of_entriesFrom hEntries hMem
  split
  · refine (Sides.ask _).bind fun var hVar => iterateUpTo (fun i => ?_) _ _ _ _
    rcases hRegion : o.regions[0]? with _ | r
    · simp [Graph.inductionVar, Graph.bodyBlock, hOp, hRegion, entryAt, bind, Except.bind] at hVar
    · simp only [entryAt, hRegion]
      exact hEnter r (List.mem_of_getElem? hRegion) var hVar i
  · exact .throw rfl

theorem conditional {set : Affine.IntegerSet} (hKeeps : p.Keeps o)
    (hEnter : ∀ r ∈ o.regions, p.Sides (enter r) (enter' r) fun _ => True) :
    p.Sides (conditional enter h o set) (conditional enter' h o set) (Leads o) := by
  refine (hKeeps.sides_evalSet set fun _ => id).bind fun taken _ => ?_
  extract_lets rest rest'
  have hRest region (hMem : ∀ r, region = some r → r ∈ o.regions) :
      p.Sides (rest region) (rest' region) (Leads o) := by
    cases region with
    | none => exact done
    | some r =>
      refine (hEnter r (hMem r rfl)).bind fun flow _ => ?_
      split
      · exact ret _
      · exact done
  split
  · rw [map_eq_pure_bind, bind_assoc, bind_assoc]
    refine (Sides.ask _).bind fun r hEntry => ?_
    simp only [pure_bind]
    refine hRest (some r) ?_
    rintro r' ⟨⟩
    exact mem_of_entryAt hEntry
  · simp only [pure_bind]
    exact hRest _ fun r hSome => List.mem_of_getElem? hSome

/- An operation that keeps a pact; regions are run with its variable. -/
theorem op (hKeeps : ∀ o, g.op h = .ok o → p.Keeps o)
    (hEnter : ∀ o, g.op h = .ok o → o.kind.isConditional = true → ∀ r ∈ o.regions,
      p.Sides (enter r) (enter' r) fun _ => True)
    (hRound : ∀ o, g.op h = .ok o → o.kind.isLoop = true → ∀ r ∈ o.regions,
      ∀ var, g.inductionVar h = .ok var → ∀ i,
      p.Sides (assign var (.scalar (.index i)) >>= fun _ => enter r)
        (assign var (.scalar (.index i)) >>= fun _ => enter' r) fun _ => True) :
    p.Sides (op g enter h) (op g enter' h) fun flow => ∃ o, g.op h = .ok o ∧ Leads o flow := by
  refine (Sides.ask _).bind fun o hOp => ?_
  have hKeeps := hKeeps o hOp
  refine Sides.mono (P := Leads o) ?_ fun flow hLeads => ⟨o, hOp, hLeads⟩
  dsimp only
  cases hKind : o.kind with
  | constant value => exact hKeeps.finish value
  | arith fn | compare predicate =>
    refine hKeeps.operand 0 fun l => hKeeps.operand 1 fun r => ?_
    split
    · exact hKeeps.finish _
    · exact .throw rfl
  | select =>
    refine hKeeps.operand 0 fun l => (Sides.ask _).bind fun cond _ =>
      (Sides.ask _).bind fun w hEntry => ?_
    refine hKeeps.pass (mem_of_entryAt hEntry) ?_
    have hAt := entryAt_eq_ok.mp hEntry
    simp only [Operation.choices, hKind]
    refine List.mem_of_getElem? (i := if cond then 0 else 1) ?_
    cases cond <;> simpa using hAt
  | apply map =>
    refine (hKeeps.sides_evalMap map fun _ => id).bind fun results _ => ?_
    split
    · exact hKeeps.finish _
    · exact .throw rfl
  | affineLoad map =>
    refine (Sides.ask _).bind fun vs hEntries => ?_
    refine (hKeeps.sides_evalMap map (subset_of_entriesFrom hEntries)).bind fun indices _ => ?_
    exact hKeeps.load indices (by rw [hKind]; rfl)
  | load =>
    refine (Sides.ask _).bind fun vs hEntries => ?_
    refine (hKeeps.sides_ints (subset_of_entriesFrom hEntries)).bind fun indices _ => ?_
    exact hKeeps.load indices (by rw [hKind]; rfl)
  | affineStore map =>
    refine hKeeps.operand 0 fun l => (Sides.ask _).bind fun vs hEntries => ?_
    refine (hKeeps.sides_evalMap map (subset_of_entriesFrom hEntries)).bind fun indices _ => ?_
    exact hKeeps.store indices l (by rw [hKind]; rfl)
  | store =>
    refine hKeeps.operand 0 fun l => (Sides.ask _).bind fun vs hEntries => ?_
    refine (hKeeps.sides_ints (subset_of_entriesFrom hEntries)).bind fun indices _ => ?_
    exact hKeeps.store indices l (by rw [hKind]; rfl)
  | loop lower upper step => exact hKeeps.loop hOp hKind (hRound o hOp (by rw [hKind]; rfl))
  | conditional set => exact hKeeps.conditional (hEnter o hOp (by rw [hKind]; rfl))
  | affineSelect set =>
    refine (Sides.ask _).bind fun n hInputs => (Sides.ask _).bind fun vs hEntries => ?_
    refine (hKeeps.sides_evalSet set (subset_of_entriesUpTo hEntries)).bind fun taken _ => ?_
    refine (Sides.ask _).bind fun w hEntry => hKeeps.pass (mem_of_entryAt hEntry) ?_
    have hAt := entryAt_eq_ok.mp hEntry
    simp only [Operation.choices, hKind, hInputs]
    refine List.mem_of_getElem? (i := if taken then 0 else 1) ?_
    cases taken <;> simpa [Except.toOption] using hAt
  | yield => exact done
  | alloc =>
    refine (Sides.ask _).bind fun ty hTy => ?_
    obtain ⟨v, hResult, _⟩ := bind_eq_ok.mp hTy
    unfold Graph.result at hResult
    rw [hOp] at hResult
    have hFirst : entryAt o.results 0 = .ok v := hResult
    unfold bindResult
    rw [hFirst, ← bind_assoc]
    exact (hKeeps.sides_alloc v ty).bind fun _ _ => done
  | dealloc =>
    refine (Sides.ask _).bind fun v hEntry => ?_
    refine (hKeeps.sides_free (mem_of_entryAt hEntry) ?_).bind fun _ _ => done
    simp only [Operation.effects, hKind, hEntry]
    rfl
  | call callee => exact .throw rfl
  | generic name effects traits => exact .throw rfl
  | branch =>
    refine (Sides.ask _).bind fun s hEntry => .pure ?_
    rintro _ ⟨⟩
    exact ⟨by rw [hKind]; rfl, mem_of_entryAt hEntry⟩
  | condBranch =>
    refine hKeeps.operand 0 fun l => (Sides.ask _).bind fun cond _ =>
      (Sides.ask _).bind fun s hEntry => .pure ?_
    rintro _ ⟨⟩
    exact ⟨by rw [hKind]; rfl, mem_of_entryAt hEntry⟩
  | ret => exact (Sides.mapM fun v => hKeeps.sides_lookup).bind fun values _ => ret values

/- An operation that keeps a pact, and so do its regions. -/
theorem op_of_enter (hKeeps : ∀ o, g.op h = .ok o → p.Keeps o)
    (hEnter : ∀ o, g.op h = .ok o → o.kind.isLoop = true ∨ o.kind.isConditional = true →
      ∀ r ∈ o.regions, p.Sides (enter r) (enter' r) fun _ => True) :
    p.Sides (Exec.op g enter h) (Exec.op g enter' h)
      fun flow => ∃ o, g.op h = .ok o ∧ Leads o flow :=
  Keeps.op hKeeps (fun o hOp hKind => hEnter o hOp (.inr hKind)) fun o hOp hKind r hIn var _ _ =>
    ((hKeeps o hOp).sides_assign var _).bind fun _ _ => hEnter o hOp (.inl hKind) r hIn

end Keeps

------
-- Blocks
------

/-
  Pacts for every number of operations that were counted, for
  the blocks that a run may come to.
-/
structure Chain (p : Nat → Pact) (g : Graph) (inside : BlockId → Prop) : Prop where
  tick {i : Nat} {h : OpId} {x y : Exec Flow} {P : Flow → Prop} (hRest : (p (i + 1)).Sides x y P) :
    (p i).Sides (tick h >>= fun _ => x) (tick h >>= fun _ => y) P
  keeps {b : BlockId} {blk : Block} {h : OpId} {o : Operation} (hInside : inside b)
    (hBlock : g.block b = .ok blk) (hMem : h ∈ blk.ops) (hOp : g.op h = .ok o) (i : Nat) :
    (p i).Keeps o
  branch {b s : BlockId} {blk : Block} {h : OpId} {o : Operation} (hInside : inside b)
    (hBlock : g.block b = .ok blk) (hMem : h ∈ blk.ops) (hOp : g.op h = .ok o)
    (hKind : o.kind.isBranch = true) (hSucc : s ∈ o.successors) : inside s
  enter {b c : BlockId} {blk : Block} {h : OpId} {o : Operation} {r : RegionId}
    (hInside : inside b) (hBlock : g.block b = .ok blk) (hMem : h ∈ blk.ops)
    (hOp : g.op h = .ok o) (hKind : o.kind.isLoop = true ∨ o.kind.isConditional = true)
    (hRegion : r ∈ o.regions)
    (hEntry : g.entryBlock? r = .ok (some c)) : inside c

/- Counting, where a pact is only about bindings and buffers. -/
theorem sides_tick {p : Pact} {x y : Exec Flow} {P : Flow → Prop} (h : OpId)
    (hLimits : ∀ {k l}, p.limits k l → k = l)
    (hStays : ∀ {m m'}, m'.env = m.env → m'.buffers = m.buffers → p.holds m → p.holds m')
    (hRest : p.Sides x y P) : p.Sides (tick h >>= fun _ => x) (tick h >>= fun _ => y) P := by
  refine Sides.bind (P := fun _ => True) (fun m n hAlike hHolds => ?_) fun _ _ => hRest
  have hSame := hLimits hAlike.limits
  have hSteps := hAlike.steps
  by_cases hLimit : m.steps + 1 ≤ m.limit
  · rw [outcome_tick_of_le h hLimit, outcome_tick_of_le h (by omega)]
    exact ⟨trivial, _, rfl, hAlike.counted h, hStays (m := m) rfl rfl hHolds⟩
  · rw [outcome_tick_of_lt h (by omega), outcome_tick_of_lt h (by omega)]
    exact .inr ⟨p.own rfl, _, Prod.ext (by rw [hSame]) rfl,
      { hAlike with steps := by simp [hSteps] }, hStays (m := m) rfl rfl hHolds⟩

variable {p : Nat → Pact} {g : Graph} {inside : BlockId → Prop} {h : OpId} {o : Operation}

theorem sides_region {p : Pact} {block block' : BlockId → Exec Flow} {r : RegionId}
    (hBlock : ∀ b, g.entryBlock? r = .ok (some b) →
      p.Sides (block b) (block' b) fun _ => True) :
    p.Sides (region g block r) (region g block' r) fun _ => True := by
  refine (Sides.ask _).bind fun first hEntry => ?_
  cases first with
  | none => exact .pure trivial
  | some b => exact hBlock b hEntry

section Blocks

variable {b : BlockId} {blk : Block} {block block' : BlockId → Exec Flow} {hs : List OpId} {i : Nat}
  (hChain : Chain p g inside)
include hChain

/- An operation of a block. -/
theorem Chain.sides_op (hInside : inside b) (hBlock : g.block b = .ok blk) (hMem : h ∈ blk.ops)
    (hBlocks : ∀ c, inside c → (p i).Sides (block c) (block' c) fun _ => True) :
    (p i).Sides (op g (region g block) h) (op g (region g block') h)
      fun flow => ∃ o, g.op h = .ok o ∧ Keeps.Leads o flow := by
  refine Keeps.op_of_enter (fun o hOp => hChain.keeps hInside hBlock hMem hOp i)
    fun o hOp hKind r hIn => sides_region fun c hEntry => ?_
  exact hBlocks c (hChain.enter hInside hBlock hMem hOp hKind hIn hEntry)

/- An operation of a block, and what comes behind it. -/
theorem Chain.sides_onward (hInside : inside b) (hBlock : g.block b = .ok blk) (hMem : h ∈ blk.ops)
    (hBlocks : ∀ c, inside c → (p i).Sides (block c) (block' c) fun _ => True)
    (hRest : (p i).Sides (ops g (region g block) hs >>= follow block)
      (ops g (region g block') hs >>= follow block') fun _ => True) :
    (p i).Sides (op g (region g block) h >>= onward g (region g block) hs (follow block))
      (op g (region g block') h >>= onward g (region g block') hs (follow block'))
      fun _ => True := by
  refine (hChain.sides_op hInside hBlock hMem hBlocks).bind fun flow ⟨o, hOp, hLeads⟩ => ?_
  cases flow with
  | done => exact hRest
  | branch s =>
    obtain ⟨hKind, hSucc⟩ := hLeads s rfl
    exact hBlocks s (hChain.branch hInside hBlock hMem hOp hKind hSucc)
  | ret values => exact .pure trivial

theorem Chain.sides_ops (hInside : inside b) (hBlock : g.block b = .ok blk)
    (hMem : ∀ h ∈ hs, h ∈ blk.ops)
    (hBlocks : ∀ c j, inside c → i < j → (p j).Sides (block c) (block' c) fun _ => True) :
    (p i).Sides (ops g (region g block) hs >>= follow block)
      (ops g (region g block') hs >>= follow block') fun _ => True := by
  induction hs generalizing i with
  | nil => exact .pure trivial
  | cons h hs ih =>
    obtain ⟨hHead, hTail⟩ := List.forall_mem_cons.mp hMem
    rw [ops_cons_bind, ops_cons_bind]
    refine hChain.tick (hChain.sides_onward hInside hBlock hHead ?_ (ih hTail ?_))
    · exact fun c hIn => hBlocks c (i + 1) hIn (by omega)
    · exact fun c j hIn hLess => hBlocks c j hIn (by omega)

/-
  Blocks side by side, with more fuel on the second machine.
  The last pacts are for a first machine without fuel.
-/
theorem Chain.sides_blockUpTo (last extra fuel : Nat) (hLast : ∀ j b, last ≤ j →
      (p j).Sides (throw .endless) (blockUpTo g extra b) fun _ => True)
    (hInside : inside b) (hEnough : last ≤ i + fuel) :
    (p i).Sides (blockUpTo g fuel b) (blockUpTo g (extra + fuel) b) fun _ => True := by
  induction fuel generalizing b i with
  | zero => exact hLast i b hEnough
  | succ fuel ih =>
    refine (Sides.ask _).bind fun blk hBlock => ?_
    exact hChain.sides_ops hInside hBlock (fun _ => id) fun c j hIn hLess => ih hIn (by omega)

end Blocks

/- Functions side by side. -/
theorem sides_run {p : Pact} {f : Function} (args : List Datum)
    (hAssign : ∀ {m v d}, p.holds m → p.holds { m with env := m.env.insert v d })
    (hBody : ∀ b k l, f.graph.entryBlock? f.body = .ok (some b) → p.limits k l →
      p.Sides (blockUpTo f.graph (k + 1) b) (blockUpTo f.graph (l + 1) b)
        fun _ => True) : p.Passes (f.run args) := by
  refine (Sides.ask _).bind fun params _ => ?_
  dsimp only
  split
  · exact Sides.bind (P := fun _ => False) (.throw rfl) nofun
  refine Sides.bind (P := fun _ => True) ?_ fun _ _ => ?_
  · induction params.zip args with
    | nil => exact .pure trivial
    | cons e rest ih =>
      refine Sides.bind (P := fun _ => True) (fun m n hAlike hHolds => ?_) fun _ _ => ih
      exact ⟨trivial, _, rfl, hAlike.assign e.1 e.2, hAssign hHolds⟩
  · intro m n hAlike
    rw [outcome_get_bind, outcome_get_bind]
    refine (sides_region fun b hEntry => hBody b _ _ hEntry hAlike.limits).bind
      (fun flow _ => ?_) hAlike
    cases flow <;> exact .pure trivial

end Pact

end AffineIR
