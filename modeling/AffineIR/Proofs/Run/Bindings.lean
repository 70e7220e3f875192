import AffineIR.Proofs.Run.Locality
import AffineIR.Proofs.Run.Pacts

/-
  Computations that find no value unbound.

  What is bound stays bound, so it is enough to know which
  values are bound before a computation to know that it does
  not ask for another one, and which values are bound behind
  it.  An operation whose operands are bound asks for nothing
  else, and binds its result.

  Main result: `Exec.safe_op`
-/

namespace AffineIR

/- A value has a binding. -/
def Machine.Binds (m : Machine) (v : ValueId) : Prop := (m.env.get? v).isSome

/- What is bound stays bound. -/
def Machine.Grows (m m' : Machine) : Prop := ∀ v, m.Binds v → m'.Binds v

/- The failure of asking for a value without a binding. -/
def Failure.isUnbound : Failure → Bool
  | .trap (.typeMismatch (.unbound _)) => true
  | _ => false

namespace Machine

variable {m m₁ m₂ m₃ : Machine}

theorem Grows.refl (m : Machine) : m.Grows m := fun _ => id

theorem Grows.trans (hFirst : m₁.Grows m₂) (hSecond : m₂.Grows m₃) : m₁.Grows m₃ :=
  fun v hBinds => hSecond v (hFirst v hBinds)

theorem Grows.of_env (hEnv : m₂.env = m₁.env) : m₁.Grows m₂ := by
  intro v hBinds
  unfold Binds
  rwa [hEnv]

theorem binds_insert (m : Machine) (v w : ValueId) (d : Datum) :
    ({ m with env := m.env.insert v d } : Machine).Binds w ↔ w = v ∨ m.Binds w := by
  unfold Binds
  rw [Table.get?_insert]
  by_cases hSame : w = v
  · simp [hSame]
  · simp [hSame]

end Machine

namespace Exec

variable {α β : Type}

------
-- Safe computations
------

/-
  A computation does not ask for unbound values, and what it
  gives and leaves has a property.
-/
def Safe (x : Exec α) (m : Machine) (Q : α → Machine → Prop) : Prop :=
  match x.outcome m with
  | (.ok a, m') => m.Grows m' ∧ Q a m'
  | (.error e, _) => e.isUnbound = false

variable {m : Machine} {Q Q' : α → Machine → Prop}

theorem Safe.pure {a : α} (hHere : Q a m) : Safe (Pure.pure a) m Q := ⟨.refl m, hHere⟩

theorem Safe.throw {e : Failure} (hOther : e.isUnbound = false) : Safe (throw e : Exec α) m Q :=
  hOther

theorem Safe.bind {x : Exec α} {k : α → Exec β} {R : β → Machine → Prop}
    (hSafe : Safe x m fun a m' => Safe (k a) m' R) : Safe (x >>= k) m R := by
  unfold Safe at hSafe ⊢
  rw [outcome_bind]
  rcases hOutcome : outcome x m with ⟨_ | a, m'⟩
  · rwa [hOutcome] at hSafe
  · rw [hOutcome] at hSafe
    obtain ⟨hFirst, hRest⟩ := hSafe
    simp only
    rcases hOutcome' : outcome (k a) m' with ⟨_ | b, m''⟩
    · rwa [hOutcome'] at hRest
    · rw [hOutcome'] at hRest
      exact ⟨hFirst.trans hRest.1, hRest.2⟩

theorem Safe.mono {x : Exec α} (hSafe : Safe x m Q)
    (hMore : ∀ a m', m.Grows m' → Q a m' → Q' a m') : Safe x m Q' := by
  unfold Safe at hSafe ⊢
  rcases hOutcome : outcome x m with ⟨_ | a, m'⟩
  · rwa [hOutcome] at hSafe
  · rw [hOutcome] at hSafe
    exact ⟨hSafe.1, hMore a m' hSafe.1 hSafe.2⟩

theorem Safe.ask {answer : Except Fault α}
    (hHere : ∀ a, answer = .ok a → Q a m) : Safe (ask answer) m Q := by
  cases answer with
  | ok a => exact .pure (hHere a rfl)
  | error e => exact .throw rfl

/- A computation that only changes other parts of the machine. -/
theorem Safe.modifyGet {f : Machine → α × Machine} (hEnv : (f m).2.env = m.env)
    (hHere : Q (f m).1 (f m).2) : Safe (modifyGet f) m Q :=
  ⟨.of_env hEnv, hHere⟩

theorem Safe.get {Q : Machine → Machine → Prop} (hHere : Q m m) : Safe get m Q :=
  ⟨.refl m, hHere⟩

theorem Safe.assign {v : ValueId} {d : Datum} {Q : Unit → Machine → Prop}
    (hHere : Q () { m with env := m.env.insert v d }) : Safe (assign v d) m Q :=
  ⟨fun w hBinds => (m.binds_insert v w d).mpr (.inr hBinds), hHere⟩

theorem Safe.tick {h : OpId} {Q : Unit → Machine → Prop}
    (hHere : ∀ m', m'.env = m.env → Q () m') : Safe (tick h) m Q := by
  refine .bind (.modifyGet rfl (.bind (.get ?_)))
  split
  · exact .bind (.throw rfl)
  · exact .bind (.pure (.modifyGet rfl (hHere _ rfl)))

end Exec

------
-- Operations
------

namespace Kind

/- Kinds whose execution binds the first result. -/
def bindsResult (kind : Kind) : Bool := kind.isValue || kind = alloc

/- Kinds that cannot be executed. -/
def isForeign : Kind → Bool
  | call _ | generic _ _ _ => true
  | _ => false

end Kind

namespace Exec

/- What an operation leaves behind. -/
structure Leaves (o : Operation) (flow : Flow) (m : Machine) : Prop where
  own : o.kind.isForeign = false
  result {v : ValueId} (hDone : flow = .done)
    (hKind : o.kind.bindsResult = true) (hFirst : o.results[0]? = some v) :
    m.Binds v
  branch {s : BlockId} (hBranch : flow = .branch s) : o.kind.isBranch = true ∧ s ∈ o.successors

variable {m m' : Machine} {g : Graph} {h : OpId} {o : Operation} {flow : Flow}
  {enter : RegionId → Exec Flow}

/- An operation that ends well has done its step. -/
theorem leaves_of_op (hOp : g.op h = .ok o) (hOutcome : outcome (op g enter h) m = (.ok flow, m'))
    (hLeads : Pact.Keeps.Leads o flow) : Leaves o flow m' := by
  cases hControl : o.kind.isControl with
  | true =>
    refine ⟨?_, fun _ hKind _ => ?_, fun {s} hBranch => hLeads s hBranch⟩
    · cases hKind : o.kind <;> simp_all [Kind.isControl, Kind.isForeign]
    · cases hIs : o.kind <;> simp_all [Kind.isControl, Kind.bindsResult, Kind.isValue]
  | false =>
    have hActs := acts_op enter hOp hControl
    cases hStep : (g.actOf h o).step m.store with
    | none =>
      obtain ⟨e, m₁, hError, _⟩ := hActs.fails (m := m) (by rw [hStep]; rfl)
      cases hOutcome.symm.trans hError
    | some σ =>
      obtain ⟨m₁, hDone, rfl, _⟩ := hActs.ok (m := m) (by rw [hStep]; rfl)
      cases hOutcome.symm.trans hDone
      have hEffect := Act.effect_of_step hStep
      generalize hAfter : m'.store = σ' at hEffect
      refine ⟨?_, fun {v} _ hKind hFirst => ?_, fun hBranch => by cases hBranch⟩
      · cases hEffect <;> cases hKind : o.kind <;>
          simp_all [Graph.actOf, Kind.isForeign, Kind.isValue, Kind.isStore]
      · change (m'.store.env v).isSome = true
        rw [hAfter]
        cases hEffect with
        | value _ _ hResult | alloc _ _ _ hResult =>
          cases hFirst.symm.trans hResult
          rw [Store.env_assign_self]
          rfl
        | write hIs => cases hK : o.kind <;> simp_all [Graph.actOf, Kind.isStore,
            Kind.bindsResult, Kind.isValue]
        | skip hIs | free hIs => simp_all [Graph.actOf, Kind.bindsResult, Kind.isValue]

end Exec

/- Machines that have bound what one had bound, and ask for nothing else. -/
def Pact.bound (m : Machine) : Pact where
  holds := m.Grows
  shares e := e.isUnbound = false
  stops e _ := e.isUnbound = false
  own {e} hOther := by
    unfold Failure.isLoss at hOther
    unfold Failure.isUnbound
    split <;> simp_all

namespace Exec

variable {m : Machine} {g : Graph} {h : OpId} {o : Operation} {enter : RegionId → Exec Flow}

theorem keeps_bound (hBinds : ∀ v ∈ o.operands, m.Binds v) : (Pact.bound m).Keeps o where
  unbound {m' v} hMem hHolds hNone := by
    have hSome := hHolds v (hBinds v hMem)
    unfold Machine.Binds at hSome
    rw [hNone] at hSome
    cases hSome
  overrun _ _ _ _ := rfl
  scalar v l hHolds w hOld := (Machine.binds_insert _ v w _).mpr (.inr (hHolds w hOld))
  copy _ _ _ hHolds w hOld := (Machine.binds_insert _ _ w _).mpr (.inr (hHolds w hOld))
  alloc v _ hHolds w hOld := by
    have hBefore := hHolds w hOld
    exact (Machine.binds_insert _ v w _).mpr (.inr hBefore)
  read _ _ _ := id
  write _ _ _ _ hHolds := hHolds
  free _ _ hHolds := hHolds

/- Safe computations keep what is bound. -/
theorem Safe.passes {x : Exec Flow}
    (hSafe : ∀ m', m.Grows m' → Safe x m' fun _ _ => True) : (Pact.bound m).Passes x := by
  intro m' n hAlike hGrows
  cases hAlike.eq_of_tight id fun _ => id
  have hSafe := hSafe m' hGrows
  unfold Safe at hSafe
  generalize outcome x m' = out at hSafe ⊢
  obtain ⟨e | a, m''⟩ := out
  · exact .inl hSafe
  · exact ⟨trivial, m'', rfl, .refl rfl, hGrows.trans hSafe.1⟩

/-
  An operation whose operands are bound asks for nothing else;
  regions in it may use its variable, too.
-/
theorem safe_op (hOp : g.op h = .ok o) (hBinds : ∀ v ∈ o.operands, m.Binds v)
    (hInner : o.kind.isLoop = true ∨ o.kind.isConditional = true →
      ∀ r ∈ o.regions, ∀ m', m.Grows m' →
      (o.kind.isLoop = true → ∀ var, g.inductionVar h = .ok var → m'.Binds var) →
      Safe (enter r) m' fun _ _ => True) : Safe (op g enter h) m (Leaves o) := by
  have hSides : (Pact.bound m).Sides (op g enter h) (op g enter h) fun flow =>
      ∃ o, g.op h = .ok o ∧ Pact.Keeps.Leads o flow := by
    refine Pact.Keeps.op ?_ ?_ ?_ <;> intro o' hOp' <;> cases hOp.symm.trans hOp'
    · exact keeps_bound hBinds
    · intro hKind r hMem
      refine Safe.passes fun m' hGrows => hInner (.inr hKind) r hMem m' hGrows fun hLoop => ?_
      cases hIs : o.kind <;> simp_all [Kind.isLoop, Kind.isConditional]
    · intro hKind r hMem var hVar i
      refine Safe.passes fun m' hGrows => .bind (.assign (hInner (.inl hKind) r hMem _ ?_ ?_))
      · exact fun w hOld => (m'.binds_insert var w _).mpr (.inr (hGrows w hOld))
      · intro _ var' hVar'
        cases hVar.symm.trans hVar'
        exact (m'.binds_insert var var _).mpr (.inl rfl)
  have hSides := hSides (.refl rfl) (.refl m)
  unfold Safe
  generalize hOutcome : outcome (op g enter h) m = out at hSides ⊢
  obtain ⟨e | flow, m'⟩ := out
  · exact hSides.elim id fun hShared => hShared.1
  · obtain ⟨⟨o', hOp', hLeads⟩, _, _, _, hGrows⟩ := hSides
    cases hOp.symm.trans hOp'
    exact ⟨hGrows, leaves_of_op hOp hOutcome hLeads⟩

end Exec

end AffineIR
