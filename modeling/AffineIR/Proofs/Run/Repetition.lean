import AffineIR.Proofs.Run.Program

/-
  Statements that are executed again.

  A value that a statement needs is one that it uses.  A
  settled statement gives the value that its result is bound
  to, so executing it again changes nothing.  It is settled
  right after it was executed, and stays so while nothing that
  it depends on changes.

  Main declarations:
    * `Prog.settled_act_of_step`, `Prog.settled_act_of_samePlace`
-/

namespace AffineIR

namespace Prog

variable {σ σ₁ σ' : Store}

/- A value is an operand somewhere in a program. -/
def Uses : Prog → ValueId → Prop
  | nil, _ => False
  | act a rest, v => v ∈ a.operands ∨ rest.Uses v
  | loop a _ body rest, v => v ∈ a.operands ∨ body.Uses v ∨ rest.Uses v
  | cond a branch rest, v => v ∈ a.operands ∨ (∃ taken, (branch taken).Uses v) ∨ rest.Uses v

/- What one program binds is no concern of the other. -/
structure Apart (p q : Prog) : Prop where
  uses {v : ValueId} (hUses : p.Uses v) : ¬q.Binds v
  binds {v : ValueId} (hBinds : p.Binds v) : ¬q.Binds v

/- Nothing is used before it is bound, and nothing bound twice. -/
def Ordered : Prog → Prop
  | nil => True
  | act a rest =>
    (∀ v ∈ a.operands, v ∉ a.bound ∧ ¬rest.Binds v) ∧ (∀ v ∈ a.bound, ¬rest.Binds v) ∧ rest.Ordered
  | loop a var body rest =>
    (loop a var body nil).Apart rest ∧ rest.Apart (loop a var body nil) ∧ rest.Ordered
  | cond a branch rest =>
    (cond a branch nil).Apart rest ∧ rest.Apart (cond a branch nil) ∧ rest.Ordered

theorem uses_of_needs {p : Prog} {v : ValueId} (hNeeds : p.Needs v) : p.Uses v := by
  induction p with
  | nil => exact hNeeds
  | act a rest ih => exact hNeeds.imp_right fun hBoth => ih hBoth.2
  | loop a var body rest ihBody ih =>
    exact hNeeds.imp_right fun hRest => hRest.imp (fun hBoth => ihBody hBoth.2) ih
  | cond a branch rest ihBranch ih => exact hNeeds.imp_right fun hRest => hRest.imp (.imp ihBranch) ih

/- What a statement that computes a value does. -/
theorem step_of_isValue {p : Act} (hKind : p.kind.isValue) (hStep : p.step σ = some σ') :
    ∃ d r, p.value? σ = some d ∧ p.results[0]? = some r ∧ p.bound = [r] ∧ σ' = σ.assign r d := by
  rw [Act.step_of_isValue hKind] at hStep
  obtain ⟨d, hValue, hMap⟩ := Option.bind_eq_some_iff.mp hStep
  obtain ⟨r, hResult, hEq⟩ := Option.map_eq_some_iff.mp hMap
  refine ⟨d, r, hValue, hResult, ?_, hEq.symm⟩
  unfold Act.bound
  rw [if_pos (.inl hKind)]
  cases hResults : p.results with
  | nil => simp [hResults] at hResult
  | cons r' rest => simp_all

/- What a settled statement is bound to. -/
theorem settled_act_iff {a : Act} (hKind : a.kind.isValue) :
    a.step σ = some σ ↔ ∃ d r, a.value? σ = some d ∧ a.results[0]? = some r ∧
        a.bound = [r] ∧ σ.env r = some d := by
  constructor
  · intro hStep
    obtain ⟨d, r, hValue, hResult, hBound, hEq⟩ := step_of_isValue hKind hStep
    refine ⟨d, r, hValue, hResult, hBound, ?_⟩
    rw [hEq, Store.env_assign_self]
  · rintro ⟨d, r, hValue, hResult, _, hEnv⟩
    rw [Act.step_of_effect (.value hKind hValue hResult), Store.assign_eq_self hEnv]

/- A statement stays settled while nothing it depends on changes. -/
theorem settled_act_of_samePlace {a : Act} {τ : Store} (hKind : a.kind.isValue)
    (hSettled : a.step σ = some σ) (hEnv : ∀ v, v ∈ a.operands ∨ v ∈ a.bound → σ.env v = τ.env v)
    (hSame : ∀ place, a.kind.isLoad → a.place? σ = some place →
      σ.SamePlace τ place) : a.step τ = some τ := by
  obtain ⟨d, r, hValue, hResult, hBound, hBind⟩ := (settled_act_iff hKind).mp hSettled
  refine (settled_act_iff hKind).mpr ⟨d, r, ?_, hResult, hBound, ?_⟩
  · exact Act.value?_of_samePlace hValue (fun v hMem => hEnv v (.inl hMem)) hSame
  · rwa [← hEnv r (.inr (hBound ▸ List.mem_singleton_self r))]

/- A statement is settled right after it was executed. -/
theorem settled_act_of_step {a : Act} (hKind : a.kind.isValue)
    (hFresh : ∀ v ∈ a.operands, v ∉ a.bound)
    (hStep : a.step σ = some σ₁) : a.step σ₁ = some σ₁ ∧ a.place? σ₁ = a.place? σ := by
  have hEnv : ∀ v ∈ a.operands, σ.env v = σ₁.env v := fun v hMem =>
    (Act.env_of_step hStep (hFresh v hMem)).symm
  obtain ⟨d, r, hValue, hResult, hBound, rfl⟩ := step_of_isValue hKind hStep
  refine ⟨(settled_act_iff hKind).mpr ⟨d, r, ?_, hResult, hBound, ?_⟩, ?_⟩
  · rw [← hValue]
    exact (Act.value?_congr (σ := σ) (τ := σ.assign r d) (fun _ => rfl) hEnv).symm
  · exact Store.env_assign_self ..
  · exact (Act.place?_congr (σ := σ) (τ := σ.assign r d) rfl hEnv).symm

end Prog

end AffineIR
