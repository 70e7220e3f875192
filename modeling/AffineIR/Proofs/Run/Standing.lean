import AffineIR.Proofs.Run.Repetition
import AffineIR.Proofs.Run.Arrival

/-
  What is known where a program arrives.

  In a scoped program nothing that a statement depends on is
  bound again behind it or inside it.  So values computed on
  the way are still what they were computed to be, the
  variables of loops are within the bounds, and the conditions
  of branches hold.

  Main result: `Prog.WellScoped.visible_of_operand`
-/

namespace AffineIR

open List

namespace Prog

/- Names are bound once, and where they are seen. -/
def WellScoped : Prog → Prop
  | nil => True
  | act a rest =>
    (∀ v ∈ a.operands, v ∉ a.bound) ∧
      (∀ v, v ∈ a.operands ∨ v ∈ a.bound → ¬rest.Binds v) ∧ rest.WellScoped
  | loop a var body rest =>
    (∀ v, v ∈ a.operands ∨ v = var → ¬body.Binds v) ∧ var ∉ a.operands ∧
      (loop a var body nil).Apart rest ∧
      rest.Apart (loop a var body nil) ∧ body.WellScoped ∧ rest.WellScoped
  | cond a branch rest =>
    (∀ v ∈ a.operands, ∀ taken, ¬(branch taken).Binds v) ∧
      (∀ {here there}, here ≠ there → (branch here).Apart (branch there)) ∧
      (cond a branch nil).Apart rest ∧ rest.Apart (cond a branch nil) ∧
      (∀ taken, (branch taken).WellScoped) ∧ rest.WellScoped

variable {p q : Prog} {w : List Mark} {t : Trace} {σ τ : Store} {v : ValueId} {k : Mark} {b : Act}

theorem Leads.scoped (hLeads : p.Leads w q) (hScoped : p.WellScoped) : q.WellScoped := by
  induction hLeads with
  | here p => exact hScoped
  | act _ ih => exact ih hScoped.2.2
  | body _ ih => exact ih hScoped.2.2.2.2.1
  | loop _ ih => exact ih hScoped.2.2.2.2.2
  | branch _ ih => exact ih (hScoped.2.2.2.2.1 _)
  | cond _ ih => exact ih hScoped.2.2.2.2.2

/- What a mark depends on or binds is not bound behind it. -/
theorem Leads.fresh (hLeads : p.Leads w q) (hScoped : p.WellScoped) (hMem : k ∈ w)
    (hNamed : v ∈ k.act.operands ∨ v ∈ k.bound) : ¬q.Binds v := by
  obtain ⟨_, _, _, _, _, hFirst, hOpens, hLast⟩ := hLeads.at_mark hMem
  have hThere := hFirst.scoped hScoped
  intro hBinds
  replace hBinds := hLast.binds hBinds
  cases hOpens with
  | past => exact hThere.2.1 v hNamed hBinds
  | inside => exact hThere.1 v (hNamed.imp_right mem_singleton.mp) hBinds
  | branch => exact hThere.1 v (hNamed.resolve_right not_mem_nil) _ hBinds

------
-- Visible values
------

/- What a scoped program binds, it does not look up before. -/
theorem WellScoped.not_needs (hScoped : p.WellScoped) (hBinds : p.Binds v) : ¬p.Needs v := by
  induction p with
  | nil => exact id
  | act a rest ih =>
    obtain ⟨hFresh, hRest, hScoped⟩ := hScoped
    rintro (hOperand | ⟨hUnbound, hNeeds⟩)
    · rcases hBinds with hBound | hBinds
      · exact hFresh v hOperand hBound
      · exact hRest v (.inl hOperand) hBinds
    · exact ih hScoped (hBinds.resolve_left hUnbound) hNeeds
  | loop a var body rest ihBody ih =>
    obtain ⟨hInner, hVar, hApart, hApart', hBody, hRest⟩ := hScoped
    rintro (hOperand | ⟨hOther, hNeeds⟩ | hNeeds)
    · rcases hBinds with rfl | hBinds | hBinds
      · exact hVar hOperand
      · exact hInner v (.inl hOperand) hBinds
      · exact hApart.uses (.inl hOperand) hBinds
    · rcases hBinds with hSame | hBinds | hBinds
      · exact hOther hSame
      · exact ihBody hBody hBinds hNeeds
      · exact hApart.uses (.inr (.inl (uses_of_needs hNeeds))) hBinds
    · rcases hBinds with hSame | hBinds | hBinds
      · exact hApart'.uses (uses_of_needs hNeeds) (.inl hSame)
      · exact hApart'.uses (uses_of_needs hNeeds) (.inr (.inl hBinds))
      · exact ih hRest hBinds hNeeds
  | cond a branch rest ihBranch ih =>
    obtain ⟨hInner, hOther, hApart, hApart', hBranch, hRest⟩ := hScoped
    rintro (hOperand | ⟨taken, hNeeds⟩ | hNeeds)
    · rcases hBinds with ⟨taken, hBinds⟩ | hBinds
      · exact hInner v hOperand taken hBinds
      · exact hApart.uses (.inl hOperand) hBinds
    · have hUses := uses_of_needs hNeeds
      rcases hBinds with ⟨there, hBinds⟩ | hBinds
      · by_cases hSame : taken = there
        · subst hSame
          exact ihBranch taken (hBranch taken) hBinds hNeeds
        · exact (hOther hSame).uses hUses hBinds
      · exact hApart.uses (.inr (.inl ⟨taken, hUses⟩)) hBinds
    · rcases hBinds with hBinds | hBinds
      · exact hApart'.uses (uses_of_needs hNeeds) (.inl hBinds)
      · exact ih hRest hBinds hNeeds

/- A value that a way binds. -/
def Visible (w : List Mark) (v : ValueId) : Prop := ∃ k ∈ w, v ∈ k.bound

theorem Visible.cons (hVisible : Visible w v) : Visible (k :: w) v := by
  obtain ⟨k', hMem, hBound⟩ := hVisible
  exact ⟨k', mem_cons_of_mem _ hMem, hBound⟩

/- What a part looks up is bound on the way or looked up by the whole. -/
theorem Leads.needs (hLeads : p.Leads w q) (hNeeds : q.Needs v) : Visible w v ∨ p.Needs v := by
  induction hLeads with
  | here p => exact .inr hNeeds
  | @act a rest q w _ ih =>
    rcases ih hNeeds with hVisible | hNeeds
    · exact .inl hVisible.cons
    · by_cases hBound : v ∈ a.bound
      · exact .inl ⟨.past a, mem_cons_self, hBound⟩
      · exact .inr (.inr ⟨hBound, hNeeds⟩)
  | @body a var body rest q w _ ih =>
    rcases ih hNeeds with hVisible | hNeeds
    · exact .inl hVisible.cons
    · by_cases hVar : v = var
      · exact .inl ⟨.inside a var, mem_cons_self, mem_singleton.mpr hVar⟩
      · exact .inr (.inr (.inl ⟨hVar, hNeeds⟩))
  | loop _ ih => exact (ih hNeeds).imp_right fun hNeeds => .inr (.inr hNeeds)
  | branch _ ih => exact (ih hNeeds).imp Visible.cons fun hNeeds => .inr (.inl ⟨_, hNeeds⟩)
  | cond _ ih => exact (ih hNeeds).imp_right fun hNeeds => .inr (.inr hNeeds)

theorem needs_of_head (hHead : p.head? = some b) (hMem : v ∈ b.operands) : p.Needs v := by
  cases p <;> cases hHead <;> exact .inl hMem

/- Operands that the program binds are bound on the way to their use. -/
theorem WellScoped.visible_of_operand (hScoped : p.WellScoped) (hLeads : p.Leads w q)
    (hHead : q.head? = some b) (hMem : v ∈ b.operands) (hBinds : p.Binds v) : Visible w v :=
  (hLeads.needs (needs_of_head hHead hMem)).resolve_right (hScoped.not_needs hBinds)

theorem WellScoped.visible_of_mark (hScoped : p.WellScoped) (hLeads : p.Leads w q) (hMark : k ∈ w)
    (hMem : v ∈ k.act.operands) (hBinds : p.Binds v) : Visible w v := by
  obtain ⟨w₁, w₂, q₁, q₂, rfl, hFirst, hOpens, _⟩ := hLeads.at_mark hMark
  obtain ⟨k', hMem', hBound⟩ := hScoped.visible_of_operand hFirst hOpens.head hMem hBinds
  exact ⟨k', mem_append_left _ hMem', hBound⟩

/- What is known of a store behind a mark. -/
def Mark.Holds : Mark → Store → Prop
  | past a, σ => a.kind.isValue = true → a.kind.isLoad = false → a.step σ = some σ
  | inside a var, σ => ∃ is, ∃ i ∈ is, a.values? σ = some is ∧ σ.env var = some (.scalar (.index i))
  | branch a taken, σ => a.holds? σ = some taken

theorem Mark.Holds.congr (hHolds : k.Holds σ)
    (hEnv : ∀ v, v ∈ k.act.operands ∨ v ∈ k.bound → σ.env v = τ.env v) : k.Holds τ := by
  cases k with
  | past a =>
    intro hValue hLoad
    refine settled_act_of_samePlace hValue (hHolds hValue hLoad) hEnv ?_
    intro place hIsLoad
    cases hLoad.symm.trans hIsLoad
  | inside a var =>
    obtain ⟨is, i, hMem, hValues, hVar⟩ := hHolds
    refine ⟨is, i, hMem, ?_, ?_⟩
    · rw [← hValues]
      exact (Act.values?_congr fun v hMem => hEnv v (.inl hMem)).symm
    · rw [← hVar]
      exact (hEnv var (.inr (mem_singleton_self var))).symm
  | branch a taken =>
    change a.holds? τ = some taken
    rw [← show a.holds? σ = some taken from hHolds]
    exact (Act.holds?_congr fun v hMem => hEnv v (.inl hMem)).symm

/- Arriving somewhere changes what the program binds only. -/
theorem env_of_arrives (hFree : ¬p.Binds v) (hArrives : p.Arrives σ w t q τ) : τ.env v = σ.env v :=
  ((along_env hFree).arrives hArrives).1

theorem env_of_each {body : Prog} {var : ValueId} {is : List Int} (hOther : v ≠ var)
    (hFree : ¬body.Binds v) (hEach : each body.run var is σ = some (t, τ)) : τ.env v = σ.env v := by
  induction is generalizing σ t with
  | nil =>
    cases hEach
    rfl
  | cons i is ih =>
    obtain ⟨t₁, σ₁, t₂, hFirst, hRest, rfl⟩ := each_cons_iff.mp hEach
    rw [ih hRest, env_of_run hFree hFirst]
    exact Store.env_assign_of_ne _ _ hOther

/- All the marks of a way hold at its end. -/
theorem Arrives.holds (hScoped : p.WellScoped) (hArrives : p.Arrives σ w t q τ)
    (hMem : k ∈ w) : k.Holds τ := by
  induction hArrives with
  | here p σ => cases hMem
  | @act a rest q w t σ σ₁ τ hStep hRest ih =>
    obtain ⟨hFresh, hLater, hScoped⟩ := hScoped
    rcases mem_cons.mp hMem with rfl | hMem
    · have hSettled : (Mark.past a).Holds σ₁ := fun hValue _ =>
        (settled_act_of_step hValue hFresh hStep).1
      exact hSettled.congr fun v hNamed => (env_of_arrives (hLater v hNamed) hRest).symm
    · exact ih hScoped hMem
  | @body a var body rest q w is js i t₁ t₂ σ σ₁ τ hValues hEach hBody ih =>
    obtain ⟨hInner, hVar, _, _, hScoped, _⟩ := hScoped
    rcases mem_cons.mp hMem with rfl | hMem
    · have hStart : (Mark.inside a var).Holds (σ₁.count var i) := by
        refine ⟨is ++ i :: js, i, by simp, ?_, Store.env_assign_self ..⟩
        rw [← hValues]
        apply Act.values?_congr
        intro v hOperand
        have hOther : v ≠ var := fun hEq => hVar (hEq ▸ hOperand)
        rw [← env_of_each hOther (hInner v (.inl hOperand)) hEach]
        exact Store.env_assign_of_ne _ _ hOther
      exact hStart.congr fun v hNamed => (env_of_arrives
        (hInner v (hNamed.imp_right mem_singleton.mp)) hBody).symm
    · exact ih hScoped hMem
  | loop _ _ _ ih => exact ih hScoped.2.2.2.2.2 hMem
  | @branch a taken branch rest q w t σ τ hHolds hBranch ih =>
    rcases mem_cons.mp hMem with rfl | hMem
    · have hStart : (Mark.branch a taken).Holds σ := hHolds
      exact hStart.congr fun v hNamed => (env_of_arrives
        (hScoped.1 v (hNamed.resolve_right not_mem_nil) taken) hBranch).symm
    · exact ih (hScoped.2.2.2.2.1 taken) hMem
  | cond _ _ _ ih => exact ih hScoped.2.2.2.2.2 hMem

end Prog

end AffineIR
