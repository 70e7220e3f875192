import AffineIR.Proofs.Run.Standing

/-
  The iterations in which a statement is executed.

  A way to a statement goes into loops and into branches.  Seen
  from the store at its start, the variables of the loops go
  through vectors of values; a branch that is not taken leaves
  none.  In a run the statement is executed once for each of
  these vectors, in their order, with the variables holding the
  vector.

  Main declarations:
    * `Prog.Tours`, `Prog.tours_of_run`
-/

namespace AffineIR

open List Store

variable {h : OpId} {var : ValueId} {is : List Int} {body : Prog} {a : Act}

------
-- Visits
------

/- The stores in which an operation is executed in a trace. -/
def Trace.visits (t : Trace) (h : OpId) : List Store := (t.filter fun e => e.1.op = h).map Prod.snd

namespace Trace

variable {t t' : Trace} {e : Act × Store}

@[simp] theorem visits_append : Trace.visits (t ++ t') h = t.visits h ++ t'.visits h := by
  simp [visits]

theorem visits_cons_self (hSame : e.1.op = h) : Trace.visits (e :: t) h = e.2 :: t.visits h := by
  simp [visits, hSame]

theorem visits_cons_of_ne (hOther : e.1.op ≠ h) : Trace.visits (e :: t) h = t.visits h := by
  simp [visits, hOther]

/- One of two parts of a trace does not come to an operation. -/
theorem visits_first (hOther : e.1.op ≠ h)
    (hRest : t'.visits h = []) : Trace.visits (e :: (t ++ t')) h = t.visits h := by
  rw [visits_cons_of_ne hOther, visits_append, hRest, append_nil]

theorem visits_second (hOther : e.1.op ≠ h)
    (hFirst : t.visits h = []) : Trace.visits (e :: (t ++ t')) h = t'.visits h := by
  rw [visits_cons_of_ne hOther, visits_append, hFirst, nil_append]

theorem visits_eq_nil (hNone : ∀ e ∈ t, e.1.op ≠ h) : t.visits h = [] := by
  unfold visits
  rw [map_eq_nil_iff, filter_eq_nil_iff]
  simpa using hNone

theorem length_visits : (t.visits h).length = t.times h := by
  unfold visits times
  rw [length_map, countP_eq_length_filter]

theorem mem_visits_iff {ρ : Store} : ρ ∈ t.visits h ↔ ∃ a, (a, ρ) ∈ t ∧ a.op = h := by
  simp [visits]

end Trace

namespace Prog

variable {p q : Prog} {w : List Mark} {t : Trace} {σ τ σ' : Store} {b : Act} {e : Act × Store}
  {v : ValueId}

/- What is not in a program is not executed by it. -/
theorem visits_run_eq_nil (hRun : p.run σ = some (t, σ')) (hOut : h ∉ p.ids) : t.visits h = [] := by
  apply Trace.visits_eq_nil
  rintro e hMem rfl
  exact hOut (mem_ids_of_run hRun hMem)

theorem visits_each_eq_nil (hEach : each body.run var is σ = some (t, σ'))
    (hOut : h ∉ body.ids) : t.visits h = [] := by
  apply Trace.visits_eq_nil
  rintro e hMem rfl
  exact hOut (mem_ids_of_each hEach hMem)

------
-- Vectors
------

/- Vectors that begin with the given values, and what follows each. -/
def prolong (is : List Int) (rest : Int → Option (List (List Int))) : Option (List (List Int)) :=
  (is.mapM fun i => (rest i).map (List.map (i :: ·))).map List.flatten

/- The values that the loops of a way go through, seen from a store. -/
def vectors? : List Mark → Store → Option (List (List Int))
  | [], _ => some [[]]
  | .past _ :: w, σ => vectors? w σ
  | .inside a var :: w, σ =>
    (a.values? σ).bind fun is => prolong is fun i => vectors? w (σ.count var i)
  | .branch a taken :: w, σ =>
    (a.holds? σ).bind fun here => if here = taken then vectors? w σ else some []

/- The variables of the loops of a way, outermost first. -/
def varsOf (w : List Mark) : List ValueId := (loopsOf w).map Prod.snd

/- What the variables of loops hold when they hold a vector. -/
def indexed (is : List Int) : List (Option Datum) := is.map fun i => some (.scalar (.index i))

/- A value that the loops and branches of a way depend on. -/
def Asks : List Mark → ValueId → Prop
  | [], _ => False
  | .past _ :: w, v => Asks w v
  | .inside a var :: w, v => v ∈ a.operands ∨ v ≠ var ∧ Asks w v
  | .branch a _ :: w, v => v ∈ a.operands ∨ Asks w v

/- No loop of a program binds its own variable in its body. -/
def Fresh : Prog → Prop
  | nil => True
  | act _ rest => rest.Fresh
  | loop _ var body rest => ¬body.Binds var ∧ body.Fresh ∧ rest.Fresh
  | cond _ branch rest => (∀ taken, (branch taken).Fresh) ∧ rest.Fresh

/- Something holds wherever a way comes to one of its loops. -/
def Everywhere (P : Act → Store → Prop) : List Mark → Store → Prop
  | [], _ => True
  | .past _ :: w, σ => Everywhere P w σ
  | .inside a var :: w, σ =>
    P a σ ∧ ∀ is, a.values? σ = some is → ∀ i ∈ is, Everywhere P w (σ.count var i)
  | .branch a taken :: w, σ => a.holds? σ = some taken → Everywhere P w σ

theorem prolong_cons (i : Int) (is : List Int) (rest : Int → Option (List (List Int))) :
    prolong (i :: is) rest = (rest i).bind fun first =>
        (prolong is rest).map fun others =>
          first.map (i :: ·) ++ others := by
  unfold prolong
  rw [mapM_cons]
  cases rest i with
  | none => rfl
  | some first =>
    cases is.mapM fun i => (rest i).map (List.map (i :: ·)) with
    | none => rfl
    | some others => rfl

theorem prolong_congr {rest rest' : Int → Option (List (List Int))}
    (hSame : ∀ i ∈ is, rest i = rest' i) : prolong is rest = prolong is rest' := by
  induction is with
  | nil => rfl
  | cons i is ih =>
    obtain ⟨hHead, hTail⟩ := forall_mem_cons.mp hSame
    rw [prolong_cons, prolong_cons, hHead, ih hTail]

theorem env_count_congr {i : Int}
    (hSame : v ≠ var → σ.env v = τ.env v) : (σ.count var i).env v = (τ.count var i).env v := by
  unfold Store.count
  by_cases hVar : v = var
  · rw [hVar, env_assign_self, env_assign_self]
  · rw [env_assign_of_ne _ _ hVar, env_assign_of_ne _ _ hVar]
    exact hSame hVar

/- The vectors of a way depend on what its loops and branches ask for. -/
theorem vectors?_congr
    (hSame : ∀ v, Asks w v → σ.env v = τ.env v) : vectors? w σ = vectors? w τ := by
  induction w generalizing σ τ with
  | nil => rfl
  | cons k w ih =>
    cases k with
    | past a => exact ih hSame
    | inside a var =>
      have hValues : a.values? σ = a.values? τ :=
        Act.values?_congr fun v hMem => hSame v (.inl hMem)
      simp only [vectors?, hValues]
      congr 1
      funext is
      apply prolong_congr
      intro i _
      apply ih
      intro v hAsks
      exact env_count_congr fun hOther => hSame v (.inr ⟨hOther, hAsks⟩)
    | branch a taken =>
      have hHolds : a.holds? σ = a.holds? τ := Act.holds?_congr fun v hMem => hSame v (.inl hMem)
      have hRest : vectors? w σ = vectors? w τ := ih fun v hAsks => hSame v (.inr hAsks)
      simp only [vectors?, hHolds, hRest]

/- The same for what holds where a way comes to its loops. -/
theorem Everywhere.congr {P : Act → Store → Prop} (hEverywhere : Everywhere P w σ)
    (hCongr : ∀ {a σ τ}, P a σ → (∀ v ∈ a.operands, σ.env v = τ.env v) → P a τ)
    (hSame : ∀ v, Asks w v → σ.env v = τ.env v) : Everywhere P w τ := by
  induction w generalizing σ τ with
  | nil => trivial
  | cons k w ih =>
    cases k with
    | past a => exact ih hEverywhere hSame
    | inside a var =>
      have hOperands : ∀ v ∈ a.operands, σ.env v = τ.env v := fun v hMem => hSame v (.inl hMem)
      refine ⟨hCongr hEverywhere.1 hOperands, ?_⟩
      intro is hValues i hMem
      rw [← Act.values?_congr hOperands] at hValues
      refine ih (hEverywhere.2 is hValues i hMem) ?_
      intro v hAsks
      exact env_count_congr fun hOther => hSame v (.inr ⟨hOther, hAsks⟩)
    | branch a taken =>
      intro hHolds
      rw [← Act.holds?_congr fun v hMem => hSame v (.inl hMem)]
        at hHolds
      exact ih (hEverywhere hHolds) fun v hAsks => hSame v (.inr hAsks)

------
-- Runs
------

/- An operation is executed with the operands that it has in a store. -/
def Meets (t : Trace) (a : Act) (σ : Store) : Prop :=
  ∃ ρ, (a, ρ) ∈ t ∧ ∀ v ∈ a.operands, ρ.env v = σ.env v

theorem Meets.congr (hMeets : Meets t a σ)
    (hSame : ∀ v ∈ a.operands, σ.env v = τ.env v) : Meets t a τ := by
  obtain ⟨ρ, hMem, hOperands⟩ := hMeets
  exact ⟨ρ, hMem, fun v hIn => (hOperands v hIn).trans (hSame v hIn)⟩

theorem Everywhere.mono {P Q : Act → Store → Prop} (hEverywhere : Everywhere P w σ)
    (hImp : ∀ {a σ}, P a σ → Q a σ) : Everywhere Q w σ := by
  induction w generalizing σ with
  | nil => trivial
  | cons k w ih =>
    cases k with
    | past a => exact ih hEverywhere
    | inside a var =>
      exact ⟨hImp hEverywhere.1, fun is hValues i hMem => ih (hEverywhere.2 is hValues i hMem)⟩
    | branch a taken => exact fun hHolds => ih (hEverywhere hHolds)

/-
  A trace executes an operation once for each vector of a way,
  and comes to the loops of the way as often.
-/
structure Tours (w : List Mark) (σ : Store) (t : Trace) (h : OpId) : Prop where
  visits : ∃ vs, vectors? w σ = some vs ∧
    (t.visits h).map (fun ρ => (varsOf w).map ρ.env) = vs.map indexed
  loops : Everywhere (Meets t) w σ

/- A way that goes on in a store with the same to ask for. -/
theorem Tours.congr (hTours : Tours w σ t h)
    (hSame : ∀ v, Asks w v → σ.env v = τ.env v) : Tours w τ t h where
  visits := by
    obtain ⟨vs, hVectors, hVisits⟩ := hTours.visits
    exact ⟨vs, (vectors?_congr hSame).symm.trans hVectors, hVisits⟩
  loops := hTours.loops.congr Meets.congr hSame

/- A longer trace with the same visits. -/
theorem Tours.extend {t' : Trace} (hTours : Tours w σ t h) (hVisits : t'.visits h = t.visits h)
    (hSub : t ⊆ t') : Tours w σ t' h where
  visits := by
    rw [hVisits]
    exact hTours.visits
  loops := hTours.loops.mono fun ⟨ρ, hMem, hOperands⟩ => ⟨ρ, hSub hMem, hOperands⟩

theorem Tours.behind {e : Act × Store} {t' : Trace} (hTours : Tours w σ t' h) (hOther : e.1.op ≠ h)
    (hFirst : t.visits h = []) : Tours w σ (e :: (t ++ t')) h :=
  hTours.extend (Trace.visits_second hOther hFirst)
    (List.Subset.trans (subset_append_right t t') (subset_cons_self _ _))

/- The iterations of a loop go through the vectors of its body. -/
theorem tours_each {σ₁ : Store} (hBody : ∀ {σ t σ'}, body.run σ = some (t, σ') → Tours w σ t h)
    (hVar : ¬body.Binds var) (hFree : ∀ v, v ≠ var → Asks w v → ¬body.Binds v)
    (hSame : ∀ v, v ≠ var → ¬body.Binds v → σ₁.env v = σ.env v)
    (hEach : each body.run var is σ₁ = some (t, σ')) :
    (∃ vs, prolong is (fun i => vectors? w (σ.count var i)) = some vs ∧
      (t.visits h).map (fun ρ => (varsOf (.inside a var :: w)).map ρ.env) = vs.map indexed) ∧
      ∀ i ∈ is, Everywhere (Meets t) w (σ.count var i) := by
  induction is generalizing σ₁ t with
  | nil =>
    cases hEach
    exact ⟨⟨[], rfl, rfl⟩, nofun⟩
  | cons i is ih =>
    obtain ⟨t₁, σ₂, t₂, hFirst, hRest, rfl⟩ := each_cons_iff.mp hEach
    have hStart : ∀ v, Asks w v → (σ₁.count var i).env v = (σ.count var i).env v := by
      intro v hAsks
      exact env_count_congr fun hOther => hSame v hOther (hFree v hOther hAsks)
    have hTours := (hBody hFirst).congr hStart
    have hLater : ∀ v, v ≠ var → ¬body.Binds v → σ₂.env v = σ.env v := by
      intro v hOther hUnbound
      rw [env_of_run hUnbound hFirst, ← hSame v hOther hUnbound]
      exact env_assign_of_ne _ _ hOther
    obtain ⟨⟨vs₂, hVectors₂, hVisits₂⟩, hLoops⟩ := ih hLater hRest
    obtain ⟨vs₁, hVectors₁, hVisits₁⟩ := hTours.visits
    -- the variable stays what it was when the body began
    have hHere : ∀ ρ ∈ t₁.visits h, ρ.env var = some (.scalar (.index i)) := by
      intro ρ hMem
      obtain ⟨a, hIn, _⟩ := Trace.mem_visits_iff.mp hMem
      rw [((along_env hVar).run hFirst).2 _ hIn]
      exact env_assign_self ..
    refine ⟨⟨vs₁.map (i :: ·) ++ vs₂, ?_, ?_⟩, ?_⟩
    · rw [prolong_cons, hVectors₁, hVectors₂]
      rfl
    · rw [Trace.visits_append, map_append, map_append, hVisits₂, map_map]
      congr 1
      calc (t₁.visits h).map (fun ρ => (varsOf (.inside a var :: w)).map ρ.env) = (t₁.visits h).map
              (fun ρ => some (.scalar (.index i)) :: (varsOf w).map ρ.env) := by
            apply map_congr_left
            intro ρ hMem
            rw [← hHere ρ hMem]
            rfl
        _ = ((t₁.visits h).map fun ρ => (varsOf w).map ρ.env).map
              (some (.scalar (.index i)) :: ·) := by
            rw [map_map]
            rfl
        _ = vs₁.map (indexed ∘ (i :: ·)) := by
            rw [hVisits₁, map_map]
            rfl
    · intro j hMem
      rcases mem_cons.mp hMem with rfl | hMem
      · exact hTours.loops.mono fun ⟨ρ, hIn, hOperands⟩ => ⟨ρ, mem_append_left _ hIn, hOperands⟩
      · exact (hLoops j hMem).mono fun ⟨ρ, hIn, hOperands⟩ => ⟨ρ, mem_append_right _ hIn, hOperands⟩

/- A program comes to the statement in front of it once. -/
theorem visits_of_head (hHead : p.head? = some b) (hNodup : p.ids.Nodup)
    (hRun : p.run σ = some (t, σ')) : t.visits b.op = [σ] := by
  cases p with
  | nil => cases hHead
  | act a rest =>
    cases hHead
    obtain ⟨σ₁, t₁, _, hRest, rfl⟩ := run_act_iff.mp hRun
    rw [Trace.visits_cons_self rfl, visits_run_eq_nil hRest (nodup_cons.mp hNodup).1]
  | loop a var body rest =>
    cases hHead
    have hIds := loopIds hNodup
    obtain ⟨is, t₁, σ₁, t₂, _, hEach, hRest, rfl⟩ := run_loop_iff.mp hRun
    rw [Trace.visits_cons_self rfl, Trace.visits_append,
      visits_each_eq_nil hEach hIds.head_body, visits_run_eq_nil hRest hIds.head_rest]
    rfl
  | cond a branch rest =>
    cases hHead
    obtain ⟨taken, t₁, σ₁, t₂, _, hBranch, hRest, rfl⟩ := run_cond_iff.mp hRun
    have hIds := branchIds taken hNodup
    rw [Trace.visits_cons_self rfl, Trace.visits_append,
      visits_run_eq_nil hBranch hIds.head_body, visits_run_eq_nil hRest hIds.head_rest]
    rfl

/-
  In a run a statement is executed once for each vector of the
  way to it, and the run comes to all loops of the way.
-/
theorem tours_of_run (hLeads : p.Leads w q) (hHead : q.head? = some b) (hNodup : p.ids.Nodup)
    (hFresh : p.Fresh) (hFree : ∀ v, Asks w v → ¬p.Binds v)
    (hRun : p.run σ = some (t, σ')) : Tours w σ t b.op := by
  induction hLeads generalizing σ t σ' with
  | here p => exact ⟨⟨[[]], rfl, by rw [visits_of_head hHead hNodup hRun]; rfl⟩, trivial⟩
  | @act a rest q w hLeads ih =>
    obtain ⟨σ₁, t₁, hStep, hRest, rfl⟩ := run_act_iff.mp hRun
    obtain ⟨hOut, hIds⟩ := nodup_cons.mp hNodup
    have hTours := ih hHead hIds hFresh (fun v hAsks hBinds => hFree v hAsks (.inr hBinds)) hRest
    have hOther : a.op ≠ b.op := by
      intro hSame
      exact hOut (hSame ▸ hLeads.mem_ids hHead)
    have hStart : Tours w σ t₁ b.op := by
      refine hTours.congr fun v hAsks => Act.env_of_step hStep ?_
      exact fun hBound => hFree v hAsks (.inl hBound)
    have hLonger := hStart.extend (Trace.visits_cons_of_ne hOther) (subset_cons_self (a, σ) t₁)
    exact ⟨hLonger.visits, hLonger.loops⟩
  | @body a var body rest q w hLeads ih =>
    obtain ⟨is, t₁, σ₁, t₂, hValues, hEach, hRest, rfl⟩ := run_loop_iff.mp hRun
    have hIds := loopIds hNodup
    have hInner := hLeads.mem_ids hHead
    obtain ⟨hVar, hFreshBody, _⟩ := hFresh
    have hAsked : ∀ v, v ≠ var → Asks w v → ¬body.Binds v := fun v hOther hAsks hBinds =>
        hFree v (.inr ⟨hOther, hAsks⟩) (.inr (.inl hBinds))
    have hBody {σ : Store} {t : Trace} {σ' : Store}
        (hRun : body.run σ = some (t, σ')) : Tours w σ t b.op := by
      refine ih hHead hIds.nodup_body hFreshBody ?_ hRun
      intro v hAsks
      by_cases hSame : v = var
      · exact hSame ▸ hVar
      · exact hAsked v hSame hAsks
    rcases tours_each (a := a) hBody hVar hAsked (fun _ _ _ => rfl) hEach with
      ⟨⟨vs, hVectors, hVisits⟩, hLoops⟩
    have hTrace : Trace.visits ((a, σ) :: (t₁ ++ t₂)) b.op = t₁.visits b.op :=
      Trace.visits_first (fun hSame => hIds.head_body (hSame ▸ hInner))
        (visits_run_eq_nil hRest (hIds.apart hInner))
    refine ⟨⟨vs, ?_, ?_⟩, ⟨σ, mem_cons_self, fun _ _ => rfl⟩, ?_⟩
    · simp only [vectors?, hValues, Option.bind_some]
      exact hVectors
    · rwa [hTrace]
    · intro is' hValues' i hMem
      cases hValues.symm.trans hValues'
      exact (hLoops i hMem).mono fun ⟨ρ, hIn, hOperands⟩ =>
        ⟨ρ, mem_cons_of_mem _ (mem_append_left _ hIn), hOperands⟩
  | @loop a var body rest q w hLeads ih =>
    obtain ⟨is, t₁, σ₁, t₂, hValues, hEach, hRest, rfl⟩ := run_loop_iff.mp hRun
    have hIds := loopIds hNodup
    have hOuter := hLeads.mem_ids hHead
    have hTours := ih hHead hIds.nodup_rest hFresh.2.2
      (fun v hAsks hBinds => hFree v hAsks (.inr (.inr hBinds))) hRest
    have hStart : Tours w σ t₂ b.op := by
      refine hTours.congr fun v hAsks => ?_
      have hUnbound := hFree v hAsks
      exact env_of_each (fun hSame => hUnbound (.inl hSame))
        (fun hBinds => hUnbound (.inr (.inl hBinds))) hEach
    exact hStart.behind (fun hSame => hIds.head_rest (hSame ▸ hOuter))
      (visits_each_eq_nil hEach fun hIn => hIds.apart hIn hOuter)
  | @branch a taken branch rest q w hLeads ih =>
    obtain ⟨here, t₁, σ₁, t₂, hHolds, hBranch, hRest, rfl⟩ := run_cond_iff.mp hRun
    have hIds := branchIds taken hNodup
    have hInner := hLeads.mem_ids hHead
    have hTrace : Trace.visits ((a, σ) :: (t₁ ++ t₂)) b.op = t₁.visits b.op :=
      Trace.visits_first (fun hSame => hIds.head_body (hSame ▸ hInner))
        (visits_run_eq_nil hRest (hIds.apart hInner))
    by_cases hTaken : here = taken
    · subst hTaken
      have hTours := ih hHead hIds.nodup_body (hFresh.1 here)
        (fun v hAsks hBinds => hFree v (.inr hAsks) (.inl ⟨here, hBinds⟩)) hBranch
      have hLonger := hTours.extend hTrace (List.Subset.trans (subset_append_left t₁ t₂)
          (subset_cons_self _ _))
      refine ⟨?_, fun _ => hLonger.loops⟩
      obtain ⟨vs, hVectors, hVisits⟩ := hLonger.visits
      refine ⟨vs, ?_, hVisits⟩
      simp only [vectors?, hHolds, Option.bind_some, if_true]
      exact hVectors
    · have hElse : b.op ∉ (branch here).ids := fun hIn =>
        hTaken (eq_of_mem_branches hNodup hIn hInner)
      refine ⟨⟨[], ?_, ?_⟩, ?_⟩
      · simp only [vectors?, hHolds, Option.bind_some, if_neg hTaken]
      · rw [hTrace, visits_run_eq_nil hBranch hElse]
        rfl
      · intro hHolds'
        cases hHolds.symm.trans hHolds'
        exact absurd rfl hTaken
  | cond hLeads ih =>
    obtain ⟨here, t₁, σ₁, t₂, hHolds, hBranch, hRest, rfl⟩ := run_cond_iff.mp hRun
    have hIds := branchIds here hNodup
    have hOuter := hLeads.mem_ids hHead
    have hTours := ih hHead hIds.nodup_rest hFresh.2
      (fun v hAsks hBinds => hFree v hAsks (.inr hBinds)) hRest
    have hStart := hTours.congr fun v hAsks =>
      env_of_run (fun hBinds => hFree v hAsks (.inl ⟨here, hBinds⟩)) hBranch
    exact hStart.behind (fun hSame => hIds.head_rest (hSame ▸ hOuter))
      (visits_run_eq_nil hBranch fun hIn => hIds.apart hIn hOuter)

end Prog

end AffineIR
