import AffineIR.Proofs.Run.Locality

/-
  Programs without branches, and what they do to a store.

  A program is a sequence of actions, loops and conditionals,
  with all that their execution depends on.  Running one from
  a store gives the store at the end and the trace: every
  action that is executed, with the store at that time.

  Main result: `Prog.env_of_run`
-/

namespace AffineIR

open Option

variable {a : Act} {v var : ValueId} {is : List Int}

------
-- Programs
------

inductive Prog where
  | nil
  | act (a : Act) (rest : Prog)
  | loop (a : Act) (var : ValueId) (body rest : Prog)
  | cond (a : Act) (branch : Bool → Prog) (rest : Prog)

/- What was executed, with the stores before. -/
abbrev Trace := List (Act × Store)

/- Bind the variable of a loop. -/
def Store.count (σ : Store) (var : ValueId) (i : Int) : Store := σ.assign var (.scalar (.index i))

namespace Prog

/- Run something after something else. -/
def andThen (r : Option (Trace × Store))
    (k : Store → Option (Trace × Store)) : Option (Trace × Store) :=
  r.bind fun (t, σ) => (k σ).map fun (t', σ') => (t ++ t', σ')

/- Run a body for each value of a variable. -/
def each (body : Store → Option (Trace × Store))
    (var : ValueId) : List Int → Store → Option (Trace × Store)
  | [], σ => some ([], σ)
  | i :: is, σ => andThen (body (σ.count var i)) (each body var is)

/- The store at the end and the trace, if nothing fails. -/
def run : Prog → Store → Option (Trace × Store)
  | nil, σ => some ([], σ)
  | act a rest, σ => (a.step σ).bind fun σ' => andThen (some ([(a, σ)], σ')) rest.run
  | loop a var body rest, σ =>
    (a.values? σ).bind fun is =>
      andThen (some ([(a, σ)], σ)) fun σ => andThen (each body.run var is σ) rest.run
  | cond a branch rest, σ =>
    (a.holds? σ).bind fun taken =>
      andThen (some ([(a, σ)], σ)) fun σ => andThen ((branch taken).run σ) rest.run

/- One program after the other. -/
def append : Prog → Prog → Prog
  | nil, q => q
  | act a rest, q => act a (rest.append q)
  | loop a var body rest, q => loop a var body (rest.append q)
  | cond a branch rest, q => cond a branch (rest.append q)

instance : Append Prog := ⟨append⟩

@[simp] theorem act_append (a : Act) (p q : Prog) : act a p ++ q = act a (p ++ q) :=
  rfl

@[simp] theorem loop_append (a : Act) (var : ValueId) (body p q : Prog) :
    loop a var body p ++ q = loop a var body (p ++ q) :=
  rfl

@[simp] theorem cond_append (a : Act) (branch : Bool → Prog) (p q : Prog) :
    cond a branch p ++ q = cond a branch (p ++ q) :=
  rfl

theorem append_assoc (p q r : Prog) : p ++ q ++ r = p ++ (q ++ r) := by
  induction p with
  | nil => rfl
  | act a rest ih => rw [act_append, act_append, act_append, ih]
  | loop a var body rest _ ih => rw [loop_append, loop_append, loop_append, ih]
  | cond a branch rest _ ih => rw [cond_append, cond_append, cond_append, ih]

variable {σ τ σ' : Store} {t : Trace}

theorem andThen_eq_some_iff {r : Option (Trace × Store)} {k : Store → Option (Trace × Store)} :
    andThen r k = some (t, σ') ↔ ∃ t₁ σ₁ t₂, r = some (t₁, σ₁) ∧ k σ₁ = some (t₂, σ') ∧
        t = t₁ ++ t₂ := by
  unfold andThen
  constructor
  · intro hSome
    obtain ⟨⟨t₁, σ₁⟩, hFirst, hMap⟩ := bind_eq_some_iff.mp hSome
    obtain ⟨⟨t₂, σ₂⟩, hSecond, hEq⟩ := map_eq_some_iff.mp hMap
    cases hEq
    exact ⟨t₁, σ₁, t₂, hFirst, hSecond, rfl⟩
  · rintro ⟨t₁, σ₁, t₂, hFirst, hSecond, rfl⟩
    simp only [hFirst, bind_some, hSecond, map_some]

theorem run_act_iff {rest : Prog} :
    (act a rest).run σ = some (t, σ') ↔ ∃ σ₁ t₁, a.step σ = some σ₁ ∧ rest.run σ₁ = some (t₁, σ') ∧
        t = (a, σ) :: t₁ := by
  simp only [run, bind_eq_some_iff, andThen_eq_some_iff]
  constructor
  · rintro ⟨σ₁, hStep, _, _, t₁, hEq, hRest, rfl⟩
    cases hEq
    exact ⟨σ₁, t₁, hStep, hRest, rfl⟩
  · rintro ⟨σ₁, t₁, hStep, hRest, rfl⟩
    exact ⟨σ₁, hStep, _, _, t₁, rfl, hRest, rfl⟩

theorem run_loop_iff {body rest : Prog} :
    (loop a var body rest).run σ = some (t, σ') ↔ ∃ is t₁ σ₁ t₂, a.values? σ = some is ∧
        each body.run var is σ = some (t₁, σ₁) ∧
        rest.run σ₁ = some (t₂, σ') ∧ t = (a, σ) :: (t₁ ++ t₂) := by
  simp only [run, bind_eq_some_iff, andThen_eq_some_iff]
  constructor
  · rintro ⟨is, hValues, _, _, _, hEq, ⟨t₁, σ₁, t₂, hEach, hRest, rfl⟩, rfl⟩
    cases hEq
    exact ⟨is, t₁, σ₁, t₂, hValues, hEach, hRest, rfl⟩
  · rintro ⟨is, t₁, σ₁, t₂, hValues, hEach, hRest, rfl⟩
    exact ⟨is, hValues, _, _, _, rfl, ⟨t₁, σ₁, t₂, hEach, hRest, rfl⟩, rfl⟩

theorem run_cond_iff {branch : Bool → Prog} {rest : Prog} :
    (cond a branch rest).run σ = some (t, σ') ↔ ∃ taken t₁ σ₁ t₂, a.holds? σ = some taken ∧
        (branch taken).run σ = some (t₁, σ₁) ∧
        rest.run σ₁ = some (t₂, σ') ∧ t = (a, σ) :: (t₁ ++ t₂) := by
  simp only [run, bind_eq_some_iff, andThen_eq_some_iff]
  constructor
  · rintro ⟨taken, hHolds, _, _, _, hEq, ⟨t₁, σ₁, t₂, hBranch, hRest, rfl⟩, rfl⟩
    cases hEq
    exact ⟨taken, t₁, σ₁, t₂, hHolds, hBranch, hRest, rfl⟩
  · rintro ⟨taken, t₁, σ₁, t₂, hHolds, hBranch, hRest, rfl⟩
    exact ⟨taken, hHolds, _, _, _, rfl, ⟨t₁, σ₁, t₂, hBranch, hRest, rfl⟩, rfl⟩

theorem each_cons_iff {body : Store → Option (Trace × Store)} {i : Int} :
    each body var (i :: is) σ = some (t, σ') ↔ ∃ t₁ σ₁ t₂, body (σ.count var i) = some (t₁, σ₁) ∧
        each body var is σ₁ = some (t₂, σ') ∧ t = t₁ ++ t₂ := by
  simp only [each, andThen_eq_some_iff]

/- A value is bound somewhere in a program. -/
def Binds : Prog → ValueId → Prop
  | nil, _ => False
  | act a rest, v => v ∈ a.bound ∨ rest.Binds v
  | loop _ var body rest, v => v = var ∨ body.Binds v ∨ rest.Binds v
  | cond _ branch rest, v => (∃ taken, (branch taken).Binds v) ∨ rest.Binds v

/- A value may be looked up that the program has not bound yet. -/
def Needs : Prog → ValueId → Prop
  | nil, _ => False
  | act a rest, v => v ∈ a.operands ∨ (v ∉ a.bound ∧ rest.Needs v)
  | loop a var body rest, v => v ∈ a.operands ∨ (v ≠ var ∧ body.Needs v) ∨ rest.Needs v
  | cond a branch rest, v => v ∈ a.operands ∨ (∃ taken, (branch taken).Needs v) ∨ rest.Needs v

/- An action stands somewhere in a program. -/
def Does : Prog → Act → Prop
  | nil, _ => False
  | act a rest, b => b = a ∨ rest.Does b
  | loop _ _ body rest, b => body.Does b ∨ rest.Does b
  | cond _ branch rest, b => (∃ taken, (branch taken).Does b) ∨ rest.Does b

/- A value is the variable of a loop somewhere in a program. -/
def Counts : Prog → ValueId → Prop
  | nil, _ => False
  | act _ rest, v => rest.Counts v
  | loop _ var body rest, v => v = var ∨ body.Counts v ∨ rest.Counts v
  | cond _ branch rest, v => (∃ taken, (branch taken).Counts v) ∨ rest.Counts v

/- Values are bound by actions and by loops. -/
theorem binds_iff {p : Prog} :
    p.Binds v ↔ (∃ a, p.Does a ∧ v ∈ a.bound) ∨ p.Counts v := by
  induction p with
  | nil => simp [Binds, Does, Counts]
  | act a rest ih =>
    simp only [Binds, Does, Counts, ih]
    grind
  | loop a var body rest ihBody ih =>
    simp only [Binds, Does, Counts, ihBody, ih]
    grind
  | cond a branch rest ihBranch ih =>
    simp only [Binds, Does, Counts, ihBranch, ih]
    grind

------
-- What holds along a run
------

/-
  Relations between the ends of a run and its trace.  They
  hold of every run if they hold of single actions and of
  binding the variable of a loop, and can be composed.
-/
structure Along (p : Prog) (P : Store → Trace → Store → Prop) : Prop where
  refl (σ : Store) : P σ [] σ
  trans {σ₁ σ₂ σ₃ : Store} {t₁ t₂ : Trace}
    (hFirst : P σ₁ t₁ σ₂) (hSecond : P σ₂ t₂ σ₃) : P σ₁ (t₁ ++ t₂) σ₃
  head (a : Act) (σ : Store) : P σ [(a, σ)] σ
  step {a : Act} {σ σ' : Store} (hDoes : p.Does a) (hStep : a.step σ = some σ') : P σ [(a, σ)] σ'
  count {var : ValueId} (hVar : p.Counts var) (σ : Store) (i : Int) : P σ [] (σ.count var i)

/- Part of a program does less. -/
theorem Along.mono {p q : Prog} {P : Store → Trace → Store → Prop} (hAlong : p.Along P)
    (hDoes : ∀ a, q.Does a → p.Does a) (hCounts : ∀ v, q.Counts v → p.Counts v) : q.Along P where
  refl := hAlong.refl
  trans := hAlong.trans
  head := hAlong.head
  step hPart := hAlong.step (hDoes _ hPart)
  count hVar := hAlong.count (hCounts _ hVar)

namespace Along

variable {p body rest : Prog} {branch : Bool → Prog} {P : Store → Trace → Store → Prop}

theorem of_act (hAlong : (act a rest).Along P) : rest.Along P :=
  hAlong.mono (fun _ => .inr) fun _ => id

theorem of_body (hAlong : (loop a var body rest).Along P) : body.Along P :=
  hAlong.mono (fun _ => .inl) fun _ hVar => .inr (.inl hVar)

theorem of_loop (hAlong : (loop a var body rest).Along P) : rest.Along P :=
  hAlong.mono (fun _ => .inr) fun _ hVar => .inr (.inr hVar)

theorem of_branch (hAlong : (cond a branch rest).Along P) (taken : Bool) : (branch taken).Along P :=
  hAlong.mono (fun _ hDoes => .inl ⟨taken, hDoes⟩) fun _ hVar => .inl ⟨taken, hVar⟩

theorem of_cond (hAlong : (cond a branch rest).Along P) : rest.Along P :=
  hAlong.mono (fun _ => .inr) fun _ => .inr

end Along

theorem Along.each {p body : Prog} {P : Store → Trace → Store → Prop} (hAlong : p.Along P)
    (hVar : p.Counts var) (hBody : ∀ {σ t σ'}, body.run σ = some (t, σ') → P σ t σ')
    (hEach : Prog.each body.run var is σ = some (t, σ')) : P σ t σ' := by
  induction is generalizing σ t with
  | nil =>
    cases hEach
    exact hAlong.refl _
  | cons i is ih =>
    obtain ⟨t₁, σ₁, t₂, hFirst, hRest, rfl⟩ := each_cons_iff.mp hEach
    exact hAlong.trans (hAlong.trans (hAlong.count hVar σ i) (hBody hFirst)) (ih hRest)

theorem Along.run {p : Prog} {P : Store → Trace → Store → Prop} (hAlong : p.Along P)
    (hRun : p.run σ = some (t, σ')) : P σ t σ' := by
  induction p generalizing σ t σ' with
  | nil =>
    cases hRun
    exact hAlong.refl _
  | act a rest ih =>
    obtain ⟨σ₁, t₁, hStep, hRest, rfl⟩ := run_act_iff.mp hRun
    exact hAlong.trans (hAlong.step (.inl rfl) hStep) (ih hAlong.of_act hRest)
  | loop a var body rest ihBody ih =>
    obtain ⟨is, t₁, σ₁, t₂, _, hEach, hRest, rfl⟩ := run_loop_iff.mp hRun
    exact hAlong.trans (hAlong.head a σ)
      (hAlong.trans (hAlong.each (.inl rfl) (ihBody hAlong.of_body) hEach)
        (ih hAlong.of_loop hRest))
  | cond a branch rest ihBranch ih =>
    obtain ⟨taken, t₁, σ₁, t₂, _, hBranch, hRest, rfl⟩ := run_cond_iff.mp hRun
    exact hAlong.trans (hAlong.head a σ)
      (hAlong.trans (ihBranch taken (hAlong.of_branch taken) hBranch) (ih hAlong.of_cond hRest))

/- Values that a program does not bind are bound to the same all along. -/
theorem along_env {p : Prog} (hFree : ¬p.Binds v) :
    p.Along fun σ t σ' =>
      σ'.env v = σ.env v ∧ ∀ e ∈ t, e.2.env v = σ.env v where
  refl σ := ⟨rfl, nofun⟩
  trans hFirst hSecond := by
    refine ⟨hSecond.1.trans hFirst.1, ?_⟩
    intro e hMem
    rcases List.mem_append.mp hMem with hMem | hMem
    · exact hFirst.2 e hMem
    · exact (hSecond.2 e hMem).trans hFirst.1
  head a σ := by simp
  step hDoes hStep := by
    have hEnv := Act.env_of_step hStep fun hMem => hFree (binds_iff.mpr (.inl ⟨_, hDoes, hMem⟩))
    simp [hEnv]
  count {var} hVar σ i := by
    have hNe : v ≠ var := fun hEq => hFree (binds_iff.mpr (.inr (hEq ▸ hVar)))
    exact ⟨Store.env_assign_of_ne _ _ hNe, nofun⟩

theorem env_of_run {p : Prog} (hFree : ¬p.Binds v)
    (hRun : p.run σ = some (t, σ')) : σ'.env v = σ.env v :=
  ((along_env hFree).run hRun).1

end Prog

end AffineIR
