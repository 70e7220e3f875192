import AffineIR.Proofs.Run.Program

/-
  How far programs come.

  Playing a program gives its trace up to the end, or up to
  and including the first action that fails, with the store
  that is there.  Programs that run to their end are played to
  their end, and every part of a play comes about as a run
  would have it.

  Main result: `Prog.Along.play`
-/

namespace AffineIR

variable {body p : Prog} {var : ValueId}

/- A trace, and the store where it ends or where its last action fails. -/
abbrev Play := Trace × Except Store Store

/- The store that a play leaves, in either case. -/
def Play.store (r : Play) : Store :=
  match r.2 with
  | .ok σ => σ
  | .error σ => σ

namespace Prog

/- The end of a play, or its failure in a store. -/
def orFail {α : Type} (x : Option α) (σ : Store) (k : α → Play) : Play := x.elim ([], .error σ) k

/- Play something, and something else if that did not fail. -/
def andPlay : Play → (Store → Play) → Play
  | (t, .error σ), _ => (t, .error σ)
  | (t, .ok σ), k => (t ++ (k σ).1, (k σ).2)

/- Play a body for each value of a variable. -/
def playEach (body : Store → Play) (var : ValueId) : List Int → Store → Play
  | [], σ => ([], .ok σ)
  | i :: is, σ => andPlay (body (σ.count var i)) (playEach body var is)

/- The trace of a program, up to the first action that fails. -/
def play : Prog → Store → Play
  | nil, σ => ([], .ok σ)
  | act a rest, σ =>
    andPlay (andPlay ([(a, σ)], .ok σ) fun σ =>
      orFail (a.step σ) σ fun σ' => ([], .ok σ')) rest.play
  | loop a var body rest, σ =>
    andPlay (andPlay ([(a, σ)], .ok σ) fun σ =>
      orFail (a.values? σ) σ fun is => playEach body.play var is σ)
      rest.play
  | cond a branch rest, σ =>
    andPlay (andPlay ([(a, σ)], .ok σ) fun σ =>
      orFail (a.holds? σ) σ fun taken => (branch taken).play σ) rest.play

variable {σ σ' : Store} {t : Trace}

theorem andPlay_eq_ok_iff {r : Play} {k : Store → Play} :
    andPlay r k = (t, .ok σ') ↔ ∃ t₁ σ₁ t₂, r = (t₁, .ok σ₁) ∧ k σ₁ = (t₂, .ok σ') ∧
        t = t₁ ++ t₂ := by
  constructor
  · intro hPlay
    obtain ⟨t₁, σ₁ | σ₁⟩ := r
    · simp [andPlay] at hPlay
    · simp only [andPlay, Prod.mk.injEq] at hPlay
      exact ⟨t₁, σ₁, (k σ₁).1, rfl, Prod.ext rfl hPlay.2, hPlay.1.symm⟩
  · rintro ⟨t₁, σ₁, t₂, rfl, hRest, rfl⟩
    simp only [andPlay, hRest]

/- What is played behind something that ended. -/
theorem andPlay_done (r : Play) : andPlay r (fun σ => ([], .ok σ)) = r := by
  rcases r with ⟨t, σ | σ⟩ <;> simp [andPlay]

theorem orFail_bind {α β : Type} (x : Option α) (f : α → Option β)
    (k : β → Play) : orFail (x.bind f) σ k = orFail x σ fun a => orFail (f a) σ k := by
  cases x <;> rfl

theorem orFail_map {α β : Type} (x : Option α) (f : α → β)
    (k : β → Play) : orFail (x.map f) σ k = orFail x σ fun a => k (f a) := by
  cases x <;> rfl

theorem orFail_eq_ok_iff {α : Type} {x : Option α}
    {k : α → Play} : orFail x σ k = (t, .ok σ') ↔ ∃ a, x = some a ∧ k a = (t, .ok σ') := by
  cases x <;> simp [orFail]

/- A play that ends is a run. -/
theorem playEach_eq_ok_iff {is : List Int}
    (hBody : ∀ {σ t σ'}, body.play σ = (t, .ok σ') ↔ body.run σ = some (t, σ')) :
    playEach body.play var is σ = (t, .ok σ') ↔ each body.run var is σ = some (t, σ') := by
  induction is generalizing σ t with
  | nil => simp [playEach, each]
  | cons i is ih => simp only [playEach, each, andPlay_eq_ok_iff, andThen_eq_some_iff, hBody, ih]

theorem play_eq_ok_iff : p.play σ = (t, .ok σ') ↔ p.run σ = some (t, σ') := by
  induction p generalizing σ t σ' with
  | nil => simp [play, run]
  | act a rest ih =>
    rw [run_act_iff]
    simp only [play, andPlay_eq_ok_iff, orFail_eq_ok_iff, ih]
    constructor
    · rintro ⟨_, σ₁, t₁, ⟨_, _, _, hHead, ⟨_, hStep, hEnd⟩, rfl⟩, hRest, rfl⟩
      cases hHead
      cases hEnd
      exact ⟨σ₁, t₁, hStep, hRest, rfl⟩
    · rintro ⟨σ₁, t₁, hStep, hRest, rfl⟩
      exact ⟨_, σ₁, t₁, ⟨_, _, _, rfl, ⟨σ₁, hStep, rfl⟩, rfl⟩, hRest, rfl⟩
  | loop a var body rest ihBody ih =>
    rw [run_loop_iff]
    simp only [play, andPlay_eq_ok_iff, orFail_eq_ok_iff, playEach_eq_ok_iff ihBody, ih]
    constructor
    · rintro ⟨_, σ₁, t₂, ⟨_, _, t₁, hHead, ⟨is, hValues, hEach⟩, rfl⟩, hRest,
        rfl⟩
      cases hHead
      exact ⟨is, t₁, σ₁, t₂, hValues, hEach, hRest, rfl⟩
    · rintro ⟨is, t₁, σ₁, t₂, hValues, hEach, hRest, rfl⟩
      exact ⟨_, σ₁, t₂, ⟨_, _, t₁, rfl, ⟨is, hValues, hEach⟩, rfl⟩, hRest, rfl⟩
  | cond a branch rest ihBranch ih =>
    rw [run_cond_iff]
    simp only [play, andPlay_eq_ok_iff, orFail_eq_ok_iff, ihBranch, ih]
    constructor
    · rintro ⟨_, σ₁, t₂, ⟨_, _, t₁, hHead, ⟨taken, hHolds, hTaken⟩, rfl⟩, hRest, rfl⟩
      cases hHead
      exact ⟨taken, t₁, σ₁, t₂, hHolds, hTaken, hRest, rfl⟩
    · rintro ⟨taken, t₁, σ₁, t₂, hHolds, hTaken, hRest, rfl⟩
      exact ⟨_, σ₁, t₂, ⟨_, _, t₁, rfl, ⟨taken, hHolds, hTaken⟩, rfl⟩, hRest, rfl⟩

variable {P : Store → Trace → Store → Prop}

theorem Along.andPlay {r : Play} {k : Store → Play} (hAlong : p.Along P) (hFirst : P σ r.1 r.store)
    (hRest : ∀ σ₁, P σ₁ (k σ₁).1 (k σ₁).store) :
    P σ (Prog.andPlay r k).1 (Prog.andPlay r k).store := by
  obtain ⟨t₁, σ₁ | σ₁⟩ := r
  · exact hFirst
  · exact hAlong.trans hFirst (hRest σ₁)

theorem Along.playEach (hAlong : p.Along P) (hVar : p.Counts var)
    (hBody : ∀ σ, P σ (body.play σ).1 (body.play σ).store) (is : List Int) (σ : Store) :
    P σ (Prog.playEach body.play var is σ).1 (Prog.playEach body.play var is σ).store := by
  induction is generalizing σ with
  | nil => exact hAlong.refl σ
  | cons i is ih =>
    have hFirst := hAlong.trans (hAlong.count hVar σ i) (hBody (σ.count var i))
    exact hAlong.andPlay hFirst ih

/- What holds along every run holds along every play. -/
theorem Along.play (hAlong : p.Along P) (σ : Store) : P σ (p.play σ).1 (p.play σ).store := by
  induction p generalizing σ with
  | nil => exact hAlong.refl σ
  | act a rest ih =>
    refine hAlong.andPlay ?_ (ih hAlong.of_act)
    cases hStep : a.step σ with
    | none =>
      simp only [Prog.andPlay, hStep, orFail, Option.elim]
      exact hAlong.head a σ
    | some σ' =>
      simp only [Prog.andPlay, hStep, orFail, Option.elim]
      exact hAlong.step (.inl rfl) hStep
  | loop a var body rest ihBody ih =>
    refine hAlong.andPlay (hAlong.andPlay (hAlong.head a σ) ?_) (ih hAlong.of_loop)
    intro σ
    cases a.values? σ with
    | none => exact hAlong.refl σ
    | some is => exact hAlong.playEach (.inl rfl) (ihBody hAlong.of_body) is σ
  | cond a branch rest ihBranch ih =>
    refine hAlong.andPlay (hAlong.andPlay (hAlong.head a σ) ?_) (ih hAlong.of_cond)
    intro σ
    cases a.holds? σ with
    | none => exact hAlong.refl σ
    | some taken => exact ihBranch taken (hAlong.of_branch taken) σ

end Prog

end AffineIR
