import AffineIR.Flow.Dominators
import Mathlib.Data.List.Basic
import Mathlib.Order.Nat

/-
  Nodes above a node.

  The guesses for immediate dominators lead from every node up
  to the entry.  When they fall in rank, the nodes above a
  node are in a row, and a new guess for one node changes only
  what is above it.

  Main result: `Guesses.above_of_above_set`
-/

namespace AffineIR

variable {a b c fuel k n z : Nat} {u : Guesses} {rank : Nat → Nat}

namespace Guesses

------
-- Above
------

/- The first node is the second one, or is met on the way up. -/
inductive Above (u : Guesses) : Nat → Nat → Prop where
  | refl (n : Nat) : Above u n n
  | up {a p n : Nat} (hGuess : u.get? n = some p) (hNe : p ≠ n) (hAbove : Above u a p) : Above u a n

theorem Above.trans (hUpper : u.Above a b) (hLower : u.Above b c) : u.Above a c := by
  induction hLower with
  | refl => exact hUpper
  | up hGuess hNe _ ih => exact .up hGuess hNe ih

/- What is above a node and not the node is above its guess. -/
theorem Above.of_ne (hAbove : u.Above a n)
    (hNe : a ≠ n) : ∃ p, u.get? n = some p ∧ p ≠ n ∧ u.Above a p := by
  cases hAbove with
  | refl => exact absurd rfl hNe
  | up hGuess hDiffer hUp => exact ⟨_, hGuess, hDiffer, hUp⟩

/- Of two nodes above a third one, one is above the other. -/
theorem Above.comparable (hFirst : u.Above a n)
    (hSecond : u.Above b n) : u.Above a b ∨ u.Above b a := by
  induction hFirst with
  | refl => exact .inr hSecond
  | @up p n hGuess hNe hUp ih =>
    by_cases hSame : b = n
    · subst hSame
      exact .inl (.up hGuess hNe hUp)
    · obtain ⟨p', hGuess', _, hUp'⟩ := hSecond.of_ne hSame
      cases hGuess.symm.trans hGuess'
      exact ih hUp'

/- What is above stays if the guesses on the way up do. -/
theorem Above.of_agree {u' : Guesses} (hAbove : u.Above a n)
    (hAgree : ∀ {m q}, u.Above m n → u'.Above m n → u.Above a q → u.get? m = some q → q ≠ m →
      u'.get? m = some q) : u'.Above a n := by
  induction hAbove with
  | refl => exact .refl _
  | up hGuess hNe hUp ih =>
    have hGuess' := hAgree (.refl _) (.refl _) hUp hGuess hNe
    exact .up hGuess' hNe (ih fun hBelow hBelow' =>
      hAgree (.up hGuess hNe hBelow) (.up hGuess' hNe hBelow'))

/- Guesses lead to nodes that have guesses. -/
def Closed (u : Guesses) : Prop := ∀ n p, u.get? n = some p → (u.get? p).isSome

theorem Closed.isSome_of_above (hClosed : u.Closed) (hAbove : u.Above a n)
    (hGuessed : (u.get? n).isSome) : (u.get? a).isSome := by
  induction hAbove with
  | refl => exact hGuessed
  | up hGuess _ _ ih => exact ih (hClosed _ _ hGuess)

/- Guesses that are not the node itself fall in rank. -/
def Ranked (u : Guesses) (rank : Nat → Nat) : Prop :=
  ∀ n p, u.get? n = some p → p ≠ n → rank p < rank n

theorem Ranked.le_of_above (hRanked : u.Ranked rank) (hAbove : u.Above a n) : rank a ≤ rank n := by
  induction hAbove with
  | refl => exact le_rfl
  | up hGuess hNe _ ih =>
    have hLess := hRanked _ _ hGuess hNe
    omega

theorem Ranked.lt_of_above (hRanked : u.Ranked rank) (hAbove : u.Above a n)
    (hNe : a ≠ n) : rank a < rank n := by
  obtain ⟨p, hGuess, hDiffer, hUp⟩ := hAbove.of_ne hNe
  have hLess := hRanked _ _ hGuess hDiffer
  have hLe := hRanked.le_of_above hUp
  omega

/- The walk up lists the nodes above, if it is long enough. -/
theorem mem_climb_iff (hRanked : u.Ranked rank) (hClosed : u.Closed) (hFuel : rank n < fuel)
    (hGuessed : (u.get? n).isSome) : a ∈ u.climb fuel n ↔ u.Above a n := by
  induction fuel generalizing n with
  | zero => omega
  | succ fuel ih =>
    obtain ⟨p, hGuess⟩ := Option.isSome_iff_exists.mp hGuessed
    simp only [climb, hGuess]
    by_cases hSame : p = n
    · rw [if_pos hSame, List.mem_singleton]
      constructor
      · rintro rfl
        exact .refl a
      · intro hAbove
        by_contra hNe
        obtain ⟨q, hQ, hDiffer, _⟩ := hAbove.of_ne hNe
        cases hGuess.symm.trans hQ
        exact hDiffer hSame
    · have hLess := hRanked _ _ hGuess hSame
      have hUp := ih (by omega) (hClosed _ _ hGuess)
      rw [if_neg hSame, List.mem_cons, hUp]
      constructor
      · rintro (rfl | hAbove)
        · exact .refl a
        · exact .up hGuess hSame hAbove
      · intro hAbove
        by_cases hEq : a = n
        · exact .inl hEq
        · obtain ⟨q, hQ, _, hRest⟩ := hAbove.of_ne hEq
          cases hGuess.symm.trans hQ
          exact .inr hRest

/- A node without a guess has nothing above it. -/
theorem climb_eq_nil (hNone : u.get? n = none) (fuel : Nat) : u.climb fuel n = [] := by
  cases fuel with
  | zero => rfl
  | succ fuel => simp [climb, hNone]

------
-- A new guess
------

theorem get?_set (hInside : k < u.slots.size)
    (p n : Nat) : (u.set k p).get? n = if n = k then some p else u.get? n := by
  unfold set get?
  rw [Array.getElem?_setIfInBounds]
  by_cases hSame : k = n
  · subst hSame
    simp [hInside]
  · have hNe : n ≠ k := fun hEq => hSame hEq.symm
    simp [hSame, hNe]

@[simp] theorem size_set (u : Guesses) (k p : Nat) : (u.set k p).slots.size = u.slots.size := by
  simp [set]

section NewGuess

variable {p : Nat}

theorem Ranked.set (hRanked : u.Ranked rank) (hInside : k < u.slots.size)
    (hLess : rank p < rank k) : (u.set k p).Ranked rank := by
  intro n q hGuess hNe
  rw [get?_set hInside] at hGuess
  split at hGuess
  · rename_i hSame
    cases hGuess
    exact hSame ▸ hLess
  · exact hRanked n q hGuess hNe

/- Nodes that are not higher than the changed one stay above. -/
theorem above_set_iff_of_le (hRanked : u.Ranked rank) (hInside : k < u.slots.size)
    (hLess : rank p < rank k) (hLow : rank k ≤ rank z) : (u.set k p).Above z n ↔ u.Above z n := by
  have hRanked' := hRanked.set hInside hLess
  have hOther {u' : Guesses} (hFalls : u'.Ranked rank) {m q : Nat} (hUp : u'.Above z q)
      (hGuess : u'.get? m = some q) (hNe : q ≠ m) : m ≠ k := by
    have hLe := hFalls.le_of_above hUp
    have hFall := hFalls _ _ hGuess hNe
    rintro rfl
    omega
  refine ⟨fun hAbove => hAbove.of_agree fun _ _ hUp hGuess hNe => ?_,
    fun hAbove => hAbove.of_agree fun _ _ hUp hGuess hNe => ?_⟩
  · have hDiffer := hOther hRanked' hUp hGuess hNe
    rwa [get?_set hInside, if_neg hDiffer] at hGuess
  · rwa [get?_set hInside, if_neg (hOther hRanked hUp hGuess hNe)]

/- What is above a node that is not below the changed one stays. -/
theorem above_set_iff_of_not_above (hInside : k < u.slots.size)
    (hOff : ¬ u.Above k n) : (u.set k p).Above z n ↔ u.Above z n := by
  have hOther {m : Nat} (hBelow : u.Above m n) : m ≠ k := fun hSame => hOff (hSame ▸ hBelow)
  refine ⟨fun hAbove => hAbove.of_agree fun _ hBelow _ hGuess _ => ?_,
    fun hAbove => hAbove.of_agree fun hBelow _ _ hGuess _ => ?_⟩
  · rwa [get?_set hInside, if_neg (hOther hBelow)] at hGuess
  · rwa [get?_set hInside, if_neg (hOther hBelow)]

section

variable (hRanked : u.Ranked rank) (hInside : k < u.slots.size)

include hRanked hInside

/- Nodes above the new guess are the same before and after. -/
theorem above_set_iff_of_lt (hHigh : rank n < rank k) : (u.set k p).Above z n ↔ u.Above z n := by
  apply above_set_iff_of_not_above hInside
  intro hAbove
  have hLe := hRanked.le_of_above hAbove
  omega

/- From the changed node on, the way leads over its new guess. -/
theorem above_guess_of_above_set (hLess : rank p < rank k) (hBelow : u.Above k n)
    (hAbove : (u.set k p).Above z n) (hHigh : rank z < rank k) : u.Above z p := by
  have hRanked' := hRanked.set hInside hLess
  have hBelow' : (u.set k p).Above k n :=
    (above_set_iff_of_le hRanked hInside hLess le_rfl).mpr hBelow
  have hUpper : (u.set k p).Above z k := by
    rcases hAbove.comparable hBelow' with hUp | hDown
    · exact hUp
    · have hLe := hRanked'.le_of_above hDown
      omega
  have hNe : z ≠ k := by
    rintro rfl
    omega
  obtain ⟨q, hGuess, _, hRest⟩ := hUpper.of_ne hNe
  rw [get?_set hInside, if_pos rfl] at hGuess
  cases hGuess
  exact (above_set_iff_of_lt hRanked hInside hLess).mp hRest

/- What is above the new guess is above all nodes below it. -/
theorem above_set_of_above_guess (hLess : rank p < rank k) (hBelow : u.Above k n)
    (hAbove : u.Above z p) : (u.set k p).Above z n := by
  have hBelow' : (u.set k p).Above k n :=
    (above_set_iff_of_le hRanked hInside hLess le_rfl).mpr hBelow
  have hNe : p ≠ k := by
    rintro rfl
    omega
  have hGuess : (u.set k p).get? k = some p := by rw [get?_set hInside, if_pos rfl]
  have hAbove' : (u.set k p).Above z p := (above_set_iff_of_lt hRanked hInside hLess).mpr hAbove
  exact (Above.up hGuess hNe hAbove').trans hBelow'

/-
  A guess that moves up to a node above the old guess leaves
  less above every node.
-/
theorem above_of_above_set (hLess : rank p < rank k) (hMoves : u.Above p k)
    (hAbove : (u.set k p).Above z n) : u.Above z n := by
  by_cases hBelow : u.Above k n
  · by_cases hLow : rank k ≤ rank z
    · exact (above_set_iff_of_le hRanked hInside hLess hLow).mp hAbove
    · have hUpper := above_guess_of_above_set hRanked hInside hLess hBelow hAbove (by omega)
      exact (hUpper.trans hMoves).trans hBelow
  · exact (above_set_iff_of_not_above hInside hBelow).mp hAbove

end

end NewGuess

end Guesses

end AffineIR
