import AffineIR.Proofs.Flow.Climbing
import AffineIR.Proofs.Flow.DepthFirst

/-
  The guesses for immediate dominators settle.

  While the nodes are visited in reverse post-order, every
  guess only moves up, and it never moves above a dominator.
  So each pass that changes something lowers the sum of the
  ranks of all guesses, and the passes come to an end.

  The invariant depends on how far a pass has come.  A node
  that was visited in this pass has only such nodes above it
  as are above each of its earlier predecessors.  For a node
  that was not, this is only known of the part above it that
  was not visited either.

  Main result: `Dominators.settle_settled`
-/

namespace AffineIR

open List

variable {a b d first fuel i k m n o p q : Nat} {u : Guesses} {g : FlowGraph}
  {done nodes order rest : List Nat}

namespace FlowGraph

/- A dominator comes no later than what it dominates. -/
theorem DepthFirst.idxOf_le_of_dominates (hOrder : g.DepthFirst order)
    (hDominates : g.Dominates d n) : order.idxOf d ≤ order.idxOf n := by
  -- Some path to the node never goes behind it in the order.
  have hEarly : ∀ rank m, order.idxOf m = rank → m ∈ order → ∃ nodes, g.Path g.entry m nodes ∧
        ∀ x ∈ nodes, order.idxOf x ≤ rank := by
    intro rank
    induction rank using Nat.strong_induction_on with
    | _ rank ih =>
      intro m hRank hMember
      by_cases hEntry : m = g.entry
      · subst hEntry
        exact ⟨_, .single _, by simp [hRank]⟩
      · obtain ⟨p, hIn, hLess, hEdge⟩ := hOrder.parent m hMember hEntry
        obtain ⟨nodes, hPath, hNodes⟩ := ih _ (hRank ▸ hLess) p rfl hIn
        refine ⟨_, hPath.step hEdge, ?_⟩
        intro x hOn
        rcases mem_append.mp hOn with hBefore | hLast
        · have hLe := hNodes x hBefore
          omega
        · rw [mem_singleton] at hLast
          exact (hLast ▸ hRank).le
  have hMember := (hOrder.mem_iff n).mpr hDominates.1
  obtain ⟨nodes, hPath, hNodes⟩ := hEarly _ n rfl hMember
  exact hNodes d (hDominates.2 nodes hPath)

theorem DepthFirst.idxOf_entry (hOrder : g.DepthFirst order) : order.idxOf g.entry = 0 := by
  have hHead := hOrder.head
  cases order with
  | nil => cases hHead
  | cons first rest =>
    simp only [List.head?_cons, Option.some.injEq] at hHead
    simp [hHead]

end FlowGraph

namespace Dominators

open FlowGraph Guesses

/-
  What holds of the guesses when the nodes of rank below `i`
  were visited in the present pass.
-/
structure Settling (g : FlowGraph) (order : List Nat) (i : Nat) (u : Guesses) : Prop where
  size : u.slots.size = g.size
  entry : u.get? g.entry = some g.entry
  listed : ∀ n, (u.get? n).isSome → n ∈ order
  closed : u.Closed
  falls : ∀ n p, u.get? n = some p → n ≠ g.entry → order.idxOf p < order.idxOf n
  visited : ∀ n ∈ order, order.idxOf n < i → (u.get? n).isSome
  /- No guess lies above a dominator. -/
  covers : ∀ n p d, u.get? n = some p → n ≠ g.entry → g.StrictlyDominates d n → g.Dominates d p
  /- A new guess would lie above the present one. -/
  lowers :
    ∀ n p c, u.get? n = some p → n ≠ g.entry → (∀ q ∈ g.preds n, (u.get? q).isSome → u.Above c q) →
        u.Above c p
  /- What is above a node is above its earlier predecessors. -/
  shares :
    ∀ n q z, (u.get? n).isSome → n ≠ g.entry → q ∈ g.preds n → q ∈ order →
        order.idxOf q < order.idxOf n → u.Above z n → z ≠ n →
            (order.idxOf n < i ∨ i ≤ order.idxOf z) → u.Above z q

namespace Settling

theorem ranked (hState : Settling g order i u) : u.Ranked order.idxOf := by
  intro n p hGuess hNe
  apply hState.falls n p hGuess
  rintro rfl
  cases hState.entry.symm.trans hGuess
  exact hNe rfl

end Settling

------
-- The nearest node above
------

section Visit

/-
  The node at which nodes meet is below all that are above
  them, and dominated by what dominates them.
-/
structure Meets (g : FlowGraph) (u : Guesses) (nodes : List Nat) (m : Nat) : Prop where
  guessed : (u.get? m).isSome
  above_iff : ∀ c, u.Above c m ↔ ∀ q ∈ nodes, u.Above c q
  dominated : ∀ d, (∀ q ∈ nodes, g.Dominates d q) → g.Dominates d m

theorem Meets.above (hMeets : Meets g u nodes m) : ∀ q ∈ nodes, u.Above m q :=
  (hMeets.above_iff m).mp (.refl m)

/- Moving one of two nodes up keeps where they meet. -/
theorem Meets.of_guess (hOrder : g.DepthFirst order) (hState : Settling g order i u)
    (hGuess : u.get? a = some p) (hLower : order.idxOf b < order.idxOf a)
    (hMeets : Meets g u [p, b] m) : Meets g u [a, b] m := by
  have hEntry : a ≠ g.entry := by
    rintro rfl
    rw [hOrder.idxOf_entry] at hLower
    omega
  have hFall := hState.falls a p hGuess hEntry
  have hNe : p ≠ a := by
    rintro rfl
    omega
  refine ⟨hMeets.guessed, fun c => ?_, fun d hCommon => hMeets.dominated d ?_⟩
  · rw [hMeets.above_iff]
    simp only [forall_mem_cons, and_congr_left_iff]
    intro hOther
    refine ⟨.up hGuess hNe, fun hUp => ?_⟩
    -- The lower node is not above the other one.
    have hDiffer : c ≠ a := by
      rintro rfl
      have hLe := hState.ranked.le_of_above hOther.1
      omega
    obtain ⟨p', hGuess', _, hRest⟩ := hUp.of_ne hDiffer
    cases hGuess.symm.trans hGuess'
    exact hRest
  · obtain ⟨hFirst, hOther⟩ := forall_mem_cons.mp hCommon
    refine forall_mem_cons.mpr ⟨hState.covers a p d hGuess hEntry ⟨?_, hFirst⟩, hOther⟩
    rintro rfl
    have hLe := hOrder.idxOf_le_of_dominates (hOther b mem_cons_self)
    omega

theorem Meets.swap (hMeets : Meets g u [a, b] m) : Meets g u [b, a] m where
  guessed := hMeets.guessed
  above_iff c := by simp [hMeets.above_iff, and_comm]
  dominated d hCommon := hMeets.dominated d (by simpa [and_comm] using hCommon)

theorem Meets.single (hGuessed : (u.get? a).isSome) : Meets g u [a] a :=
  ⟨hGuessed, by simp, by simp⟩

/- Two nodes with guesses meet. -/
theorem meet_eq (hOrder : g.DepthFirst order) (hState : Settling g order i u)
    (hFirst : (u.get? a).isSome) (hSecond : (u.get? b).isSome)
    (hFuel : order.idxOf a + order.idxOf b < fuel) :
    ∃ m, meet order u fuel a b = .ok m ∧ Meets g u [a, b] m := by
  induction fuel generalizing a b with
  | zero => omega
  | succ fuel ih =>
    have hMove : ∀ x y, (u.get? x).isSome → order.idxOf y < order.idxOf x → ∃ p, u.get? x = some p ∧
            order.idxOf p < order.idxOf x := by
      intro x y hGuessed hLess
      obtain ⟨p, hGuess⟩ := Option.isSome_iff_exists.mp hGuessed
      refine ⟨p, hGuess, hState.falls x p hGuess ?_⟩
      rintro rfl
      rw [hOrder.idxOf_entry] at hLess
      omega
    rw [meet]
    by_cases hSame : a = b
    · subst hSame
      exact ⟨a, by simp, hFirst, by simp, by simp⟩
    · rw [if_neg hSame]
      by_cases hLeft : order.idxOf b < order.idxOf a
      · obtain ⟨p, hGuess, hFall⟩ := hMove a b hFirst hLeft
        obtain ⟨m, hRun, hMeets⟩ := ih (hState.closed a p hGuess) hSecond (by omega)
        refine ⟨m, ?_, .of_guess hOrder hState hGuess hLeft hMeets⟩
        rwa [if_pos hLeft, hGuess]
      · have hRight : order.idxOf a < order.idxOf b := by
          have hDiffer : order.idxOf a ≠ order.idxOf b := by
            intro hEq
            exact hSame ((idxOf_inj (hState.listed a hFirst)).mp hEq)
          omega
        obtain ⟨p, hGuess, hFall⟩ := hMove b a hSecond hRight
        obtain ⟨m, hRun, hMeets⟩ := ih hFirst (hState.closed b p hGuess) (by omega)
        refine ⟨m, ?_, ?_⟩
        · rwa [if_neg hLeft, if_pos hRight, hGuess]
        · exact (Meets.of_guess hOrder hState hGuess hRight hMeets.swap).swap

/- Nodes with guesses meet one after the other. -/
theorem foldlM_meet_eq (hOrder : g.DepthFirst order) (hState : Settling g order i u)
    (hFirst : Meets g u nodes first) (hRest : ∀ q ∈ rest, (u.get? q).isSome) :
    ∃ m, rest.foldlM (meet order u (meetFuel order)) first = .ok m ∧
        Meets g u (nodes ++ rest) m := by
  induction rest generalizing first nodes with
  | nil => exact ⟨first, rfl, by simpa using hFirst⟩
  | cons q rest ih =>
    have hGuessed := hRest q mem_cons_self
    have hRankFirst := idxOf_lt_length_of_mem (hState.listed first hFirst.guessed)
    have hRankNext := idxOf_lt_length_of_mem (hState.listed q hGuessed)
    have hFuel : order.idxOf first + order.idxOf q < meetFuel order := by
      unfold meetFuel
      omega
    obtain ⟨m, hRun, hMeets⟩ := meet_eq hOrder hState hFirst.guessed hGuessed hFuel
    have hJoined : Meets g u (nodes ++ [q]) m := by
      refine ⟨hMeets.guessed, fun c => ?_, fun d hCommon => hMeets.dominated d ?_⟩
      · rw [hMeets.above_iff, forall_mem_append, forall_mem_cons, hFirst.above_iff]
      · obtain ⟨hOld, hNew⟩ := forall_mem_append.mp hCommon
        exact forall_mem_cons.mpr ⟨hFirst.dominated d hOld, hNew⟩
    obtain ⟨m', hRest', hAll⟩ := ih hJoined fun x hMember => hRest x (mem_cons_of_mem _ hMember)
    refine ⟨m', ?_, by simpa using hAll⟩
    rwa [foldlM_cons, hRun]

/- The predecessors of a node that have a guess. -/
def guessedPreds (g : FlowGraph) (u : Guesses) (n : Nat) : List Nat :=
  (g.preds n).filter fun p => (u.get? p).isSome

theorem mem_guessedPreds_iff :
    q ∈ guessedPreds g u n ↔ q ∈ g.preds n ∧ (u.get? q).isSome := by
  simp [guessedPreds]

/- A node whose turn it is gets a guess. -/
theorem guess_eq (hBuilt : g.Built) (hOrder : g.DepthFirst order) (hState : Settling g order i u)
    (hMember : k ∈ order) (hEntry : k ≠ g.entry) (hTurn : order.idxOf k = i) :
    ∃ m, guess g order u k = .ok (some m) ∧ Meets g u (guessedPreds g u k) m ∧
        order.idxOf m < order.idxOf k := by
  -- The predecessor before it was visited and has a guess.
  obtain ⟨y, hIn, hLess, hEdge⟩ := hOrder.parent k hMember hEntry
  have hParent : y ∈ guessedPreds g u k := mem_guessedPreds_iff.mpr ⟨hBuilt.mem_preds_iff.mpr hEdge,
        hState.visited y hIn (hTurn ▸ hLess)⟩
  cases hPreds : guessedPreds g u k with
  | nil =>
    rw [hPreds] at hParent
    cases hParent
  | cons first rest =>
    have hGuessed : ∀ q ∈ first :: rest, (u.get? q).isSome := by
      intro q hQ
      rw [← hPreds] at hQ
      exact (mem_guessedPreds_iff.mp hQ).2
    rcases foldlM_meet_eq hOrder hState (Meets.single (hGuessed first mem_cons_self))
        (fun q hQ => hGuessed q (mem_cons_of_mem _ hQ)) with ⟨m, hRun, hMeets⟩
    refine ⟨m, ?_, hMeets, ?_⟩
    · unfold guessedPreds at hPreds
      unfold guess
      rw [hPreds]
      simp only [hRun]
      rfl
    · rw [hPreds] at hParent
      have hLe := hState.ranked.le_of_above (hMeets.above y (by simpa using hParent))
      omega

/-
  A guess that has settled: it is above every predecessor that
  has a guess.
-/
def Settled (g : FlowGraph) (u : Guesses) (k : Nat) : Prop := ∃ p, u.get? k = some p ∧
    ∀ q ∈ guessedPreds g u k, u.Above p q

/- Only one node of the order has its turn. -/
theorem idxOf_ne (hTurn : order.idxOf k = i) (hIn : n ∈ order)
    (hOther : n ≠ k) : order.idxOf n ≠ i :=
  fun hEq => hOther ((idxOf_inj hIn).mp (hEq.trans hTurn.symm))

/- A guess that stays is as good as a new one. -/
theorem Settling.keep (hState : Settling g order i u) (hTurn : order.idxOf k = i)
    (hMember : k ∈ order) (hGuess : u.get? k = some m) (hMeets : Meets g u (guessedPreds g u k) m) :
    Settling g order (i + 1) u where
  size := hState.size
  entry := hState.entry
  listed := hState.listed
  closed := hState.closed
  falls := hState.falls
  visited := by
    intro n hIn hRank
    by_cases hSame : n = k
    · subst hSame
      simp [hGuess]
    · have hDiffer := idxOf_ne hTurn hIn hSame
      exact hState.visited n hIn (by omega)
  covers := hState.covers
  lowers := hState.lowers
  shares := by
    intro n q z hGuessed hEntry hPred hIn hEarlier hAbove hNe hPart
    by_cases hSame : n = k
    · subst hSame
      obtain ⟨p, hGuess', _, hUp⟩ := hAbove.of_ne hNe
      cases hGuess.symm.trans hGuess'
      have hQ : (u.get? q).isSome := hState.visited q hIn (hTurn ▸ hEarlier)
      exact hUp.trans (hMeets.above q (mem_guessedPreds_iff.mpr ⟨hPred, hQ⟩))
    · have hDiffer := idxOf_ne hTurn (hState.listed n hGuessed) hSame
      exact hState.shares n q z hGuessed hEntry hPred hIn hEarlier hAbove hNe (by omega)

/- Where a node that had a guess before may be given a new one. -/
theorem Settling.above_of_meets (hState : Settling g order i u) (hEntry : k ≠ g.entry)
    (hMeets : Meets g u (guessedPreds g u k) m) (hOld : u.get? k = some o) : u.Above m o := by
  apply hState.lowers k o m hOld hEntry
  intro q hPred hGuessed
  exact hMeets.above q (mem_guessedPreds_iff.mpr ⟨hPred, hGuessed⟩)

/- The node whose turn it is, and a guess further up where its predecessors meet. -/
structure Moves (g : FlowGraph) (order : List Nat) (i : Nat) (u : Guesses) (k m : Nat) : Prop where
  state : Settling g order i u
  inside : k < g.size
  member : k ∈ order
  other : k ≠ g.entry
  turn : order.idxOf k = i
  meets : Meets g u (guessedPreds g u k) m
  less : order.idxOf m < order.idxOf k

namespace Moves

variable {c z : Nat} (hMoves : Moves g order i u k m)

include hMoves

theorem slot : k < u.slots.size := hMoves.state.size ▸ hMoves.inside

theorem isSome_iff : ((u.set k m).get? n).isSome ↔ n = k ∨ (u.get? n).isSome := by
  rw [get?_set hMoves.slot]
  split <;> simp_all

theorem get?_of_ne (hOther : n ≠ k) (hGuess : (u.set k m).get? n = some p) : u.get? n = some p := by
  rwa [get?_set hMoves.slot, if_neg hOther] at hGuess

theorem eq_of_get? (hGuess : (u.set k m).get? k = some p) : p = m := by
  rw [get?_set hMoves.slot, if_pos rfl] at hGuess
  exact (Option.some.inj hGuess).symm

/- Less is above every node that had a guess before. -/
theorem above_of_above_set (hHas : (u.get? n).isSome)
    (hAbove : (u.set k m).Above z n) : u.Above z n := by
  have hState := hMoves.state
  cases hOld : u.get? k with
  | none =>
    have hOff : ¬ u.Above k n := by
      intro hBelow
      have hSome := hState.closed.isSome_of_above hBelow hHas
      simp [hOld] at hSome
    exact (above_set_iff_of_not_above hMoves.slot hOff).mp hAbove
  | some o =>
    have hUp := hState.above_of_meets hMoves.other hMoves.meets hOld
    have hFall := hState.falls k o hOld hMoves.other
    have hNe : o ≠ k := by
      rintro rfl
      omega
    exact Guesses.above_of_above_set hState.ranked hMoves.slot hMoves.less
      (hUp.trans (.up hOld hNe (.refl o))) hAbove

theorem closed : (u.set k m).Closed := by
  intro n p hGuess
  rw [hMoves.isSome_iff]
  by_cases hSame : n = k
  · subst hSame
    exact .inr (hMoves.eq_of_get? hGuess ▸ hMoves.meets.guessed)
  · exact .inr (hMoves.state.closed n p (hMoves.get?_of_ne hSame hGuess))

/- Dominators of the node dominate where its predecessors meet. -/
theorem covers (hBuilt : g.Built) (hOrder : g.DepthFirst order)
    (hStrict : g.StrictlyDominates d k) : g.Dominates d m := by
  apply hMoves.meets.dominated
  intro q hQ
  obtain ⟨hPred, hHas⟩ := mem_guessedPreds_iff.mp hQ
  exact hStrict.of_edge ((hOrder.mem_iff q).mp (hMoves.state.listed q hHas))
    (hBuilt.mem_preds_iff.mp hPred)

/- Nothing that the node itself lost is common to its predecessors. -/
theorem lowers_self (hBuilt : g.Built) (hOrder : g.DepthFirst order)
    (hCommon : ∀ q ∈ g.preds k, ((u.set k m).get? q).isSome → (u.set k m).Above c q) :
    (u.set k m).Above c m := by
  have hRanked := hMoves.state.ranked
  obtain ⟨y, hYIn, hEarlier, hEdge⟩ := hOrder.parent k hMoves.member hMoves.other
  have hYHas : (u.get? y).isSome := hMoves.state.visited y hYIn (hMoves.turn ▸ hEarlier)
  have hHigh : order.idxOf c < order.idxOf k := by
    have hY := hCommon y (hBuilt.mem_preds_iff.mpr hEdge) (hMoves.isSome_iff.mpr (.inr hYHas))
    have hLe := (hRanked.set hMoves.slot hMoves.less).le_of_above hY
    omega
  apply (above_set_iff_of_lt hRanked hMoves.slot hMoves.less).mpr
  by_cases hBelow : ∃ q ∈ guessedPreds g u k, u.Above k q
  · obtain ⟨q, hQ, hUnder⟩ := hBelow
    obtain ⟨hPred, hHas⟩ := mem_guessedPreds_iff.mp hQ
    exact above_guess_of_above_set hRanked hMoves.slot hMoves.less hUnder
      (hCommon q hPred (hMoves.isSome_iff.mpr (.inr hHas))) hHigh
  · refine (hMoves.meets.above_iff c).mpr fun q hQ => ?_
    obtain ⟨hPred, hHas⟩ := mem_guessedPreds_iff.mp hQ
    exact (above_set_iff_of_not_above hMoves.slot fun hUnder => hBelow ⟨q, hQ, hUnder⟩).mp
      (hCommon q hPred (hMoves.isSome_iff.mpr (.inr hHas)))

theorem lowers_other (hBuilt : g.Built) (hOrder : g.DepthFirst order) (hSame : n ≠ k)
    (hGuess : u.get? n = some p) (hOther : n ≠ g.entry)
    (hCommon : ∀ q ∈ g.preds n, ((u.set k m).get? q).isSome → (u.set k m).Above c q) :
    (u.set k m).Above c p := by
  have hState := hMoves.state
  have hRanked := hState.ranked
  have hHas : (u.get? n).isSome := by simp [hGuess]
  have hOldAbove : u.Above c p := hState.lowers n p c hGuess hOther fun q hPred hHas =>
    hMoves.above_of_above_set hHas (hCommon q hPred (hMoves.isSome_iff.mpr (.inr hHas)))
  by_cases hBelow : u.Above k p
  · by_cases hLow : order.idxOf k ≤ order.idxOf c
    · exact (above_set_iff_of_le hRanked hMoves.slot hMoves.less hLow).mpr hOldAbove
    · -- The changed node is above an early predecessor,
      -- so what the latter lost is not common either.
      obtain ⟨y, hYIn, hEarlier, hEdge⟩ := hOrder.parent n (hState.listed n hHas) hOther
      have hYPred := hBuilt.mem_preds_iff.mpr hEdge
      have hNe : p ≠ n := by
        have hFall := hState.falls n p hGuess hOther
        rintro rfl
        omega
      have hUnder : u.Above k n := .up hGuess hNe hBelow
      have hYUnder : u.Above k y := hState.shares n y k hHas hOther hYPred hYIn hEarlier
        hUnder (Ne.symm hSame) (.inr hMoves.turn.ge)
      have hYHas : ((u.set k m).get? y).isSome := by
        by_cases hYK : y = k
        · exact hMoves.isSome_iff.mpr (.inl hYK)
        · obtain ⟨p', hYGuess, _⟩ := hYUnder.of_ne (Ne.symm hYK)
          exact hMoves.isSome_iff.mpr (.inr (by simp [hYGuess]))
      have hUpper := above_guess_of_above_set hRanked hMoves.slot hMoves.less hYUnder
        (hCommon y hYPred hYHas) (by omega)
      exact above_set_of_above_guess hRanked hMoves.slot hMoves.less hBelow hUpper
  · exact (above_set_iff_of_not_above hMoves.slot hBelow).mpr hOldAbove

theorem shares_self (hPred : q ∈ g.preds k) (hIn : q ∈ order)
    (hEarlier : order.idxOf q < order.idxOf k) (hAbove : (u.set k m).Above z k)
    (hNe : z ≠ k) : (u.set k m).Above z q := by
  have hRanked := hMoves.state.ranked
  obtain ⟨p, hGuess, _, hUp⟩ := hAbove.of_ne hNe
  cases hMoves.eq_of_get? hGuess
  have hQ : (u.get? q).isSome := hMoves.state.visited q hIn (hMoves.turn ▸ hEarlier)
  have hUp' := (above_set_iff_of_lt hRanked hMoves.slot hMoves.less).mp hUp
  apply (above_set_iff_of_lt hRanked hMoves.slot hEarlier).mpr
  exact hUp'.trans (hMoves.meets.above q (mem_guessedPreds_iff.mpr ⟨hPred, hQ⟩))

theorem shares_other (hHas : (u.get? n).isSome) (hSame : order.idxOf n ≠ i) (hOther : n ≠ g.entry)
    (hPred : q ∈ g.preds n) (hIn : q ∈ order) (hEarlier : order.idxOf q < order.idxOf n)
    (hAbove : (u.set k m).Above z n) (hNe : z ≠ n)
    (hPart : order.idxOf n < i + 1 ∨ i + 1 ≤ order.idxOf z) : (u.set k m).Above z q := by
  have hShares := hMoves.state.shares n q z hHas hOther hPred hIn hEarlier
  have hRanked := hMoves.state.ranked
  have hTurn := hMoves.turn
  by_cases hVisited : order.idxOf n < i
  · -- All of this lies before the changed node.
    have hNHigh : order.idxOf n < order.idxOf k := by omega
    have hQHigh : order.idxOf q < order.idxOf k := by omega
    apply (above_set_iff_of_lt hRanked hMoves.slot hQHigh).mpr
    exact hShares ((above_set_iff_of_lt hRanked hMoves.slot hNHigh).mp hAbove) hNe (.inl hVisited)
  · have hLow : order.idxOf k ≤ order.idxOf z := by omega
    apply (above_set_iff_of_le hRanked hMoves.slot hMoves.less hLow).mpr
    exact hShares ((above_set_iff_of_le hRanked hMoves.slot hMoves.less hLow).mp hAbove) hNe
      (.inr (by omega))

end Moves

/- Moving the guess of the node whose turn it is. -/
theorem Settling.move (hBuilt : g.Built) (hOrder : g.DepthFirst order)
    (hMoves : Moves g order i u k m) : Settling g order (i + 1) (u.set k m) where
  size := by rw [size_set, hMoves.state.size]
  entry := by
    rw [get?_set hMoves.slot, if_neg (Ne.symm hMoves.other)]
    exact hMoves.state.entry
  listed n hHas := by
    rcases hMoves.isSome_iff.mp hHas with rfl | hOld
    · exact hMoves.member
    · exact hMoves.state.listed n hOld
  closed := hMoves.closed
  falls n p hGuess hOther := by
    by_cases hSame : n = k
    · subst hSame
      exact hMoves.eq_of_get? hGuess ▸ hMoves.less
    · exact hMoves.state.falls n p (hMoves.get?_of_ne hSame hGuess) hOther
  visited n hIn hRank := by
    by_cases hSame : n = k
    · exact hMoves.isSome_iff.mpr (.inl hSame)
    · have hDiffer := idxOf_ne hMoves.turn hIn hSame
      exact hMoves.isSome_iff.mpr (.inr (hMoves.state.visited n hIn (by omega)))
  covers n p d hGuess hOther hStrict := by
    by_cases hSame : n = k
    · subst hSame
      exact hMoves.eq_of_get? hGuess ▸ hMoves.covers hBuilt hOrder hStrict
    · exact hMoves.state.covers n p d (hMoves.get?_of_ne hSame hGuess) hOther hStrict
  lowers n p c hGuess hOther hCommon := by
    by_cases hSame : n = k
    · subst hSame
      exact hMoves.eq_of_get? hGuess ▸ hMoves.lowers_self hBuilt hOrder hCommon
    · exact hMoves.lowers_other hBuilt hOrder hSame (hMoves.get?_of_ne hSame hGuess) hOther hCommon
  shares n q z hHas hOther hPred hIn hEarlier hAbove hNe hPart := by
    by_cases hSame : n = k
    · subst hSame
      exact hMoves.shares_self hPred hIn hEarlier hAbove hNe
    · have hOld := (hMoves.isSome_iff.mp hHas).resolve_left hSame
      have hDiffer := idxOf_ne hMoves.turn (hMoves.state.listed n hOld) hSame
      exact hMoves.shares_other hOld hDiffer hOther hPred hIn hEarlier hAbove hNe hPart

end Visit

------
-- Passes
------

/- How high a guess still can move; no guess counts as lowest. -/
def room (order : List Nat) (u : Guesses) (n : Nat) : Nat :=
  match u.get? n with
  | some p => order.idxOf p
  | none => order.length

/- How high all guesses together can move. -/
def totalRoom (order : List Nat) (u : Guesses) : Nat := (order.map (room order u)).sum

theorem totalRoom_le (order : List Nat)
    (u : Guesses) : totalRoom order u ≤ order.length * order.length := by
  have hEach : ∀ x ∈ order.map (room order u), x ≤ order.length := by
    intro x hMember
    obtain ⟨n, _, rfl⟩ := mem_map.mp hMember
    unfold room
    split
    · exact idxOf_le_length
    · exact le_rfl
  have hSum := sum_le_card_nsmul _ _ hEach
  simpa [totalRoom] using hSum

/- A guess that moves up leaves less room. -/
theorem totalRoom_set_lt (hSlot : k < u.slots.size) (hMember : k ∈ order)
    (hLess : order.idxOf m < room order u k) : totalRoom order (u.set k m) < totalRoom order u := by
  have hRoom : ∀ n, room order (u.set k m) n = if n = k then order.idxOf m else room order u n := by
    intro n
    by_cases hSame : n = k
    · simp [room, get?_set hSlot, hSame]
    · simp [room, get?_set hSlot, hSame]
  apply sum_lt_sum
  · intro n _
    rw [hRoom n]
    split
    · rename_i hSame
      subst hSame
      exact hLess.le
    · exact le_rfl
  · refine ⟨k, hMember, ?_⟩
    rwa [hRoom k, if_pos rfl]

/- Before a pass, only the entry counts as visited. -/
theorem Settling.restart (hState : Settling g order order.length u) : Settling g order 1 u :=
  { hState with
    visited := by
      intro n hIn _
      exact hState.visited n hIn (idxOf_lt_length_of_mem hIn)
    shares := by
      intro n q z hHas hOther hPred hIn hEarlier hAbove hNe _
      exact hState.shares n q z hHas hOther hPred hIn hEarlier
        hAbove hNe (.inl (idxOf_lt_length_of_mem (hState.listed n hHas))) }

/- Guesses that no visit would change. -/
structure Final (g : FlowGraph) (order : List Nat) (u : Guesses) : Prop where
  built : g.Built
  searched : g.DepthFirst order
  state : Settling g order order.length u
  settled : ∀ k ∈ order, k ≠ g.entry → Settled g u k

section Passes

variable (hBuilt : g.Built) (hInside : g.entry < g.size) (hOrder : g.DepthFirst order)

include hBuilt hInside hOrder

/-
  One visit: the invariant moves on, and either the guess has
  settled already or it moves up.
-/
theorem visit_settling (hState : Settling g order i u) (hMember : k ∈ order) (hEntry : k ≠ g.entry)
    (hTurn : order.idxOf k = i) (changed : Bool) :
    ∃ v c, visit g order (u, changed) k = .ok (v, c) ∧ Settling g order (i + 1) v ∧
        ((v = u ∧ c = changed ∧ Settled g u k) ∨
          (c = true ∧ totalRoom order v < totalRoom order u)) := by
  have hNode : k < g.size := hBuilt.lt_size_of_reachable hInside ((hOrder.mem_iff k).mp hMember)
  obtain ⟨m, hGuess, hMeets, hLess⟩ := guess_eq hBuilt hOrder hState hMember hEntry hTurn
  by_cases hStays : u.get? k = some m
  · refine ⟨u, changed, ?_, hState.keep hTurn hMember hStays hMeets,
      .inl ⟨rfl, rfl, m, hStays, hMeets.above⟩⟩
    simp [visit, hGuess, hStays, bind, Except.bind, pure, Except.pure]
  · have hMoves : Moves g order i u k m :=
      ⟨hState, hNode, hMember, hEntry, hTurn, hMeets, hLess⟩
    refine ⟨u.set k m, true, ?_, .move hBuilt hOrder hMoves, .inr ⟨rfl, ?_⟩⟩
    · simp [visit, hGuess, hStays, bind, Except.bind, pure, Except.pure]
    · apply totalRoom_set_lt (hState.size ▸ hNode) hMember
      unfold room
      cases hOld : u.get? k with
      | none => exact idxOf_lt_length_of_mem (hState.listed m hMeets.guessed)
      | some o =>
        apply hState.ranked.lt_of_above (hState.above_of_meets hEntry hMeets hOld)
        rintro rfl
        exact hStays hOld

/- A run of visits from some node of the order on. -/
theorem foldlM_visit_settling (hSplit : order = done ++ rest) (hDone : done ≠ [])
    (hState : Settling g order done.length u) (changed : Bool) :
    ∃ v c, rest.foldlM (visit g order) (u, changed) = .ok (v, c) ∧ Settling g order order.length v ∧
        ((v = u ∧ c = changed ∧ ∀ k ∈ rest, Settled g u k) ∨
          (c = true ∧ totalRoom order v < totalRoom order u)) := by
  induction rest generalizing done u changed with
  | nil =>
    refine ⟨u, changed, rfl, ?_, .inl ⟨rfl, rfl, by simp⟩⟩
    simpa [hSplit] using hState
  | cons k rest ih =>
    have hMember : k ∈ order := by simp [hSplit]
    have hNotDone : k ∉ done := by
      intro hTwice
      have hNodup := hOrder.nodup
      rw [hSplit] at hNodup
      exact disjoint_of_nodup_append hNodup hTwice mem_cons_self
    have hTurn : order.idxOf k = done.length := by
      rw [hSplit, idxOf_append_of_notMem hNotDone]
      simp
    have hEntry : k ≠ g.entry := by
      rintro rfl
      rw [hOrder.idxOf_entry] at hTurn
      exact hDone (length_eq_zero_iff.mp hTurn.symm)
    rcases visit_settling hBuilt hInside hOrder hState hMember hEntry hTurn changed with
      ⟨v, c, hVisit, hNext, hProgress⟩
    have hSplit' : order = (done ++ [k]) ++ rest := by simp [hSplit]
    obtain ⟨w, e, hRun, hFinal, hLater⟩ := ih hSplit' (by simp) (by simpa using hNext) c
    refine ⟨w, e, ?_, hFinal, ?_⟩
    · rwa [foldlM_cons, hVisit]
    · rcases hProgress with ⟨rfl, rfl, hFirst⟩ | ⟨rfl, hLess⟩
      · rcases hLater with ⟨rfl, rfl, hRest⟩ | hMoved
        · refine .inl ⟨rfl, rfl, ?_⟩
          intro n hIn
          rcases mem_cons.mp hIn with rfl | hTail
          · exact hFirst
          · exact hRest n hTail
        · exact .inr hMoved
      · rcases hLater with ⟨rfl, rfl, _⟩ | ⟨hChanged, hLess'⟩
        · exact .inr ⟨rfl, hLess⟩
        · exact .inr ⟨hChanged, by omega⟩

theorem pass_settling (hState : Settling g order 1 u) :
    ∃ v c, pass g order u = .ok (v, c) ∧ Settling g order order.length v ∧
        ((c = false ∧ ∀ k ∈ order, k ≠ g.entry → Settled g v k) ∨
          (c = true ∧ totalRoom order v < totalRoom order u)) := by
  have hHead := hOrder.head
  cases hList : order with
  | nil => simp [hList] at hHead
  | cons first rest =>
    have hFirst : first = g.entry := by simpa [hList] using hHead
    have hSplit : order = [first] ++ rest := hList
    rcases foldlM_visit_settling hBuilt hInside hOrder hSplit (by simp) hState false with
      ⟨v, c, hRun, hFinal, hProgress⟩
    rw [hList] at hRun hFinal hProgress
    refine ⟨v, c, hRun, hFinal, ?_⟩
    rcases hProgress with ⟨rfl, rfl, hRest⟩ | hMoved
    · refine .inl ⟨rfl, ?_⟩
      intro k hMember hEntry
      rcases mem_cons.mp hMember with rfl | hTail
      · exact absurd hFirst hEntry
      · exact hRest k hTail
    · exact .inr hMoved

/-
  With more passes than there is room to move, the guesses
  settle.
-/
theorem settle_settled (hState : Settling g order 1 u) (hFuel : totalRoom order u < fuel) :
    ∃ v, settle g order fuel u = .ok v ∧ Final g order v := by
  induction fuel generalizing u with
  | zero => omega
  | succ fuel ih =>
    obtain ⟨v, c, hPass, hFinal, hProgress⟩ := pass_settling hBuilt hInside hOrder hState
    rcases hProgress with ⟨rfl, hSettled⟩ | ⟨rfl, hLess⟩
    · refine ⟨v, ?_, hBuilt, hOrder, hFinal, hSettled⟩
      rw [settle, hPass]
      rfl
    · obtain ⟨w, hRun, hResult⟩ := ih hFinal.restart (by omega)
      refine ⟨w, ?_, hResult⟩
      rwa [settle, hPass]

end Passes

/- At first only the entry has a guess. -/
theorem settling_initial (hInside : g.entry < g.size)
    (hOrder : g.DepthFirst order) : Settling g order 1 (.initial g.size g.entry) := by
  have hSlot : g.entry < (⟨Array.replicate g.size none⟩ : Guesses).slots.size := by
    simpa using hInside
  have hGet : ∀ n, (Guesses.initial g.size g.entry).get? n =
      if n = g.entry then some g.entry else none := by
    intro n
    unfold initial
    rw [get?_set hSlot]
    simp only [Guesses.get?, Array.getElem?_replicate]
    split
    next => rfl
    next => split <;> rfl
  have hOnly : ∀ n p, (Guesses.initial g.size g.entry).get? n = some p →
        n = g.entry ∧ p = g.entry := by
    intro n p hGuess
    rw [hGet n] at hGuess
    split at hGuess
    next hSame =>
      cases hGuess
      exact ⟨hSame, rfl⟩
    next => cases hGuess
  have hOnlySome : ∀ n, ((Guesses.initial g.size g.entry).get? n).isSome → n = g.entry := by
    intro n hHas
    obtain ⟨p, hGuess⟩ := Option.isSome_iff_exists.mp hHas
    exact (hOnly n p hGuess).1
  exact
    { size := by simp [initial]
      entry := by simp [hGet]
      listed n hHas := hOnlySome n hHas ▸ (hOrder.mem_iff _).mpr g.reachable_entry
      closed n p hGuess := by simp [hGet, (hOnly n p hGuess).2]
      falls n p hGuess hOther := absurd (hOnly n p hGuess).1 hOther
      visited n hIn hRank := by
        have hZero : order.idxOf n = order.idxOf g.entry := by
          rw [hOrder.idxOf_entry]
          omega
        simp [hGet, (idxOf_inj hIn).mp hZero]
      covers n p d hGuess hOther := absurd (hOnly n p hGuess).1 hOther
      lowers n p c hGuess hOther := absurd (hOnly n p hGuess).1 hOther
      shares n q z hHas hOther := absurd (hOnlySome n hHas) hOther }

end Dominators

end AffineIR
