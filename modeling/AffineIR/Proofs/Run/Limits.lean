import AffineIR.Proofs.Run.Definedness

/-
  The limit of a run.

  A run that is allowed more operations does the same as long
  as it needs no more than before, so a limit that is not
  reached has no influence.  Every round of a loop and every
  branch counts an operation, so no run goes on for ever below
  its limit.

  Main result: `Function.step_limit_bounds`
-/

namespace AffineIR

open Exec

variable {m m' : Machine}

theorem Exec.count_counted (m : Machine) (h k : OpId) :
    (counted m h).count k = m.count k + if k = h then 1 else 0 := by
  change ((m.counts.insert h (m.count h + 1)).get? k).getD 0 = _
  rw [Table.get?_insert]
  by_cases hSame : k = h
  · simp [hSame]
  · simp [hSame, Machine.count]

theorem Exec.sum_counted (m : Machine) (h : OpId) (s : Finset OpId) :
    ∑ k ∈ s, (counted m h).count k ≤ ∑ k ∈ s, m.count k + 1 := by
  simp only [count_counted, Finset.sum_add_distrib, Finset.sum_ite_eq']
  split <;> omega

namespace Pact

variable (limit more : Nat) (before : Finset OpId → Nat) (last : Nat)

/-
  A machine that has counted some operations, and one with
  another limit.  The first one may stop at its limit; it runs
  out of fuel only if its limit is high enough.
-/
def metered (i : Nat) : Pact where
  limits k l := k = limit ∧ l = more
  holds m := i ≤ m.steps ∧ m.steps ≤ limit ∧ ∀ s, ∑ h ∈ s, m.count h ≤ before s + m.steps
  shares e := e ≠ .endless
  stops e m := (e = .trap (.stepLimit limit) ∨ e = .endless ∧ last ≤ limit) ∧
    ∀ s, ∑ h ∈ s, m.count h ≤ before s + limit
  own hOther hSame := by
    subst hSame
    cases hOther

theorem keeps_metered (i : Nat) (o : Operation) : (metered limit more before last i).Keeps o where
  unbound _ _ _ := nofun
  overrun _ _ _ _ := nofun
  scalar _ _ hHolds := hHolds
  copy _ _ _ hHolds := hHolds
  alloc _ _ hHolds := hHolds
  read _ _ _ := id
  write _ _ _ _ hHolds := hHolds
  free _ _ hHolds := hHolds

theorem sides_endless {i : Nat} {x : Exec Flow} {P : Flow → Prop}
    (hLast : last ≤ i) : (metered limit more before last i).Sides (throw .endless) x P := by
  intro m n hAlike ⟨hSteps, hLimit, hSum⟩
  exact .inl ⟨.inr ⟨rfl, by omega⟩, fun s => (hSum s).trans (by omega)⟩

theorem chain_metered (g : Graph)
    (hMore : limit ≤ more) : Chain (metered limit more before last) g fun _ => True where
  tick {i h x y P} hRest := by
    intro m n hAlike ⟨hSteps, hLimit, hSum⟩
    obtain ⟨hFirst, hSecond⟩ := hAlike.limits
    have hSame := hAlike.steps
    rw [outcome_bind, outcome_bind]
    by_cases hFits : m.steps + 1 ≤ m.limit
    · rw [outcome_tick_of_le h hFits, outcome_tick_of_le h (by omega)]
      have hRest := hRest (hAlike.counted h) ⟨Nat.succ_le_succ hSteps, hFirst ▸ hFits, fun s =>
        (sum_counted m h s).trans (Nat.succ_le_succ (hSum s))⟩
      dsimp only
      generalize outcome x (counted m h) = out at hRest ⊢
      obtain ⟨e | flow, m'⟩ := out
      · refine hRest.imp_right fun ⟨hShares, n', hSame, hAlike', hHolds⟩ => ?_
        exact ⟨hShares, n', hSame, hAlike', Nat.le_of_succ_le hHolds.1, hHolds.2⟩
      · obtain ⟨hP, n', hSame, hAlike', hHolds⟩ := hRest
        exact ⟨hP, n', hSame, hAlike', Nat.le_of_succ_le hHolds.1, hHolds.2⟩
    · rw [outcome_tick_of_lt h (by omega)]
      exact .inl ⟨.inl (by rw [hFirst]), fun s => (hSum s).trans (by omega)⟩
  keeps _ _ _ _ i := keeps_metered limit more before last i _
  branch _ _ _ _ _ _ := trivial
  enter _ _ _ _ _ _ _ := trivial

end Pact

namespace Function

variable {f : Function} {x : OpId} {o : Operation} {r : RegionId} {flow : Flow} {fuel : Nat}

/- A block with operations counts one of them before it is left. -/
theorem steps_lt_of_blockUpTo {g : Graph} {b : BlockId} {blk : Block} (hBlock : g.block b = .ok blk)
    (hSome : blk.ops ≠ [])
    (hOutcome : outcome (blockUpTo g fuel b) m = (.ok flow, m')) : m.steps < m'.steps := by
  cases fuel with
  | zero => cases hOutcome
  | succ fuel =>
    rcases hOps : blk.ops with _ | ⟨h, rest⟩
    · exact absurd hOps hSome
    have hUnfold : blockUpTo g (fuel + 1) b = tick h >>= fun _ =>
        op g (region g (blockUpTo g fuel)) h >>=
          onward g (region g (blockUpTo g fuel)) rest (follow (blockUpTo g fuel)) := by
      rw [← ops_cons_bind, ← hOps]
      change (ask (g.block b) >>= _) = _
      rw [hBlock]
      rfl
    rw [hUnfold, outcome_bind] at hOutcome
    by_cases hFits : m.steps + 1 ≤ m.limit
    · rw [outcome_tick_of_le h hFits] at hOutcome
      -- what was counted stays counted
      have hChain := Pact.chain_metered m.limit m.limit (fun s => ∑ h ∈ s, m.count h) 0 g le_rfl
      have hBlocks (i : Nat) (c : BlockId) :=
        hChain.sides_blockUpTo (b := c) (i := i) 0 0 fuel
          (fun _ _ => Pact.sides_endless _ _ _ _) trivial (Nat.zero_le _)
      rw [Nat.zero_add] at hBlocks
      have hMem : ∀ k ∈ h :: rest, k ∈ blk.ops := hOps ▸ fun _ => id
      have hRest := hChain.sides_onward trivial hBlock (hMem h List.mem_cons_self)
        (fun c _ => hBlocks (m.steps + 1) c) (hChain.sides_ops trivial hBlock
          (fun k hIn => hMem k (List.mem_cons_of_mem h hIn)) fun c j _ _ => hBlocks j c)
        (m := counted m h) (.refl ⟨rfl, rfl⟩)
        ⟨le_rfl, hFits, fun s => (sum_counted m h s).trans (by simp [counted])⟩
      dsimp only at hOutcome
      rw [hOutcome] at hRest
      obtain ⟨_, _, _, _, hSteps, _⟩ := hRest
      exact hSteps
    · rw [outcome_tick_of_lt h (by omega)] at hOutcome
      cases hOutcome

/- Every round of a loop of a valid function counts an operation. -/
theorem steps_lt_of_round (hValid : f.problems = .ok []) (hReached : f.graph.Reached f.body x)
    (hOp : f.graph.op x = .ok o) (hKind : o.kind.isLoop = true) (hMem : r ∈ o.regions)
    (hOutcome : outcome (region f.graph (blockUpTo f.graph fuel) r) m = (.ok flow, m')) :
    m.steps < m'.steps := by
  have hLoop : ∃ lower upper step, o.kind = .loop lower upper step := by
    cases hIs : o.kind <;> simp_all [Kind.isLoop]
  obtain ⟨lower, upper, step, hIs⟩ := hLoop
  rcases shape_of_loop (kinds_of_reached hValid hReached).2.1 hOp hIs with
    ⟨_, r', reg, b, blk, _, hRegions, hRegion, hBlocks, hBlock, _⟩
  rw [hRegions, List.mem_singleton] at hMem
  subst hMem
  obtain ⟨depth, hSound⟩ := sound_of_reached hValid hReached
  rcases closed_of_sound (hSound hOp (by simp [hRegions])) hOp (.inl hKind) hRegion hBlocks
    hBlock with ⟨_, xs, y, _, hOps, _⟩
  have hEntry : f.graph.entryBlock? r = .ok (some b) := by
    simp [Graph.entryBlock?, hRegion, hBlocks, bind, Except.bind, pure, Except.pure]
  unfold Exec.region at hOutcome
  rw [hEntry] at hOutcome
  exact steps_lt_of_blockUpTo hBlock (by simp [hOps]) hOutcome

/- A run on a new machine that has some buffers. -/
def runWithin (f : Function) (args : List Datum) (buffers : Array Buffer)
    (limit : Nat) : Except Failure (List Datum) × Machine :=
  (f.run args).outcome { buffers := buffers, limit := limit }

/-
  A run on a new machine counts no more operations than its
  limit, whatever its branches and loops do: it never goes on
  without counting.  A limit that does not stop a run does not
  change it.
-/
theorem step_limit_bounds (f : Function) (args : List Datum) (buffers : Array Buffer)
    (limit more : Nat) (hValid : f.problems = .ok []) (hMore : limit ≤ more) :
    ((f.runWithin args buffers limit).1 ≠ .error .endless ∧
      ∀ s : Finset OpId, ∑ h ∈ s, (f.runWithin args buffers limit).2.count h ≤ limit) ∧
    (∀ x o r fuel flow m m', f.graph.Reached f.body x → f.graph.op x = .ok o →
      o.kind.isLoop = true → r ∈ o.regions →
      outcome (region f.graph (blockUpTo f.graph fuel) r) m = (.ok flow, m') →
      m.steps < m'.steps) ∧
    ((f.runWithin args buffers limit).1 ≠ .error (.trap (.stepLimit limit)) →
      (f.runWithin args buffers more).1 = (f.runWithin args buffers limit).1 ∧
      (f.runWithin args buffers more).2.buffers = (f.runWithin args buffers limit).2.buffers ∧
      ∀ h, (f.runWithin args buffers more).2.count h =
        (f.runWithin args buffers limit).2.count h) := by
  have hChain := Pact.chain_metered limit more (fun _ => 0) (limit + 1) f.graph hMore
  have hSides : (Pact.metered limit more (fun _ => 0) (limit + 1) 0).Passes (f.run args) := by
    refine Pact.sides_run args (fun hHolds => hHolds) fun b k l _ hLimits => ?_
    rw [hLimits.1, hLimits.2, show more + 1 = more - limit + (limit + 1) by omega]
    exact hChain.sides_blockUpTo _ _ _ (fun _ _ => Pact.sides_endless _ _ _ _) trivial (by omega)
  have hStart (s : Finset OpId) :
      ∑ h ∈ s, ({ buffers := buffers, limit := limit } : Machine).count h = 0 :=
    Finset.sum_eq_zero fun h _ => by simp [Machine.count, Table.get?]
  have hAlike : ({ buffers := buffers, limit := limit } : Machine).Alike
      (fun k l => k = limit ∧ l = more) (fun _ => False) { buffers := buffers, limit := more } :=
    ⟨rfl, rfl, rfl, ⟨rfl, rfl⟩, rfl, fun _ => rfl, fun _ => rfl⟩
  have hHolds : (Pact.metered limit more (fun _ => 0) (limit + 1) 0).holds
      { buffers := buffers, limit := limit } :=
    ⟨Nat.zero_le _, Nat.zero_le _, fun s => by rw [hStart]; exact Nat.zero_le _⟩
  refine ⟨?_, fun x o r fuel flow m m' => steps_lt_of_round hValid, fun hOther => ?_⟩
  · have hOut := hSides hAlike hHolds
    have hTotal
        {m : Machine}
        (hHolds : (Pact.metered limit more (fun _ => 0) (limit + 1) 0).holds m)
        (s : Finset OpId) : ∑ h ∈ s, m.count h ≤ limit := by
      have hSum : ∑ h ∈ s, m.count h ≤ 0 + m.steps := hHolds.2.2 s
      have hSteps : m.steps ≤ limit := hHolds.2.1
      omega
    unfold runWithin
    generalize outcome (f.run args) { buffers := buffers, limit := limit } = out at hOut ⊢
    obtain ⟨e | values, m'⟩ := out
    · rcases hOut with ⟨rfl | ⟨_, hLast⟩, hSum⟩ | ⟨hShares, _, _, _, hHolds⟩
      · exact ⟨by simp, fun s => by simpa using hSum s⟩
      · omega
      · exact ⟨fun hEndless => hShares (Except.error.inj hEndless), hTotal hHolds⟩
    · obtain ⟨_, _, _, _, hHolds⟩ := hOut
      exact ⟨by simp, hTotal hHolds⟩
  · have hGoes (e : Failure) (m' : Machine)
        (hError : outcome (f.run args) { buffers := buffers, limit := limit } = (.error e, m')) :
        ¬(Pact.metered limit more (fun _ => 0) (limit + 1) 0).stops e m' := by
      rintro ⟨rfl | ⟨_, hLast⟩, _⟩
      · exact hOther (by rw [runWithin, hError])
      · omega
    obtain ⟨hSame, hAfter, _⟩ := hSides.same hAlike hHolds hGoes
    exact ⟨hSame, hAfter.buffers_eq fun _ => id, hAfter.count_eq⟩

theorem forked_step_limit_bounds :
    forked.problems = .ok [] ∧
    (forked.runWithin [.scalar (.bool true)] #[] 3).1 = .error (.trap (.stepLimit 3)) ∧
    (∀ s : Finset OpId,
      ∑ h ∈ s, (forked.runWithin [.scalar (.bool true)] #[] 3).2.count h ≤ 3) ∧
    (forked.runWithin [.scalar (.bool true)] #[] 20).1 = .ok [.scalar (.i32 6)] ∧
    (forked.runWithin [.scalar (.bool true)] #[] 1000).1 = .ok [.scalar (.i32 6)] := by
  have hBounds (limit : Nat) (hMore : limit ≤ 1000) :=
    step_limit_bounds forked [.scalar (.bool true)] #[] limit 1000 forked_problems hMore
  have hEnds : (forked.runWithin [.scalar (.bool true)] #[] 20).1 = .ok [.scalar (.i32 6)] := by
    decide +kernel
  refine ⟨forked_problems, by decide +kernel, (hBounds 3 (by decide)).1.2, hEnds, ?_⟩
  rw [((hBounds 20 (by decide)).2.2 (hEnds ▸ nofun)).1, hEnds]

end Function

end AffineIR
