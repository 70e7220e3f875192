import AffineIR.Proofs.Run.Order
import AffineIR.Proofs.Run.Vectors

/-
  Ways that lead through a gate.

  A gate is a branch that is taken at one point of the loops
  inside a way.  If these loops come to that point whenever
  they are entered, the gate is passed once for each vector of
  the loops outside, and the vectors of the way are those of
  the outer loops with the point behind each.

  Main result: `Prog.Tours.through`
-/

namespace AffineIR

open List Option

variable {gate : Act} {after before point u v xs : List Int} {vars : List ValueId}
  {inner outer : List Mark} {p q : Prog} {var : ValueId}

namespace Prog

variable {w w' : List Mark} {σ : Store} {vs us : List (List Int)} {is : List Int}
  {f f' : Int → Option (List (List Int))}

theorem exists_of_prolong_cons {i : Int} (hAll : prolong (i :: is) f = some vs) :
    ∃ first others, f i = some first ∧ prolong is f = some others ∧
      vs = first.map (i :: ·) ++ others := by
  rw [prolong_cons] at hAll
  obtain ⟨first, hFirst, hRest⟩ := bind_eq_some_iff.mp hAll
  obtain ⟨others, hOthers, hEq⟩ := map_eq_some_iff.mp hRest
  exact ⟨first, others, hFirst, hOthers, hEq.symm⟩

/- What begins with the given values, and how it goes on. -/
theorem exists_of_mem_prolong (hAll : prolong is f = some vs)
    (hMem : v ∈ vs) : ∃ i ∈ is, ∃ rest u, f i = some rest ∧ u ∈ rest ∧ v = i :: u := by
  induction is generalizing vs with
  | nil =>
    cases hAll
    cases hMem
  | cons i is ih =>
    obtain ⟨first, others, hFirst, hOthers, rfl⟩ := exists_of_prolong_cons hAll
    rcases mem_append.mp hMem with hHere | hLater
    · obtain ⟨u, hIn, rfl⟩ := mem_map.mp hHere
      exact ⟨i, mem_cons_self, first, u, hFirst, hIn, rfl⟩
    · obtain ⟨j, hIn, hRest⟩ := ih hOthers hLater
      exact ⟨j, mem_cons_of_mem _ hIn, hRest⟩

theorem length_of_vectors? (hVectors : vectors? w σ = some vs)
    (hMem : v ∈ vs) : v.length = (varsOf w).length := by
  induction w generalizing σ v vs with
  | nil =>
    cases hVectors
    rw [mem_singleton.mp hMem]
    rfl
  | cons k w ih =>
    cases k with
    | past a => exact ih hVectors hMem
    | inside a var =>
      obtain ⟨is, _, hAll⟩ := bind_eq_some_iff.mp hVectors
      obtain ⟨i, _, rest, u, hRest, hIn, rfl⟩ := exists_of_mem_prolong hAll hMem
      exact congrArg (· + 1) (ih hRest hIn)
    | branch a taken =>
      obtain ⟨here, _, hRest⟩ := bind_eq_some_iff.mp hVectors
      split at hRest
      · exact ih hRest hMem
      · cases hRest
        cases hMem

theorem nodup_of_prolong (hNodup : is.Nodup)
    (hEach : ∀ i ∈ is, ∀ rest, f i = some rest → rest.Nodup)
    (hAll : prolong is f = some vs) : vs.Nodup := by
  induction is generalizing vs with
  | nil =>
    cases hAll
    exact .nil
  | cons i is ih =>
    obtain ⟨first, others, hFirst, hOthers, rfl⟩ := exists_of_prolong_cons hAll
    obtain ⟨hNew, hNodup⟩ := nodup_cons.mp hNodup
    obtain ⟨hHead, hTail⟩ := forall_mem_cons.mp hEach
    refine List.Nodup.append ?_ (ih hNodup hTail hOthers) ?_
    · exact (hHead first hFirst).map fun _ _ hSame => (List.cons.inj hSame).2
    · intro v hHere hLater
      obtain ⟨u, _, rfl⟩ := mem_map.mp hHere
      obtain ⟨j, hIn, _, _, _, _, hEq⟩ := exists_of_mem_prolong hOthers hLater
      rw [(List.cons.inj hEq).1] at hNew
      exact hNew hIn

/- The loops of a way do not come to the same vector again. -/
theorem nodup_of_vectors? (hVectors : vectors? w σ = some vs) : vs.Nodup := by
  induction w generalizing σ vs with
  | nil =>
    cases hVectors
    exact nodup_singleton _
  | cons k w ih =>
    cases k with
    | past a => exact ih hVectors
    | inside a var =>
      obtain ⟨is, hValues, hAll⟩ := bind_eq_some_iff.mp hVectors
      refine nodup_of_prolong ?_ (fun i _ rest hRest => ih hRest) hAll
      exact (Act.pairwise_of_values? hValues).imp Int.ne_of_lt
    | branch a taken =>
      obtain ⟨here, _, hRest⟩ := bind_eq_some_iff.mp hVectors
      split at hRest
      · exact ih hRest
      · cases hRest
        exact .nil

------
-- Gates
------

/- A way that enters no branch. -/
def Straight (w : List Mark) : Prop := ∀ a taken, Mark.branch a taken ∉ w

theorem straight_of_cons {k : Mark} (hStraight : Straight (k :: w)) : Straight w :=
  fun a taken hMem => hStraight a taken (mem_cons_of_mem _ hMem)

/- The loops that a way enters, outermost first. -/
def ringsOf : List Mark → List Act
  | [] => []
  | .inside a _ :: w => a :: ringsOf w
  | .past _ :: w => ringsOf w
  | .branch _ _ :: w => ringsOf w

/- A conditional that holds where its variables are at a point. -/
def Gate (a : Act) (vars : List ValueId) (point : List Int) : Prop :=
  ∀ ⦃ρ holds xs⦄, a.holds? ρ = some holds →
    vars.map ρ.env = indexed xs → (holds = true ↔ xs = point)

/- A loop comes to the numbers that are related to it. -/
def Comes (R : Act → Int → Prop) (a : Act) (σ : Store) : Prop :=
  ∀ is c, a.values? σ = some is → R a c → c ∈ is

/- Of the vectors, only those with one number in front go on. -/
theorem prolong_only {c : Int} {armed : Prop} [Decidable armed] (hNodup : is.Nodup)
    (hEach : ∀ i ∈ is, ∀ rest, f i = some rest → rest = if armed ∧ i = c then [u] else [])
    (hAll : prolong is f = some vs) : vs = if armed ∧ c ∈ is then [c :: u] else [] := by
  induction is generalizing vs with
  | nil =>
    cases hAll
    simp
  | cons i is ih =>
    obtain ⟨first, others, hFirst, hOthers, rfl⟩ := exists_of_prolong_cons hAll
    obtain ⟨hNew, hNodup⟩ := nodup_cons.mp hNodup
    obtain ⟨hHead, hTail⟩ := forall_mem_cons.mp hEach
    rw [hHead first hFirst, ih hNodup hTail hOthers]
    by_cases hHere : i = c
    · subst hHere
      by_cases hArmed : armed <;> simp [hArmed, hNew]
    · have hThere : c ∈ i :: is ↔ c ∈ is := by simp [Ne.symm hHere]
      simp [hHere, hThere]

theorem map_env_count (hVars : vars.map σ.env = indexed xs) (hNew : var ∉ vars)
    (i : Int) : (vars ++ [var]).map (σ.count var i).env = indexed (xs ++ [i]) := by
  have hOthers : vars.map (σ.count var i).env = vars.map σ.env := by
    apply map_congr_left
    intro v hMem
    exact Store.env_assign_of_ne _ _ fun hSame => hNew (hSame ▸ hMem)
  unfold indexed at hVars ⊢
  rw [map_append, map_append, hOthers, hVars]
  congr 1
  exact congrArg ([·]) (Store.env_assign_self ..)

/-
  The loops entered so far are where the gate wants them, or
  not; the other loops come to their part of the point once.
-/
theorem vectors?_gate {R : Act → Int → Prop} (hStraight : Straight w)
    (hInner : ∀ k ∈ w', ∃ a, k = Mark.past a)
    (hGate : Gate gate (vars ++ varsOf w) (before ++ after)) (hVars : vars.map σ.env = indexed xs)
    (hLength : xs.length = before.length) (hNodup : (vars ++ varsOf w).Nodup)
    (hPoint : List.Forall₂ R (ringsOf w) after) (hComes : Everywhere (Comes R) w σ)
    (hVectors : vectors? (w ++ .branch gate true :: w') σ = some vs) :
    vs = if xs = before then [after] else [] := by
  induction w generalizing σ vars xs before after vs with
  | nil =>
    cases hPoint
    obtain ⟨here, hHolds, hRest⟩ := bind_eq_some_iff.mp hVectors
    have hIff : here = true ↔ xs = before := by
      rw [varsOf, loopsOf, map_nil, append_nil, append_nil] at hGate
      exact hGate hHolds hVars
    have hPast : vectors? w' σ = some [[]] := by
      clear hVectors hRest
      induction w' with
      | nil => rfl
      | cons k w' ih =>
        obtain ⟨⟨a, rfl⟩, hTail⟩ := forall_mem_cons.mp hInner
        exact ih hTail
    rw [hPast] at hRest
    by_cases hTrue : here = true
    · rw [if_pos hTrue] at hRest
      rw [if_pos (hIff.mp hTrue)]
      exact (Option.some.inj hRest).symm
    · rw [if_neg hTrue] at hRest
      rw [if_neg (fun hSame => hTrue (hIff.mpr hSame))]
      exact (Option.some.inj hRest).symm
  | cons k w ih =>
    have hRest := straight_of_cons hStraight
    cases k with
    | past a => exact ih hRest hGate hVars hLength hNodup hPoint hComes hVectors
    | branch a taken => exact absurd mem_cons_self (hStraight a taken)
    | inside a var =>
      change (vars ++ var :: varsOf w).Nodup at hNodup
      change List.Forall₂ R (a :: ringsOf w) after at hPoint
      rcases hPoint with _ | @⟨_, c, _, after, hHere, hPoint⟩
      obtain ⟨is, hValues, hAll⟩ := bind_eq_some_iff.mp hVectors
      have hNew : var ∉ vars := fun hMem => (nodup_append.mp hNodup).2.2 _ hMem _ mem_cons_self rfl
      have hEach (i : Int) (hMem : i ∈ is) (rest : List (List Int))
          (hSome : vectors? (w ++ .branch gate true :: w') (σ.count var i) = some rest) :
          rest = if xs = before ∧ i = c then [after] else [] := by
        have hGate' : Gate gate (vars ++ [var] ++ varsOf w) (before ++ [c] ++ after) := by
          rwa [List.append_assoc, List.append_assoc]
        have hNodup' : (vars ++ [var] ++ varsOf w).Nodup := by rwa [List.append_assoc]
        have hOne := ih hRest hGate' (map_env_count hVars hNew i)
          (by simp [hLength]) hNodup' hPoint (hComes.2 is hValues i hMem) hSome
        rw [hOne]
        congr 1
        rw [append_eq_append_iff_of_size_eq_left hLength]
        simp
      have hOnly := prolong_only ((Act.pairwise_of_values? hValues).imp Int.ne_of_lt) hEach hAll
      simp only [hOnly, hComes.1 is c hValues hHere, and_true]

/- What comes behind each vector of the outer loops. -/
theorem prolong_through
    (hEach : ∀ i ∈ is, ∀ rest, f i = some rest → ∃ us, f' i = some us ∧ rest = us.map (· ++ point))
    (hAll : prolong is f = some vs) : ∃ us, prolong is f' = some us ∧ vs = us.map (· ++ point) := by
  induction is generalizing vs with
  | nil =>
    cases hAll
    exact ⟨[], rfl, rfl⟩
  | cons i is ih =>
    obtain ⟨first, others, hFirst, hOthers, rfl⟩ := exists_of_prolong_cons hAll
    obtain ⟨hHead, hTail⟩ := forall_mem_cons.mp hEach
    obtain ⟨us₁, hUs₁, rfl⟩ := hHead first hFirst
    obtain ⟨us₂, hUs₂, rfl⟩ := ih hTail hOthers
    refine ⟨us₁.map (i :: ·) ++ us₂, ?_, ?_⟩
    · rw [prolong_cons, hUs₁, hUs₂]
      rfl
    · simp

/-
  The gate is passed once for each vector of the loops outside,
  with the loops inside at the point.
-/
theorem vectors?_through {R : Act → Int → Prop} (hOuter : Straight outer)
    (hStraight : Straight inner) (hInner : ∀ k ∈ w', ∃ a, k = Mark.past a)
    (hGate : Gate gate (varsOf inner) point) (hNodup : (varsOf inner).Nodup)
    (hPoint : List.Forall₂ R (ringsOf inner) point)
    (hComes : Everywhere (Comes R) (outer ++ inner) σ)
    (hVectors : vectors? (outer ++ (inner ++ .branch gate true :: w')) σ = some vs) :
    ∃ us, vectors? outer σ = some us ∧ vs = us.map (· ++ point) := by
  induction outer generalizing σ vs with
  | nil =>
    refine ⟨[[]], rfl, ?_⟩
    have hGate' : Gate gate ([] ++ varsOf inner) ([] ++ point) := hGate
    have hNone : [].map σ.env = indexed [] := rfl
    exact vectors?_gate hStraight hInner hGate' hNone rfl hNodup hPoint hComes hVectors
  | cons k outer ih =>
    have hRest := straight_of_cons hOuter
    cases k with
    | past a => exact ih hRest hComes hVectors
    | branch a taken => exact absurd mem_cons_self (hOuter a taken)
    | inside a var =>
      obtain ⟨is, hValues, hAll⟩ := bind_eq_some_iff.mp hVectors
      have hEach (i : Int) (hMem : i ∈ is) (rest : List (List Int))
          (hSome : vectors? (outer ++ (inner ++ .branch gate true :: w'))
            (σ.count var i) = some rest) :
          ∃ us, vectors? outer (σ.count var i) = some us ∧ rest = us.map (· ++ point) :=
        ih hRest (hComes.2 is hValues i hMem) hSome
      obtain ⟨us, hUs, hEq⟩ := prolong_through hEach hAll
      refine ⟨us, ?_, hEq⟩
      simp only [vectors?, hValues, bind_some]
      exact hUs

theorem Everywhere.of_append {P : Act → Store → Prop}
    (hAll : Everywhere P (w ++ w') σ) : Everywhere P w σ := by
  induction w generalizing σ with
  | nil => trivial
  | cons k w ih =>
    cases k with
    | past a => exact ih hAll
    | inside a var =>
      exact ⟨hAll.1, fun is hValues i hMem => ih (hAll.2 is hValues i hMem)⟩
    | branch a taken => exact fun hHolds => ih (hAll hHolds)

theorem varsOf_append : varsOf (w ++ w') = varsOf w ++ varsOf w' := by
  unfold varsOf
  rw [loopsOf_append, map_append]

theorem ringsOf_append : ringsOf (w ++ w') = ringsOf w ++ ringsOf w' := by
  induction w with
  | nil => rfl
  | cons k w ih => cases k <;> simp [ringsOf, ih]

/- The second part of a way asks for what the first part does not bind. -/
theorem asks_append {v : ValueId}
    (hAsks : Asks (w ++ w') v) : Asks w v ∨ v ∉ varsOf w ∧ Asks w' v := by
  induction w with
  | nil => exact .inr ⟨not_mem_nil, hAsks⟩
  | cons k w ih =>
    cases k with
    | past a => exact ih hAsks
    | inside a var =>
      rcases hAsks with hMem | ⟨hOther, hAsks⟩
      · exact .inl (.inl hMem)
      · exact (ih hAsks).imp (fun hHere => .inr ⟨hOther, hHere⟩) fun ⟨hFree, hThere⟩ =>
            ⟨not_mem_cons_of_ne_of_not_mem hOther hFree, hThere⟩
    | branch a taken =>
      rcases hAsks with hMem | hAsks
      · exact .inl (.inl hMem)
      · exact (ih hAsks).imp .inr id

theorem Leads.binds_of_mem {v : ValueId} (hLeads : p.Leads w q)
    (hMem : v ∈ varsOf w) : p.Binds v := by
  obtain ⟨⟨l, v⟩, hLoop, rfl⟩ := mem_map.mp hMem
  obtain ⟨a, hMark, rfl⟩ := mem_loopsOf_iff.mp hLoop
  obtain ⟨_, _, _, _, _, hFirst, hOpens, _⟩ := hLeads.at_mark hMark
  cases hOpens
  exact hFirst.binds (.inl rfl)

/- The loops on a way have different variables. -/
theorem Leads.nodup_varsOf (hLeads : p.Leads w q) (hFresh : p.Fresh) : (varsOf w).Nodup := by
  induction hLeads with
  | here => exact .nil
  | act _ ih => exact ih hFresh
  | body hBody ih =>
    exact nodup_cons.mpr ⟨fun hMem => hFresh.1 (hBody.binds_of_mem hMem), ih hFresh.2.1⟩
  | loop _ ih => exact ih hFresh.2.2
  | branch _ ih => exact ih (hFresh.1 _)
  | cond _ ih => exact ih hFresh.2

/-
  A statement behind a gate is executed once for each vector of
  the loops outside, with their variables holding the vector.
-/
theorem Tours.through {R : Act → Int → Prop} {t : Trace} {h : OpId}
    (hTours : Tours (outer ++ (inner ++ .branch gate true :: w')) σ t h) (hOuter : Straight outer)
    (hStraight : Straight inner) (hInner : ∀ k ∈ w', ∃ a, k = Mark.past a)
    (hGate : Gate gate (varsOf inner) point) (hNodup : (varsOf inner).Nodup)
    (hPoint : List.Forall₂ R (ringsOf inner) point) (hComes : ∀ {a σ}, Meets t a σ → Comes R a σ) :
    ∃ us, vectors? outer σ = some us ∧ (t.visits h).map (fun ρ => (varsOf outer).map ρ.env) =
        us.map indexed := by
  obtain ⟨vs, hVectors, hVisits⟩ := hTours.visits
  have hLoops : Everywhere (Comes R) (outer ++ inner) σ := by
    have hAll := hTours.loops
    rw [← List.append_assoc] at hAll
    exact hAll.of_append.mono hComes
  rcases vectors?_through hOuter hStraight hInner hGate hNodup hPoint hLoops
    hVectors with ⟨us, hUs, rfl⟩
  refine ⟨us, hUs, ?_⟩
  -- the outer variables are the first ones of the way
  have hTake (ρ : Store) : (varsOf outer).map ρ.env =
      ((varsOf (outer ++ (inner ++ .branch gate true :: w'))).map ρ.env).take
        (varsOf outer).length := by
    rw [varsOf_append, List.map_append, List.take_left' (by simp)]
  have hFront (u : List Int) (hMem : u ∈ us) :
      (indexed (u ++ point)).take (varsOf outer).length = indexed u := by
    unfold indexed
    rw [List.map_append, List.take_left' (by simp [length_of_vectors? hUs hMem])]
  calc (t.visits h).map (fun ρ => (varsOf outer).map ρ.env) = ((t.visits h).map fun ρ =>
          (varsOf (outer ++ (inner ++ .branch gate true :: w'))).map
            ρ.env).map (List.take (varsOf outer).length) := by
        rw [List.map_map]
        exact List.map_congr_left fun ρ _ => hTake ρ
    _ = us.map fun u =>
          (indexed (u ++ point)).take (varsOf outer).length := by
        rw [hVisits, List.map_map, List.map_map]
        rfl
    _ = us.map indexed := List.map_congr_left hFront

end Prog

end AffineIR
