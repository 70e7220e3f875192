import AffineIR.Proofs.Affine.Exact
import AffineIR.Proofs.Graph.Nesting
import AffineIR.Proofs.Run.Standing

/-
  The order in which statements are executed.

  Of two statements that a program arrives at, one after the
  other, either the variable of a loop around both is larger
  the second time, all outer ones being the same, or the
  variables of all loops around both are the same and the
  first statement precedes the second one in the text.

  Main declarations:
    * `Prog.Earlier`, `Prog.Arrives.earlier`
-/

namespace AffineIR

open Answer List Option

namespace Act

variable {step i j lower upper : Int}

theorem add_succ_mul (i step : Int) (k : Nat) : i + (k + 1 : Nat) * step = i + step + k * step := by
  grind

/-
  The values of a loop are whole steps above the first and below
  a bound.  The next one is not below it, or is not a word.
-/
theorem iterationsBetween_eq (hStep : 0 < step) (i upper : Int) : ∃ count : Nat,
    iterationsBetween i upper step = (range count).map (fun k : Nat => i + k * step) ∧
      (∀ k < count, i + k * step < upper) ∧
      (upper ≤ i + count * step ∨ 0 < count ∧ ¬Word.IsWord (i + count * step)) := by
  unfold iterationsBetween
  generalize hFuel : (upper - i).toNat = n
  replace hFuel := Nat.le_of_eq hFuel
  induction n generalizing i with
  | zero => exact ⟨0, rfl, by simp, .inl (by omega)⟩
  | succ n ih =>
    unfold iterations
    by_cases hBelow : i < upper
    · rw [if_pos hBelow]
      cases hNext : Word.add? i step with
      | none =>
        refine ⟨1, by simp, by simpa using hBelow, .inr ⟨Nat.one_pos, fun hWord => ?_⟩⟩
        rw [Int.natCast_one, Int.one_mul] at hWord
        cases (Word.fit?_eq_some_iff.mpr ⟨rfl, hWord⟩).symm.trans hNext
      | some next =>
        obtain rfl := Word.eq_of_add? hNext
        obtain ⟨count, hEq, hInside, hEnd⟩ := ih (i + step) (by omega)
        refine ⟨count + 1, ?_, ?_, ?_⟩
        · simp [hEq, range_succ_eq_map, ← add_succ_mul]
        · rintro (_ | k) hLess
          · simpa using hBelow
          · rw [add_succ_mul]
            exact hInside k (Nat.lt_of_succ_lt_succ hLess)
        · rw [add_succ_mul]
          exact hEnd.imp_right (.imp_left fun _ => Nat.succ_pos _)
    · rw [if_neg hBelow]
      exact ⟨0, rfl, by simp, .inl (by omega)⟩

theorem of_mem_iterations (hStep : 0 < step)
    (hMem : j ∈ iterationsBetween lower upper step) : lower ≤ j ∧ j < upper ∧ step ∣ j - lower := by
  obtain ⟨count, hEq, hInside, _⟩ := iterationsBetween_eq hStep lower upper
  rw [hEq] at hMem
  obtain ⟨k, hIn, rfl⟩ := mem_map.mp hMem
  have hUp := Int.mul_nonneg (Int.natCast_nonneg k) hStep.le
  exact ⟨by omega, hInside k (mem_range.mp hIn), by simp⟩

variable {a : Act} {σ : Store} {is : List Int}

/- The bounds of a loop, and the values between them. -/
theorem exists_of_values? (hValues : a.values? σ = some is) :
    ∃ lower upper step n lows ups lowers uppers first last,
      a.kind = .loop lower upper step ∧ 0 < step ∧
      lower.numInputs = .ok n ∧ entriesUpTo a.operands n = .ok lows ∧
      entriesFrom a.operands n = .ok ups ∧
      σ.map? lower lows = some lowers ∧ σ.map? upper ups = some uppers ∧
      lowers.max? = some first ∧ uppers.min? = some last ∧
      is = iterationsBetween first last step := by
  unfold values? at hValues
  split at hValues
  · rename_i lower upper step hKind
    split at hValues
    · cases hValues
    · rename_i hStep
      obtain ⟨n, hN, hRest⟩ := bind_eq_some_iff.mp hValues
      obtain ⟨lowers, hLowers, hRest⟩ := bind_eq_some_iff.mp hRest
      obtain ⟨uppers, hUppers, hRest⟩ := bind_eq_some_iff.mp hRest
      obtain ⟨lows, hLows, hLowers⟩ := bind_eq_some_iff.mp hLowers
      obtain ⟨ups, hUps, hUppers⟩ := bind_eq_some_iff.mp hUppers
      obtain ⟨first, hFirst, hRest⟩ := bind_eq_some_iff.mp hRest
      obtain ⟨last, hLast, hEq⟩ := map_eq_some_iff.mp hRest
      exact ⟨lower, upper, step, n, lows, ups, lowers, uppers, first, last,
        hKind, by omega, eq_ok_of_toOption hN,
        eq_ok_of_toOption hLows, eq_ok_of_toOption hUps, hLowers,
        hUppers, hFirst, hLast, hEq.symm⟩
  · cases hValues

theorem pairwise_of_values? (hValues : a.values? σ = some is) : is.Pairwise (· < ·) := by
  rcases exists_of_values? hValues with
    ⟨_, _, step, _, _, _, _, _, _, _, _, hStep, _, _, _, _, _, _, _, rfl⟩
  obtain ⟨count, hEq, _⟩ := iterationsBetween_eq hStep _ _
  rw [hEq, pairwise_map]
  refine pairwise_lt_range.imp fun hLess => Int.add_lt_add_left ?_ _
  exact Int.mul_lt_mul_of_pos_right (Int.ofNat_lt.mpr hLess) hStep

end Act

namespace Prog

/- A statement stands before another one, or around it. -/
def Precedes : Prog → OpId → OpId → Prop
  | nil, _, _ => False
  | act a rest, x, y => (x = a.op ∧ y ∈ rest.ids) ∨ rest.Precedes x y
  | loop a _ body rest, x, y =>
    (x = a.op ∧ (y ∈ body.ids ∨ y ∈ rest.ids)) ∨ (x ∈ body.ids ∧ y ∈ rest.ids) ∨ body.Precedes x y ∨
      rest.Precedes x y
  | cond a branch rest, x, y =>
    (x = a.op ∧ ((∃ taken, y ∈ (branch taken).ids) ∨ y ∈ rest.ids)) ∨
      ((∃ taken, x ∈ (branch taken).ids) ∧ y ∈ rest.ids) ∨
      (∃ taken, (branch taken).Precedes x y) ∨ rest.Precedes x y

/-
  The variables of common loops are the same, up to one that
  is larger the second time; or all of them are the same, and
  something else holds.
-/
def Earlier (σ τ : Store) (final : Prop) :
    List (OpId × ValueId) → List (OpId × ValueId) → Prop
  | (l, v) :: ls, (l', _) :: ls' =>
    if l = l' then
      (∃ i j, σ.env v = some (.scalar (.index i)) ∧ τ.env v = some (.scalar (.index j)) ∧ i < j) ∨
      (σ.env v = τ.env v ∧ Earlier σ τ final ls ls')
    else final
  | _, _ => final

variable {p q : Prog} {w w' : List Mark} {t : Trace} {σ τ ρ : Store} {e : Act × Store} {b : Act}

theorem Earlier.imp {final final' : Prop} {ls ls' : List (OpId × ValueId)}
    (hEarlier : Earlier σ τ final ls ls') (hImp : final → final') : Earlier σ τ final' ls ls' := by
  induction ls generalizing ls' with
  | nil => exact hImp hEarlier
  | cons l ls ih =>
    cases ls' with
    | nil => exact hImp hEarlier
    | cons l' ls' =>
      unfold Earlier at hEarlier ⊢
      by_cases hSame : l.1 = l'.1
      · rw [if_pos hSame] at hEarlier ⊢
        exact hEarlier.imp_right fun hBoth => ⟨hBoth.1, ih hBoth.2⟩
      · rw [if_neg hSame] at hEarlier ⊢
        exact hImp hEarlier

/- Loops that have nothing in common say nothing. -/
theorem earlier_of_apart {final : Prop} {ls ls' : List (OpId × ValueId)} (hFinal : final)
    (hApart : ∀ l ∈ ls, ∀ l' ∈ ls', l.1 ≠ l'.1) : Earlier σ τ final ls ls' := by
  cases ls with
  | nil => exact hFinal
  | cons l ls =>
    cases ls' with
    | nil => exact hFinal
    | cons l' ls' =>
      unfold Earlier
      rwa [if_neg (hApart l mem_cons_self l' mem_cons_self)]

/- The loops of a way are in the program. -/
theorem Leads.mem_ids_of_loop {l : OpId × ValueId} (hLeads : p.Leads w q)
    (hMem : l ∈ loopsOf w) : l.1 ∈ p.ids := by
  obtain ⟨a, hMark, hOp⟩ := mem_loopsOf_iff.mp hMem
  rw [← hOp]
  exact hLeads.mem_ids_of_mark hMark

/- Statements that a program arrives at, one after the other. -/
theorem Arrives.earlier (hNodup : p.ids.Nodup) (hScoped : p.WellScoped)
    (hArrives : p.Arrives σ w t q τ) (hHead : q.head? = some b) (hMem : e ∈ t) :
    ∃ w₁ t₁ q₁, p.Arrives σ w₁ t₁ q₁ e.2 ∧ q₁.head? = some e.1 ∧
      Earlier e.2 τ (p.Precedes e.1.op b.op) (loopsOf w₁) (loopsOf w) := by
  induction hArrives with
  | here p σ => cases hMem
  | @act a rest q w t σ σ₁ τ hStep hRest ih =>
    rcases mem_cons.mp hMem with rfl | hMem
    · exact ⟨[], [], _, .here _ σ, rfl, .inl ⟨rfl, hRest.mem_ids hHead⟩⟩
    · rcases ih (nodup_cons.mp hNodup).2 hScoped.2.2 hHead hMem with
        ⟨w₁, t₁, q₁, hFirst, hHead₁, hEarlier⟩
      exact ⟨_, _, q₁, .act hStep hFirst, hHead₁, hEarlier.imp .inr⟩
  | @body a var body rest q w is js i t₁ t₂ σ σ₁ τ hValues hEach hBody ih =>
    have hIds := loopIds hNodup
    have hVar : ¬body.Binds var := hScoped.1 var (.inr rfl)
    have hNow : τ.env var = some (.scalar (.index i)) := by
      rw [env_of_arrives hVar hBody]
      exact Store.env_assign_self ..
    rcases mem_cons.mp hMem with rfl | hMem
    · exact ⟨[], [], _, .here _ σ, rfl, .inl ⟨rfl, .inl (hBody.mem_ids hHead)⟩⟩
    · rcases mem_append.mp hMem with hMem | hMem
      · -- in an earlier iteration
        rcases arrives_of_mem_each hEach hMem with
          ⟨is₁, j, is₂, t₃, σ₃, w₁, t₄, q₁, rfl, hBefore, hFirst, hHead₁⟩
        have hThen : e.2.env var = some (.scalar (.index j)) := by
          rw [env_of_arrives hVar hFirst]
          exact Store.env_assign_self ..
        have hLess : j < i := by
          have hPairwise := Act.pairwise_of_values? hValues
          rw [List.append_assoc, List.pairwise_append] at hPairwise
          have hRest := hPairwise.2.1
          rw [cons_append, pairwise_cons] at hRest
          exact hRest.1 i (by simp)
        rw [List.append_assoc, List.cons_append] at hValues
        refine ⟨_, _, q₁, .body hValues hBefore hFirst, hHead₁, ?_⟩
        unfold loopsOf Earlier
        rw [if_pos rfl]
        exact .inl ⟨j, i, hThen, hNow, hLess⟩
      · -- in the same iteration
        rcases ih hIds.nodup_body hScoped.2.2.2.2.1 hHead hMem with
          ⟨w₁, t₃, q₁, hFirst, hHead₁, hEarlier⟩
        refine ⟨_, _, q₁, .body hValues hEach hFirst, hHead₁, ?_⟩
        unfold loopsOf Earlier
        rw [if_pos rfl]
        refine .inr ⟨?_, hEarlier.imp fun hPrecedes => .inr (.inr (.inl hPrecedes))⟩
        rw [hNow, env_of_arrives hVar hFirst]
        exact Store.env_assign_self ..
  | @loop a var body rest q w is t₁ t₂ σ σ₁ τ hValues hEach hRest ih =>
    have hIds := loopIds hNodup
    have hLater := hRest.mem_ids hHead
    rcases mem_cons.mp hMem with rfl | hMem
    · exact ⟨[], [], _, .here _ σ, rfl, .inl ⟨rfl, .inr hLater⟩⟩
    · rcases mem_append.mp hMem with hMem | hMem
      · rcases arrives_of_mem_each hEach hMem with
          ⟨is₁, j, is₂, t₃, σ₃, w₁, t₄, q₁, rfl, hBefore, hFirst, hHead₁⟩
        refine ⟨_, _, q₁, .body hValues hBefore hFirst, hHead₁, ?_⟩
        apply earlier_of_apart
        · exact .inr (.inl ⟨hFirst.mem_ids hHead₁, hLater⟩)
        · intro l hL l' hL' hEq
          have hOuter := hRest.leads.mem_ids_of_loop hL'
          rw [← hEq] at hOuter
          rcases mem_cons.mp hL with rfl | hL
          · exact hIds.head_rest hOuter
          · exact hIds.apart (hFirst.leads.mem_ids_of_loop hL) hOuter
      · rcases ih hIds.nodup_rest hScoped.2.2.2.2.2 hHead hMem with
          ⟨w₁, t₃, q₁, hFirst, hHead₁, hEarlier⟩
        exact ⟨_, _, q₁, .loop hValues hEach hFirst, hHead₁,
          hEarlier.imp fun hPrecedes => .inr (.inr (.inr hPrecedes))⟩
  | @branch a taken branch rest q w t σ τ hHolds hBranch ih =>
    have hIds := branchIds taken hNodup
    rcases mem_cons.mp hMem with rfl | hMem
    · exact ⟨[], [], _, .here _ σ, rfl, .inl ⟨rfl, .inl ⟨taken, hBranch.mem_ids hHead⟩⟩⟩
    · rcases ih hIds.nodup_body (hScoped.2.2.2.2.1 taken) hHead hMem with
        ⟨w₁, t₁, q₁, hFirst, hHead₁, hEarlier⟩
      exact ⟨_, _, q₁, .branch hHolds hFirst, hHead₁,
        hEarlier.imp fun hPrecedes => .inr (.inr (.inl ⟨taken, hPrecedes⟩))⟩
  | @cond a taken branch rest q w t₁ t₂ σ σ₁ τ hHolds hRun hRest ih =>
    have hIds := branchIds taken hNodup
    have hLater := hRest.mem_ids hHead
    rcases mem_cons.mp hMem with rfl | hMem
    · exact ⟨[], [], _, .here _ σ, rfl, .inl ⟨rfl, .inr hLater⟩⟩
    · rcases mem_append.mp hMem with hMem | hMem
      · obtain ⟨w₁, t₃, q₁, hFirst, hHead₁⟩ := arrives_of_mem_run hRun hMem
        refine ⟨_, _, q₁, .branch hHolds hFirst, hHead₁, ?_⟩
        apply earlier_of_apart
        · exact .inr (.inl ⟨⟨taken, hFirst.mem_ids hHead₁⟩, hLater⟩)
        · intro l hL l' hL' hEq
          have hOuter := hRest.leads.mem_ids_of_loop hL'
          rw [← hEq] at hOuter
          exact hIds.apart (hFirst.leads.mem_ids_of_loop hL) hOuter
      · rcases ih hIds.nodup_rest hScoped.2.2.2.2.2 hHead hMem with
          ⟨w₁, t₃, q₁, hFirst, hHead₁, hEarlier⟩
        exact ⟨_, _, q₁, .cond hHolds hRun hFirst, hHead₁,
          hEarlier.imp fun hPrecedes => .inr (.inr (.inr hPrecedes))⟩

end Prog

end AffineIR
