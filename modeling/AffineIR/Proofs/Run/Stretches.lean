import AffineIR.Proofs.Run.Order

/-
  From a statement to a later one.

  A program that arrives behind a statement has executed it,
  and what happens between the two is inside the statement or
  stands behind it.

  Main result: `Prog.Arrives.stretch`
-/

namespace AffineIR

open List

variable {e : Act × Store} {body q₁ q₂ rest : Prog}

namespace Prog

variable {p q q₀ q' : Prog} {w w₀ w' : List Mark} {t : Trace} {σ τ : Store} {a b : Act} {x y : OpId}

/- A way into a part goes through the start of the part. -/
theorem Leads.split (hNodup : p.ids.Nodup) (hPart : p.Leads w₀ q₀) (hLeads : p.Leads w q)
    (hHead : q.head? = some b) (hInside : b.op ∈ q₀.ids) : ∃ w₁, w = w₀ ++ w₁ ∧ q₀.Leads w₁ q := by
  induction hPart generalizing w with
  | here p => exact ⟨w, rfl, hLeads⟩
  | act hRest ih =>
    have hIds := nodup_cons.mp hNodup
    cases hLeads with
    | here =>
      cases hHead
      exact absurd (hRest.sublist_ids.subset hInside) hIds.1
    | act hLeads =>
      obtain ⟨w₁, rfl, hSecond⟩ := ih hIds.2 hLeads hInside
      exact ⟨w₁, rfl, hSecond⟩
  | body hBody ih =>
    have hIds := loopIds hNodup
    have hInner := hBody.sublist_ids.subset hInside
    cases hLeads with
    | here =>
      cases hHead
      exact absurd hInner hIds.head_body
    | body hLeads =>
      obtain ⟨w₁, rfl, hSecond⟩ := ih hIds.nodup_body hLeads hInside
      exact ⟨w₁, rfl, hSecond⟩
    | loop hLeads => exact absurd (hLeads.mem_ids hHead) (hIds.apart hInner)
  | loop hRest ih =>
    have hIds := loopIds hNodup
    have hOuter := hRest.sublist_ids.subset hInside
    cases hLeads with
    | here =>
      cases hHead
      exact absurd hOuter hIds.head_rest
    | body hLeads => exact absurd hOuter (hIds.apart (hLeads.mem_ids hHead))
    | loop hLeads => exact ih hIds.nodup_rest hLeads hInside
  | @branch a taken branch rest q₀ w₀ hBranch ih =>
    have hIds := branchIds taken hNodup
    have hInner := hBranch.sublist_ids.subset hInside
    cases hLeads with
    | here =>
      cases hHead
      exact absurd hInner hIds.head_body
    | branch hLeads =>
      cases eq_of_mem_branches hNodup hInner (hLeads.mem_ids hHead)
      obtain ⟨w₁, rfl, hSecond⟩ := ih hIds.nodup_body hLeads hInside
      exact ⟨w₁, rfl, hSecond⟩
    | cond hLeads => exact absurd (hLeads.mem_ids hHead) (hIds.apart hInner)
  | cond hRest ih =>
    have hOuter := hRest.sublist_ids.subset hInside
    cases hLeads with
    | here =>
      cases hHead
      exact absurd hOuter (branchIds true hNodup).head_rest
    | branch hLeads => exact absurd hOuter ((branchIds _ hNodup).apart (hLeads.mem_ids hHead))
    | cond hLeads => exact ih (branchIds true hNodup).nodup_rest hLeads hInside

/- There is one way to every statement. -/
theorem Leads.unique (hNodup : p.ids.Nodup) (hFirst : p.Leads w q) (hSecond : p.Leads w' q')
    (hHead : q.head? = some a) (hHead' : q'.head? = some b)
    (hOp : a.op = b.op) : w = w' ∧ q = q' := by
  have hIn : b.op ∈ q.ids := hOp ▸ mem_ids_of_head hHead
  have hIn' : a.op ∈ q'.ids := hOp ▸ mem_ids_of_head hHead'
  obtain ⟨w₁, hWay, hRest⟩ := Leads.split hNodup hFirst hSecond hHead' hIn
  obtain ⟨w₂, hWay', _⟩ := Leads.split hNodup hSecond hFirst hHead hIn'
  rw [hWay, List.append_assoc, List.self_eq_append_right, List.append_eq_nil_iff] at hWay'
  rw [hWay'.1] at hWay hRest
  rw [append_nil] at hWay
  refine ⟨hWay.symm, ?_⟩
  have hIds : q.ids.Nodup := hNodup.sublist hFirst.sublist_ids
  cases hRest with
  | here => rfl
  | loop hRest =>
    cases hHead
    exact absurd (hOp ▸ hRest.mem_ids hHead') (loopIds hIds).head_rest
  | cond hRest =>
    cases hHead
    exact absurd (hOp ▸ hRest.mem_ids hHead') (branchIds true hIds).head_rest

/- A part has its statements in the order of the whole. -/
theorem Leads.precedes (hLeads : p.Leads w q) (hPrecedes : q.Precedes x y) : p.Precedes x y := by
  induction hLeads with
  | here p => exact hPrecedes
  | act hRest ih => exact .inr (ih hPrecedes)
  | body hBody ih => exact .inr (.inr (.inl (ih hPrecedes)))
  | loop hRest ih => exact .inr (.inr (.inr (ih hPrecedes)))
  | branch hBranch ih => exact .inr (.inr (.inl ⟨_, ih hPrecedes⟩))
  | cond hRest ih => exact .inr (.inr (.inr (ih hPrecedes)))

/- What is bound outside all loops is the same wherever it is seen. -/
theorem Arrives.steady {w₁ w₂ : List Mark} {t₁ t₂ : Trace} {τ₁ τ₂ : Store} {b₁ b₂ : Act}
    {v : ValueId} (hNodup : p.ids.Nodup) (hScoped : p.WellScoped)
    (hPart : p.Leads w (Prog.act a rest)) (hLoops : loopsOf w = [])
    (hFirst : p.Arrives σ (w ++ .past a :: w₁) t₁ q₁ τ₁) (hHead₁ : q₁.head? = some b₁)
    (hBehind₁ : b₁.op ∈ rest.ids) (hSecond : p.Arrives σ (w ++ .past a :: w₂) t₂ q₂ τ₂)
    (hHead₂ : q₂.head? = some b₂) (hBehind₂ : b₂.op ∈ rest.ids)
    (hMem : v ∈ a.bound) : τ₁.env v = τ₂.env v := by
  have hFree : ¬rest.Binds v := (hPart.scoped hScoped).2.1 v (.inr hMem)
  rcases hFirst.split hNodup hPart hHead₁ (mem_cons_of_mem _ hBehind₁) with
    ⟨u₁, σ₁, w₁', t₁', hWay₁, _, hStart₁, hRest₁⟩
  rcases hSecond.split hNodup hPart hHead₂ (mem_cons_of_mem _ hBehind₂) with
    ⟨u₂, σ₂, w₂', t₂', hWay₂, _, hStart₂, hRest₂⟩
  obtain ⟨_, rfl⟩ := hStart₁.once hNodup hStart₂ rfl hLoops
  cases append_cancel_left hWay₁
  cases append_cancel_left hWay₂
  cases hRest₁ with
  | act hStep₁ hRest₁ =>
    cases hRest₂ with
    | act hStep₂ hRest₂ =>
      cases hStep₁.symm.trans hStep₂
      rw [env_of_arrives hFree hRest₁, env_of_arrives hFree hRest₂]

/- Arriving behind the first statement of a program. -/
theorem Arrives.behind (hNodup : p.ids.Nodup) (hHead : p.head? = some a)
    (hArrives : p.Arrives σ w t q τ) (hTarget : q.head? = some b) (hBehind : b.op ∈ p.tail.ids) :
    ∃ w₁ t₁ σ₁ w₂ t₂, w = w₁ ++ w₂ ∧ loopsOf w₁ = [] ∧
      t = (a, σ) :: (t₁ ++ t₂) ∧ (∀ e ∈ t₁, e.1.op ∈ p.inner) ∧
      p.Arrives σ w₁ ((a, σ) :: t₁) p.tail σ₁ ∧ p.tail.Arrives σ₁ w₂ t₂ q τ := by
  cases hArrives with
  | here =>
    cases hHead.symm.trans hTarget
    cases p with
    | nil => cases hHead
    | act a rest =>
      cases hHead
      exact absurd hBehind (nodup_cons.mp hNodup).1
    | loop a var body rest =>
      cases hHead
      exact absurd hBehind (loopIds hNodup).head_rest
    | cond a branch rest =>
      cases hHead
      exact absurd hBehind (branchIds true hNodup).head_rest
  | act hStep hRest =>
    cases hHead
    exact ⟨[.past a], [], _, _, _, rfl, rfl, rfl, nofun, .act hStep (.here _ _), hRest⟩
  | body hValues hEach hBody =>
    exact absurd hBehind ((loopIds hNodup).apart (hBody.mem_ids hTarget))
  | @loop _ _ _ rest _ _ _ _ _ _ _ _ hValues hEach hRest =>
    cases hHead
    refine ⟨[], _, _, _, _, rfl, rfl, rfl, ?_, ?_, hRest⟩
    · exact fun e hMem => mem_ids_of_each hEach hMem
    · have hHere := Arrives.loop hValues hEach (.here rest _)
      rwa [append_nil] at hHere
  | branch hHolds hBranch =>
    exact absurd hBehind ((branchIds _ hNodup).apart (hBranch.mem_ids hTarget))
  | @cond _ taken branch rest _ _ _ _ _ _ _ hHolds hRun hRest =>
    cases hHead
    refine ⟨[], _, _, _, _, rfl, rfl, rfl, ?_, ?_, hRest⟩
    · exact fun e hMem => (branch_sublist branch taken).subset (mem_ids_of_run hRun hMem)
    · have hHere := Arrives.cond hHolds hRun (.here rest _)
      rwa [append_nil] at hHere

/-
  A program that arrives behind a statement has executed it,
  and then what is in it, before it went on.
-/
theorem Arrives.stretch (hNodup : p.ids.Nodup) (hPart : p.Leads w₀ q₀) (hHead : q₀.head? = some a)
    (hArrives : p.Arrives σ w t q τ) (hTarget : q.head? = some b) (hBehind : b.op ∈ q₀.tail.ids) :
    ∃ w₁ t₀ σ₀ t₁ σ₁ w₂ t₂, w = w₁ ++ w₂ ∧ loopsOf w₁ = loopsOf w₀ ∧
      t = t₀ ++ (a, σ₀) :: (t₁ ++ t₂) ∧ (∀ e ∈ t₁, e.1.op ∈ q₀.inner) ∧ p.Arrives σ w₀ t₀ q₀ σ₀ ∧
      p.Arrives σ w₁ (t₀ ++ (a, σ₀) :: t₁) q₀.tail σ₁ ∧ q₀.tail.Arrives σ₁ w₂ t₂ q τ := by
  have hInside : b.op ∈ q₀.ids := by
    cases q₀ with
    | nil => cases hHead
    | act => exact mem_cons_of_mem _ hBehind
    | loop | cond => exact mem_cons_of_mem _ (mem_append_right _ hBehind)
  obtain ⟨t₀, σ₀, w', t', rfl, rfl, hStart, hRest⟩ := hArrives.split hNodup hPart hTarget hInside
  rcases hRest.behind (hNodup.sublist hPart.sublist_ids) hHead hTarget
    hBehind with ⟨w₁, t₁, σ₁, w₂, t₂, rfl, hLoops, rfl, hInner, hOver, hLater⟩
  refine ⟨w₀ ++ w₁, t₀, σ₀, t₁, σ₁, w₂, t₂, (List.append_assoc ..).symm, ?_,
    rfl, hInner, hStart, hStart.trans hOver, hLater⟩
  rw [loopsOf_append, hLoops, append_nil]

theorem head?_append (q : Prog) (hHead : p.head? = some a) : (p ++ q).head? = some a := by
  cases p with
  | nil => cases hHead
  | act => exact hHead
  | loop => exact hHead
  | cond => exact hHead

theorem tail_append (q : Prog) (hHead : p.head? = some a) : (p ++ q).tail = p.tail ++ q := by
  cases p with
  | nil => cases hHead
  | act => rfl
  | loop => rfl
  | cond => rfl

/- The way to the second program. -/
theorem leads_append (p q : Prog) : ∃ w, (p ++ q).Leads w q ∧ loopsOf w = [] := by
  induction p with
  | nil => exact ⟨[], .here q, rfl⟩
  | act a rest ih =>
    obtain ⟨w, hLeads, hLoops⟩ := ih
    exact ⟨_, .act hLeads, hLoops⟩
  | loop a var body rest ihBody ih =>
    obtain ⟨w, hLeads, hLoops⟩ := ih
    exact ⟨_, .loop hLeads, hLoops⟩
  | cond a branch rest ihBranch ih =>
    obtain ⟨w, hLeads, hLoops⟩ := ih
    exact ⟨_, .cond hLeads, hLoops⟩

/- What is executed on the way to a statement is in the program. -/
theorem Arrives.mem_ids_of_mem (hArrives : p.Arrives σ w t q τ)
    (hMem : e ∈ t) : e.1.op ∈ p.ids := by
  induction hArrives with
  | here => cases hMem
  | act hStep hRest ih =>
    rcases mem_cons.mp hMem with rfl | hMem
    · exact mem_cons_self
    · exact mem_cons_of_mem _ (ih hMem)
  | body hValues hEach hBody ih =>
    rcases mem_cons.mp hMem with rfl | hMem
    · exact mem_cons_self
    refine mem_cons_of_mem _ (mem_append_left _ ?_)
    exact (mem_append.mp hMem).elim (mem_ids_of_each hEach) ih
  | loop hValues hEach hRest ih =>
    rcases mem_cons.mp hMem with rfl | hMem
    · exact mem_cons_self
    refine mem_cons_of_mem _ (mem_append.mpr ?_)
    exact (mem_append.mp hMem).imp (mem_ids_of_each hEach) ih
  | branch hHolds hBranch ih =>
    rcases mem_cons.mp hMem with rfl | hMem
    · exact mem_cons_self
    exact mem_ids_of_branch (ih hMem)
  | cond hHolds hRun hRest ih =>
    rcases mem_cons.mp hMem with rfl | hMem
    · exact mem_cons_self
    refine mem_cons_of_mem _ (mem_append.mpr ?_)
    exact (mem_append.mp hMem).imp
      (fun hMem => (branch_sublist ..).subset (mem_ids_of_run hRun hMem)) ih

/-
  On the way to a statement of the first program, or to the
  start of the second one, nothing of the second one happens.
-/
theorem Arrives.mem_front (hNodup : (p ++ q₀).ids.Nodup) (hArrives : (p ++ q₀).Arrives σ w t q τ)
    (hHead : q.head? = some b) (hFront : b.op ∈ p.ids ∨ q₀.head? = some b)
    (hMem : e ∈ t) : e.1.op ∈ p.ids := by
  induction p generalizing σ w t with
  | nil =>
    have hStart := hFront.resolve_left not_mem_nil
    obtain ⟨rfl, rfl⟩ := hArrives.leads.unique hNodup (.here q₀) hHead hStart rfl
    rw [(hArrives.once hNodup (.here q σ) hHead rfl).1] at hMem
    cases hMem
  | act a rest ih =>
    have hIds := nodup_cons.mp hNodup
    cases hArrives with
    | here => cases hMem
    | act hStep hRest =>
      rcases mem_cons.mp hMem with rfl | hMem
      · exact mem_cons_self
      refine mem_cons_of_mem _ (ih hIds.2 hRest ?_ hMem)
      refine hFront.imp_left fun hIn => (mem_cons.mp hIn).resolve_left ?_
      exact fun hSame => hIds.1 (hSame ▸ hRest.mem_ids hHead)
  | loop a var body rest ihBody ih =>
    have hIds := loopIds hNodup
    cases hArrives with
    | here => cases hMem
    | body hValues hEach hBody =>
      rcases mem_cons.mp hMem with rfl | hMem
      · exact mem_cons_self
      refine mem_cons_of_mem _ (mem_append_left _ ?_)
      exact (mem_append.mp hMem).elim (mem_ids_of_each hEach) hBody.mem_ids_of_mem
    | loop hValues hEach hRest =>
      have hLater := hRest.mem_ids hHead
      rcases mem_cons.mp hMem with rfl | hMem
      · exact mem_cons_self
      refine mem_cons_of_mem _ (mem_append.mpr ?_)
      refine (mem_append.mp hMem).imp (mem_ids_of_each hEach) ?_
      refine ih hIds.nodup_rest hRest (hFront.imp_left fun hIn => ?_)
      rcases mem_cons.mp hIn with hSame | hIn
      · exact absurd (hSame ▸ hLater) hIds.head_rest
      · exact (mem_append.mp hIn).resolve_left fun hInner => hIds.apart hInner hLater
  | cond a branch rest ihBranch ih =>
    cases hArrives with
    | here => cases hMem
    | branch hHolds hBranch =>
      rcases mem_cons.mp hMem with rfl | hMem
      · exact mem_cons_self
      exact mem_ids_of_branch (hBranch.mem_ids_of_mem hMem)
    | cond hHolds hRun hRest =>
      have hLater := hRest.mem_ids hHead
      have hIds (taken : Bool) := branchIds taken hNodup
      rcases mem_cons.mp hMem with rfl | hMem
      · exact mem_cons_self
      refine mem_cons_of_mem _ (mem_append.mpr ?_)
      refine (mem_append.mp hMem).imp
        (fun hMem => (branch_sublist ..).subset (mem_ids_of_run hRun hMem)) ?_
      refine ih (hIds true).nodup_rest hRest (hFront.imp_left fun hIn => ?_)
      rcases mem_cons.mp hIn with hSame | hIn
      · exact absurd (hSame ▸ hLater) (hIds true).head_rest
      refine (mem_append.mp hIn).resolve_left fun hInner => ?_
      exact (mem_append.mp hInner).elim (fun hInner => (hIds true).apart hInner hLater)
        fun hInner => (hIds false).apart hInner hLater

end Prog

end AffineIR
