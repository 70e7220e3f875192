import AffineIR.LinearForm
import AffineIR.Proofs.Affine.Exact

/-
  Values of linear forms under the checked arithmetic of forms.

  Terms in ascending order have each quantity once, so that
  setting a coefficient changes the value by as much as the
  coefficient changes.  A form means a number if its terms are
  in order, it is over given quantities only, and it has that
  value.  Without zero coefficients there is one form of each
  value.

  Main declarations:
    * `LinearForm.Canonical`, `LinearForm.canonical_arithmetic`
-/

namespace AffineIR

open List Option Word

theorem Handle.lt_or_eq_or_gt {tag : String} (h k : Handle tag) : h < k ∨ h = k ∨ k < h := by
  rcases Nat.lt_trichotomy h.index k.index with hLess | hSame | hMore
  · exact .inl hLess
  · right
    left
    cases h
    cases k
    cases hSame
    rfl
  · exact .inr (.inr hMore)

theorem Handle.ne_of_lt {tag : String} {h k : Handle tag} (hLess : h < k) : h ≠ k := by
  rintro rfl
  exact Nat.lt_irrefl _ hLess

------
-- Ordered terms
------

namespace Terms

variable {tag : String} {h k : Handle tag} {c : Int} {ts us vs : List (Handle tag × Int)}
  {x : Handle tag → Int} {P : Handle tag → Prop}

/- The handles of the terms ascend. -/
def Ascending (ts : List (Handle tag × Int)) : Prop := ts.Pairwise fun t u => t.1 < u.1

/- The value of the terms. -/
def sum (x : Handle tag → Int) (ts : List (Handle tag × Int)) : Int :=
  (ts.map fun t => t.2 * x t.1).sum

@[simp] theorem sum_nil : sum x [] = 0 :=
  rfl

@[simp] theorem sum_cons (t : Handle tag × Int) : sum x (t :: ts) = t.2 * x t.1 + sum x ts :=
  List.sum_cons

/- A quantity without a term has the coefficient zero. -/
theorem coeff_eq_zero (hNone : ∀ t ∈ ts, t.1 ≠ h) : coeff h ts = 0 := by
  induction ts with
  | nil => rfl
  | cons t ts ih =>
    rw [coeff, if_neg (hNone t mem_cons_self)]
    exact ih fun u hMem => hNone u (mem_cons_of_mem _ hMem)

theorem coeff_eq_zero_of_lt (hOrder : Ascending ((k, c) :: ts))
    (hLess : h < k) : coeff h ((k, c) :: ts) = 0 := by
  apply coeff_eq_zero
  intro t hMem
  rcases mem_cons.mp hMem with rfl | hRest
  · exact (Handle.ne_of_lt hLess).symm
  · have hAbove := rel_of_pairwise_cons hOrder hRest
    exact (Handle.ne_of_lt (Nat.lt_trans hLess hAbove)).symm

theorem mem_insert {t : Handle tag × Int} (hMem : t ∈ insert h c ts) : t = (h, c) ∨ t ∈ ts := by
  induction ts with
  | nil => exact .inl (mem_singleton.mp hMem)
  | cons u ts ih =>
    rw [insert] at hMem
    split at hMem
    · exact mem_cons.mp hMem
    · split at hMem
      · rcases mem_cons.mp hMem with hHead | hRest
        · exact .inl hHead
        · exact .inr (mem_cons_of_mem _ hRest)
      · rcases mem_cons.mp hMem with hHead | hRest
        · exact .inr (hHead ▸ mem_cons_self)
        · exact (ih hRest).imp_right (mem_cons_of_mem _)

theorem Ascending.insert (hOrder : Ascending ts) : Ascending (insert h c ts) := by
  induction ts with
  | nil => exact pairwise_singleton _ _
  | cons u ts ih =>
    obtain ⟨hHead, hRest⟩ := pairwise_cons.mp hOrder
    rw [Terms.insert]
    split
    · rename_i hLess
      refine pairwise_cons.mpr ⟨?_, hOrder⟩
      intro t hMem
      rcases mem_cons.mp hMem with rfl | hIn
      · exact hLess
      · exact Nat.lt_trans hLess (hHead t hIn)
    · split
      · rename_i hSame
        exact pairwise_cons.mpr ⟨by rw [hSame]; exact hHead, hRest⟩
      · rename_i hNotLess hNotSame
        refine pairwise_cons.mpr ⟨?_, ih hRest⟩
        intro t hMem
        rcases mem_insert hMem with rfl | hIn
        · rcases h.lt_or_eq_or_gt u.1 with hLess | hSame | hMore
          · exact absurd hLess hNotLess
          · exact absurd hSame hNotSame
          · exact hMore
        · exact hHead t hIn

theorem sum_insert
    (hOrder : Ascending ts) : sum x (insert h c ts) = sum x ts + (c - coeff h ts) * x h := by
  induction ts with
  | nil => simp [insert, coeff]
  | cons u ts ih =>
    rw [insert]
    split
    · rename_i hLess
      rw [coeff_eq_zero_of_lt hOrder hLess]
      simp only [sum_cons]
      ring
    · split
      · rename_i hSame
        subst hSame
        simp only [sum_cons, coeff, if_pos]
        ring
      · rename_i hNotLess hNotSame
        rw [coeff, if_neg (Ne.symm hNotSame)]
        simp only [sum_cons]
        rw [ih (pairwise_cons.mp hOrder).2]
        ring

theorem sum_erase (hOrder : Ascending ts) : sum x (erase h ts) = sum x ts - coeff h ts * x h := by
  induction ts with
  | nil => simp [erase, coeff]
  | cons u ts ih =>
    obtain ⟨hHead, hRest⟩ := pairwise_cons.mp hOrder
    have hTail := ih hRest
    unfold erase at hTail ⊢
    by_cases hSame : u.1 = h
    · have hNone : coeff h ts = 0 := by
        apply coeff_eq_zero
        intro t hMem
        exact hSame ▸ (Handle.ne_of_lt (hHead t hMem)).symm
      rw [filter_cons_of_neg (by simp [hSame]), hTail, hNone, coeff,
        if_pos hSame, sum_cons, hSame]
      ring
    · rw [filter_cons_of_pos (by simp [hSame]), sum_cons, hTail, coeff, if_neg hSame, sum_cons]
      ring

theorem Ascending.update (hOrder : Ascending ts) : Ascending (update h c ts) := by
  unfold Terms.update
  split
  · exact List.Pairwise.filter _ hOrder
  · exact hOrder.insert

/- Setting a coefficient changes the value by the difference. -/
theorem sum_update
    (hOrder : Ascending ts) : sum x (update h c ts) = sum x ts + (c - coeff h ts) * x h := by
  unfold update
  split
  · rename_i hZero
    rw [sum_erase hOrder, hZero]
    ring
  · exact sum_insert hOrder

theorem mem_update {t : Handle tag × Int}
    (hMem : t ∈ update h c ts) : t = (h, c) ∧ c ≠ 0 ∨ t ∈ ts := by
  unfold update at hMem
  split at hMem
  · exact .inr (mem_filter.mp hMem).1
  · exact (mem_insert hMem).imp_left fun hNew => ⟨hNew, ‹_›⟩

/- The sum of ordered terms and others is ordered and adds up. -/
theorem of_add? (hOrder : Ascending ts) (hAdd : add? ts us = some vs) :
    Ascending vs ∧ sum x vs = sum x ts + sum x us ∧
      ((∀ t ∈ ts, P t.1) → (∀ t ∈ us, P t.1) → ∀ t ∈ vs, P t.1) := by
  induction us generalizing ts with
  | nil =>
    cases hAdd
    exact ⟨hOrder, by simp, fun hFirst _ => hFirst⟩
  | cons u us ih =>
    rw [add?] at hAdd
    split at hAdd
    · cases hAdd
    · rename_i coefficient hSum
      obtain ⟨hResult, hValue, hOver⟩ := ih hOrder.update hAdd
      refine ⟨hResult, ?_, ?_⟩
      · rw [hValue, sum_update hOrder, eq_of_add? hSum, sum_cons]
        ring
      · intro hFirst hSecond
        apply hOver
        · intro t hMem
          rcases mem_update hMem with ⟨rfl, -⟩ | hIn
          · exact hSecond u mem_cons_self
          · exact hFirst t hIn
        · exact fun t hMem => hSecond t (mem_cons_of_mem _ hMem)

/- A sum of terms has no zero coefficient that was not there before. -/
theorem nonzero_of_add? (hNonzero : ∀ t ∈ ts, t.2 ≠ 0)
    (hAdd : add? ts us = some vs) : ∀ t ∈ vs, t.2 ≠ 0 := by
  induction us generalizing ts with
  | nil => exact Option.some.inj hAdd ▸ hNonzero
  | cons u us ih =>
    rw [add?] at hAdd
    split at hAdd
    · cases hAdd
    · refine ih (fun t hMem => ?_) hAdd
      rcases mem_update hMem with ⟨rfl, hSum⟩ | hIn
      · exact hSum
      · exact hNonzero t hIn

/- Ordered terms without zeros are the coefficients other than zero. -/
theorem mem_iff_coeff {t : Handle tag × Int} (hOrder : Ascending ts)
    (hNonzero : ∀ t ∈ ts, t.2 ≠ 0) : t ∈ ts ↔ coeff t.1 ts = t.2 ∧ t.2 ≠ 0 := by
  induction ts with
  | nil => simp +contextual [coeff, eq_comm]
  | cons u ts ih =>
    obtain ⟨hHead, hRest⟩ := pairwise_cons.mp hOrder
    obtain ⟨hFirst, hOthers⟩ := forall_mem_cons.mp hNonzero
    rw [mem_cons, coeff]
    by_cases hSame : u.1 = t.1
    · have hLater : t ∉ ts := fun hMem => Handle.ne_of_lt (hHead t hMem) hSame
      rw [if_pos hSame, or_iff_left hLater]
      refine ⟨?_, fun hCoeff => Prod.ext hSame.symm hCoeff.1.symm⟩
      rintro rfl
      exact ⟨rfl, hFirst⟩
    · rw [if_neg hSame, ← ih hRest hOthers, or_iff_right]
      rintro rfl
      exact hSame rfl

/- A coefficient is the value where the other quantities vanish. -/
theorem sum_single (hOrder : Ascending ts)
    (h : Handle tag) : sum (fun k => if k = h then 1 else 0) ts = coeff h ts := by
  have hOthers : sum (fun k => if k = h then 1 else 0) (erase h ts) = 0 := by
    refine sum_eq_zero fun v hMem => ?_
    obtain ⟨t, hIn, rfl⟩ := mem_map.mp hMem
    have hOther : t.1 ≠ h := by simpa using (mem_filter.mp hIn).2
    simp [hOther]
  rwa [sum_erase hOrder, if_pos rfl, mul_one, sub_eq_zero] at hOthers

/- Terms of different quantities, put in order one by one. -/
theorem of_foldl_insert (hOrder : Ascending ts) (hApart : us.Pairwise fun t u => t.1 ≠ u.1)
    (hNew : ∀ t ∈ ts, ∀ u ∈ us, t.1 ≠ u.1) :
    Ascending (us.foldl (fun acc t => insert t.1 t.2 acc) ts) ∧
      sum x (us.foldl (fun acc t => insert t.1 t.2 acc) ts) = sum x ts + sum x us ∧
      ∀ t ∈ us.foldl (fun acc t => insert t.1 t.2 acc) ts, t ∈ ts ∨ t ∈ us := by
  induction us generalizing ts with
  | nil => exact ⟨hOrder, by simp, fun t hMem => .inl hMem⟩
  | cons u us ih =>
    obtain ⟨hHead, hRest⟩ := pairwise_cons.mp hApart
    have hNone : coeff u.1 ts = 0 := coeff_eq_zero fun t hMem => hNew t hMem u mem_cons_self
    have hApart' : ∀ t ∈ insert u.1 u.2 ts, ∀ w ∈ us, t.1 ≠ w.1 := by
      intro t hMem w hIn
      rcases mem_insert hMem with rfl | hOld
      · exact hHead w hIn
      · exact hNew t hOld w (mem_cons_of_mem _ hIn)
    obtain ⟨hResult, hValue, hFrom⟩ := ih hOrder.insert hRest hApart'
    refine ⟨hResult, ?_, ?_⟩
    · rw [foldl_cons, hValue, sum_insert hOrder, hNone, sum_cons]
      ring
    · intro t hMem
      rcases hFrom t hMem with hOld | hLater
      · rcases mem_insert hOld with rfl | hIn
        · exact .inr mem_cons_self
        · exact .inl hIn
      · exact .inr (mem_cons_of_mem _ hLater)

end Terms

------
-- Forms
------

namespace LinearForm

variable {tag : String} {f g k : LinearForm tag} {P Q : Handle tag → Prop} {x y : Handle tag → Int}
  {v w : Int}

theorem eval_eq (f : LinearForm tag) (x : Handle tag → Int) :
    f.eval x = Terms.sum x f.terms + f.constant := by
  obtain ⟨terms, constant⟩ := f
  unfold eval
  induction terms with
  | nil => simp
  | cons t ts ih =>
    rw [foldr_cons, ih, Terms.sum_cons]
    ring

/- A form over some quantities that has a value. -/
structure Means (f : LinearForm tag) (P : Handle tag → Prop) (x : Handle tag → Int)
    (v : Int) : Prop where
  order : Terms.Ascending f.terms
  within : ∀ t ∈ f.terms, P t.1
  value : f.eval x = v

/- The value depends on the quantities of the form only. -/
theorem Means.congr (hMeans : f.Means P x v) (hOver : ∀ h, P h → Q h)
    (hSame : ∀ h, P h → y h = x h) : f.Means Q y v where
  order := hMeans.order
  within t hMem := hOver t.1 (hMeans.within t hMem)
  value := by
    rw [← hMeans.value, eval_eq, eval_eq]
    congr 1
    unfold Terms.sum
    congr 1
    apply map_congr_left
    intro t hMem
    rw [hSame t.1 (hMeans.within t hMem)]

theorem means_ofConstant (c : Int) : (ofConstant c).Means P x c where
  order := List.Pairwise.nil
  within := nofun
  value := rfl

theorem means_leaf {h : Handle tag} (hOver : P h) : (leaf h).Means P x (x h) where
  order := pairwise_singleton _ _
  within t hMem := by
    rwa [mem_singleton.mp hMem]
  value := by simp [eval, leaf]

theorem Means.add? (hF : f.Means P x v) (hG : g.Means P x w)
    (hAdd : f.add? g = some k) : k.Means P x (v + w) := by
  simp only [LinearForm.add?, Option.bind_eq_bind, Option.pure_def,
    Option.bind_eq_some_iff, Option.some.injEq] at hAdd
  obtain ⟨constant, hConstant, terms, hTerms, rfl⟩ := hAdd
  obtain ⟨hOrder, hSum, hOver⟩ := Terms.of_add? (x := x) (P := P) hF.order hTerms
  refine ⟨hOrder, hOver hF.within hG.within, ?_⟩
  rw [← hF.value, ← hG.value, eval_eq, eval_eq, eval_eq, hSum, Word.eq_of_add? hConstant]
  ring

/- Multiples of terms, one by one. -/
theorem of_mapM_mul {factor : Int} {ts us : List (Handle tag × Int)}
    (hMap : ts.mapM (fun t =>
      (Word.mul? t.2 factor).map fun c => (t.1, c)) = some us) :
    us.map Prod.fst = ts.map Prod.fst ∧ Terms.sum x us = Terms.sum x ts * factor ∧
      ∀ u ∈ us, ∃ t ∈ ts, u.2 = t.2 * factor := by
  induction ts generalizing us with
  | nil =>
    simp only [List.mapM_nil, Option.pure_def, Option.some.injEq] at hMap
    subst hMap
    simp
  | cons t ts ih =>
    obtain ⟨u, us, hHead, hRest, rfl⟩ := Row.mapM_eq_some_cons hMap
    obtain ⟨c, hProduct, rfl⟩ := Option.map_eq_some_iff.mp hHead
    obtain ⟨hFirsts, hSum, hFrom⟩ := ih hRest
    refine ⟨by simp [hFirsts], ?_, ?_⟩
    · rw [Terms.sum_cons, Terms.sum_cons, hSum, Word.eq_of_mul? hProduct]
      ring
    · refine List.forall_mem_cons.mpr ⟨⟨t, List.mem_cons_self, Word.eq_of_mul? hProduct⟩, ?_⟩
      exact fun w hMem => (hFrom w hMem).imp fun _ hOf => ⟨List.mem_cons_of_mem _ hOf.1, hOf.2⟩

theorem Means.scale? {factor : Int} (hF : f.Means P x v)
    (hScale : f.scale? factor = some k) : k.Means P x (v * factor) := by
  unfold LinearForm.scale? at hScale
  split at hScale
  · rename_i hZero
    cases hScale
    refine ⟨List.Pairwise.nil, nofun, ?_⟩
    rw [hZero, mul_zero]
    rfl
  · simp only [Option.bind_eq_bind, Option.pure_def,
      Option.bind_eq_some_iff, Option.some.injEq] at hScale
    obtain ⟨terms, hTerms, constant, hConstant, rfl⟩ := hScale
    obtain ⟨hFirsts, hSum, -⟩ := of_mapM_mul (x := x) hTerms
    refine ⟨?_, ?_, ?_⟩
    · have hOrder : (f.terms.map Prod.fst).Pairwise (· < ·) := List.pairwise_map.mpr hF.order
      rw [← hFirsts] at hOrder
      exact List.pairwise_map.mp hOrder
    · intro t hMem
      have hFirst : t.1 ∈ f.terms.map Prod.fst := hFirsts ▸ List.mem_map_of_mem hMem
      obtain ⟨u, hIn, hEq⟩ := List.mem_map.mp hFirst
      exact hEq ▸ hF.within u hIn
    · rw [← hF.value, eval_eq, eval_eq, hSum, Word.eq_of_mul? hConstant]
      ring

theorem Means.sub? (hF : f.Means P x v) (hG : g.Means P x w)
    (hSub : f.sub? g = some k) : k.Means P x (v - w) := by
  simp only [LinearForm.sub?, bind_eq_bind, bind_eq_some_iff] at hSub
  obtain ⟨negated, hScale, hAdd⟩ := hSub
  have hMeans := hF.add? (hG.scale? hScale) hAdd
  rwa [mul_neg_one, ← sub_eq_add_neg] at hMeans

theorem Means.offset? {amount : Int} (hF : f.Means P x v)
    (hOffset : f.offset? amount = some k) : k.Means P x (v + amount) := by
  obtain ⟨c, hSum, rfl⟩ := map_eq_some_iff.mp hOffset
  refine ⟨hF.order, hF.within, ?_⟩
  rw [← hF.value, eval_eq, eval_eq, eq_of_add? hSum, add_assoc]

/- A form from terms of different quantities. -/
theorem means_ofTerms {ts : List (Handle tag × Int)} (constant : Int)
    (hApart : ts.Pairwise fun t u => t.1 ≠ u.1)
    (hOver : ∀ t ∈ ts, P t.1) : (ofTerms ts constant).Means P x (Terms.sum x ts + constant) := by
  have hEmpty : Terms.Ascending ([] : List (Handle tag × Int)) := List.Pairwise.nil
  obtain ⟨hOrder, hSum, hFrom⟩ := Terms.of_foldl_insert (x := x) hEmpty hApart nofun
  refine ⟨hOrder, ?_, ?_⟩
  · intro t hMem
    rcases hFrom t hMem with hNil | hIn
    · cases hNil
    · exact hOver t hIn
  · rw [eval_eq]
    simp only [ofTerms]
    rw [hSum]
    simp

------
-- Canonical forms
------

/- Terms in order, none of them zero. -/
structure Canonical (f : LinearForm tag) : Prop where
  order : Terms.Ascending f.terms
  nonzero : ∀ t ∈ f.terms, t.2 ≠ 0

theorem Canonical.means (hF : f.Canonical)
    (x : Handle tag → Int) : f.Means (fun _ => True) x (f.eval x) :=
  ⟨hF.order, fun _ _ => trivial, rfl⟩

theorem Canonical.add? (hF : f.Canonical) (hG : g.Canonical)
    (hAdd : f.add? g = some k) : k.Canonical ∧ ∀ x, k.eval x = f.eval x + g.eval x := by
  have hMeans x := (hF.means x).add? (hG.means x) hAdd
  refine ⟨⟨(hMeans 0).order, ?_⟩, fun x => (hMeans x).value⟩
  simp only [LinearForm.add?, Option.bind_eq_bind, Option.pure_def,
    Option.bind_eq_some_iff, Option.some.injEq] at hAdd
  obtain ⟨_, _, terms, hTerms, rfl⟩ := hAdd
  exact Terms.nonzero_of_add? hF.nonzero hTerms

theorem Canonical.scale? {factor : Int} (hF : f.Canonical)
    (hScale : f.scale? factor = some k) : k.Canonical ∧ ∀ x, k.eval x = f.eval x * factor := by
  have hMeans x := (hF.means x).scale? hScale
  refine ⟨⟨(hMeans 0).order, ?_⟩, fun x => (hMeans x).value⟩
  unfold LinearForm.scale? at hScale
  split at hScale
  · cases hScale
    nofun
  · rename_i hFactor
    simp only [Option.bind_eq_bind, Option.pure_def,
      Option.bind_eq_some_iff, Option.some.injEq] at hScale
    obtain ⟨terms, hTerms, _, _, rfl⟩ := hScale
    intro u hMem
    obtain ⟨t, hIn, hProduct⟩ := (of_mapM_mul (x := 0) hTerms).2.2 u hMem
    rw [hProduct]
    exact mul_ne_zero (hF.nonzero t hIn) hFactor

theorem Canonical.sub? (hF : f.Canonical) (hG : g.Canonical)
    (hSub : f.sub? g = some k) : k.Canonical ∧ ∀ x, k.eval x = f.eval x - g.eval x := by
  simp only [LinearForm.sub?, bind_eq_bind, bind_eq_some_iff] at hSub
  obtain ⟨negated, hScale, hAdd⟩ := hSub
  obtain ⟨hNegated, hOpposite⟩ := hG.scale? hScale
  refine (hF.add? hNegated hAdd).imp_right fun hValue x => ?_
  rw [hValue, hOpposite, mul_neg_one, sub_eq_add_neg]

/- Forms without zeros that always have the same value are equal. -/
theorem Canonical.eq_of_eval (hF : f.Canonical) (hG : g.Canonical)
    (hEval : ∀ x, f.eval x = g.eval x) : f = g := by
  simp only [eval_eq] at hEval
  have hConstant : f.constant = g.constant := by simpa [Terms.sum] using hEval 0
  have hCoeff (h : Handle tag) : Terms.coeff h f.terms = Terms.coeff h g.terms := by
    have hAt := hEval fun k => if k = h then 1 else 0
    rwa [Terms.sum_single hF.order, Terms.sum_single hG.order, hConstant, add_left_inj] at hAt
  have hTerms : f.terms = g.terms := by
    have : Std.Irrefl fun t u : Handle tag × Int => t.1 < u.1 := ⟨fun t => Nat.lt_irrefl _⟩
    have : Std.Antisymm fun t u : Handle tag × Int => t.1 < u.1 :=
      ⟨fun t u hLess hMore => absurd hMore (Nat.lt_asymm hLess)⟩
    refine hF.order.eq_of_mem_iff hG.order fun t => ?_
    rw [Terms.mem_iff_coeff hF.order hF.nonzero, Terms.mem_iff_coeff hG.order hG.nonzero, hCoeff]
  cases f
  cases g
  cases hTerms
  cases hConstant
  rfl

/-
  Canonical forms stay canonical under the arithmetic of forms,
  which is that of their values, and there is one canonical form
  for each function of the quantities.
-/
theorem canonical_arithmetic (hF : f.Canonical) (hG : g.Canonical) :
    (∀ k, f.add? g = some k → k.Canonical ∧ ∀ x, k.eval x = f.eval x + g.eval x) ∧
    (∀ k, f.sub? g = some k → k.Canonical ∧ ∀ x, k.eval x = f.eval x - g.eval x) ∧
    (∀ factor k, f.scale? factor = some k → k.Canonical ∧ ∀ x, k.eval x = f.eval x * factor) ∧
    (f = g ↔ ∀ x, f.eval x = g.eval x) :=
  ⟨fun _ => hF.add? hG, fun _ => hF.sub? hG, fun _ _ => hF.scale?,
    fun hSame _ => congrArg (eval · _) hSame, hF.eq_of_eval hG⟩

/- Two forms of which the first terms cancel. -/
theorem canonical_arithmetic_cancelled :
    (⟨[(⟨0⟩, 2), (⟨3⟩, -1)], 5⟩ : LinearForm "v").Canonical ∧
      (⟨[(⟨0⟩, -2), (⟨1⟩, 4)], 1⟩ : LinearForm "v").Canonical ∧
      (⟨[(⟨1⟩, 4), (⟨3⟩, -1)], 6⟩ : LinearForm "v").Canonical := by
  have hF : (⟨[(⟨0⟩, 2), (⟨3⟩, -1)], 5⟩ : LinearForm "v").Canonical :=
    ⟨by unfold Terms.Ascending; decide, by decide⟩
  have hG : (⟨[(⟨0⟩, -2), (⟨1⟩, 4)], 1⟩ : LinearForm "v").Canonical :=
    ⟨by unfold Terms.Ascending; decide, by decide⟩
  exact ⟨hF, hG, ((canonical_arithmetic hF hG).1 _ (by decide)).1⟩

end LinearForm

end AffineIR
