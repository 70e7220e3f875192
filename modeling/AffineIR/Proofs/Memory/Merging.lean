import AffineIR.Proofs.Graph.Precedence
import AffineIR.Proofs.Memory.Sources

/-
  The load that a load is merged with.

  Proper dominance is a strict order on the operations of a
  body, and those that dominate one operation stand in a row.
  So among the loads that can stand for a load, if there are
  any, exactly one dominates the others, and it is found.

  Main result: `Function.dominance_forest`
-/

namespace AffineIR

open Answer List

------
-- Proper dominance
------

namespace Graph

variable {g : Graph} {body : RegionId} {a b c load : OpId} {candidates : List OpId}

/- An operation properly dominates another one, as asked without kept trees. -/
def Precedes (g : Graph) (a b : OpId) : Prop :=
  (g.properlyDominates a b).runFresh .forward = .ok true

instance : Decidable (g.Precedes a b) := inferInstanceAs (Decidable (_ = _))

namespace Intact

variable (hIntact : g.Intact) (hBody : g.Linked body none)

include hIntact hBody

theorem precedes_iff (hReached : g.Reached body b) : g.Precedes a b ↔ a ≠ b ∧ g.Governs a b := by
  constructor
  · intro hPrecedes
    obtain ⟨⟨_, _⟩, hRun, rfl⟩ := map_eq_ok.mp hPrecedes
    exact hIntact.governs_of_run hBody hReached (.fresh g) hRun
  · intro hGoverns
    rcases hIntact.answers_properlyDominates hBody
      (hIntact.reached_of_governs hBody hReached hGoverns.2) hReached with
      ⟨answer, hAnswers, hMeans⟩
    rw [Precedes, hAnswers.runFresh, hMeans.mpr hGoverns]

theorem reached_of_precedes (hReached : g.Reached body b)
    (hPrecedes : g.Precedes a b) : g.Reached body a :=
  hIntact.reached_of_governs hBody hReached ((hIntact.precedes_iff hBody hReached).mp hPrecedes).2

theorem precedes_asymm (hReached : g.Reached body b)
    (hFirst : g.Precedes a b) : ¬g.Precedes b a := by
  intro hSecond
  have hReached' := hIntact.reached_of_precedes hBody hReached hFirst
  rw [hIntact.precedes_iff hBody hReached] at hFirst
  rw [hIntact.precedes_iff hBody hReached'] at hSecond
  exact hFirst.1 (hIntact.governs_antisymm hBody hReached' hReached hFirst.2 hSecond.2)

theorem precedes_trans (hReached : g.Reached body c) (hFirst : g.Precedes a b)
    (hSecond : g.Precedes b c) : g.Precedes a c := by
  have hReached' := hIntact.reached_of_precedes hBody hReached hSecond
  have hBack := hIntact.precedes_asymm hBody hReached' hFirst
  have hFirst' := (hIntact.precedes_iff hBody hReached').mp hFirst
  have hSecond' := (hIntact.precedes_iff hBody hReached).mp hSecond
  refine (hIntact.precedes_iff hBody hReached).mpr ⟨?_, hIntact.governs_trans hFirst'.2 hSecond'.2⟩
  rintro rfl
  exact hBack hSecond

theorem precedes_comparable (hReached : g.Reached body c) (hOther : a ≠ b) (hFirst : g.Precedes a c)
    (hSecond : g.Precedes b c) : g.Precedes a b ∨ g.Precedes b a := by
  rw [hIntact.precedes_iff hBody (hIntact.reached_of_precedes hBody hReached hSecond),
    hIntact.precedes_iff hBody (hIntact.reached_of_precedes hBody hReached hFirst)]
  rw [hIntact.precedes_iff hBody hReached] at hFirst hSecond
  exact (hIntact.governs_comparable hFirst.2 hSecond.2).imp (⟨hOther, ·⟩) (⟨Ne.symm hOther, ·⟩)

omit hBody in
/- Of operations that govern one, one governs all the others. -/
theorem exists_least (hGoverns : ∀ d ∈ candidates, g.Governs d load)
    (hSome : candidates ≠ []) : ∃ c ∈ candidates, ∀ d ∈ candidates, g.Governs c d := by
  have hSelf (x : OpId) : g.Governs x x := Heads.governs (.inl rfl)
  induction candidates with
  | nil => exact absurd rfl hSome
  | cons x rest ih =>
    obtain ⟨hHead, hTail⟩ := forall_mem_cons.mp hGoverns
    rcases rest.eq_nil_or_concat with rfl | ⟨_, _, hConcat⟩
    · exact ⟨x, mem_cons_self, by simpa using hSelf x⟩
    obtain ⟨c, hMem, hLeast⟩ := ih hTail (by simp [hConcat])
    rcases hIntact.governs_comparable hHead (hTail c hMem) with hFirst | hFirst
    · exact ⟨x, mem_cons_self, forall_mem_cons.mpr ⟨hSelf x,
        fun d hIn => hIntact.governs_trans hFirst (hLeast d hIn)⟩⟩
    · exact ⟨c, mem_cons_of_mem _ hMem, forall_mem_cons.mpr ⟨hFirst, hLeast⟩⟩

end Intact

end Graph

------
-- The search for a dominator
------

namespace Forward

variable {s s' : ForwardState} {body : RegionId} {c : OpId} {all rest : List OpId}

theorem exists_askDom {α : Type} {q : Graph → DominanceQuery α} {x : α}
    (hCurrent : s.dom.Current s.graph) (hAnswers : (q s.graph).Answers s.graph x) :
    ∃ s', (askDom q).run s = .ok (x, s') ∧ s'.graph = s.graph ∧ s'.dom.Current s'.graph := by
  obtain ⟨cache, hNext, hRun⟩ := hAnswers s.dom hCurrent
  refine ⟨{ s with dom := cache }, ?_, rfl, hNext⟩
  refine run_bind_eq_ok.mpr ⟨s, s, rfl, ?_⟩
  exact run_bind_eq_ok.mpr ⟨(x, cache), s, run_lift_eq_ok.mpr ⟨hRun, rfl⟩, rfl⟩

section

variable (hIntact : s.graph.Intact) (hBody : s.graph.Linked body none)
  (hCurrent : s.dom.Current s.graph)

include hIntact hBody hCurrent

theorem exists_allDominated (hReached : s.graph.Reached body c)
    (hAll : ∀ d ∈ all, s.graph.Reached body d) :
    ∃ answer s', (all.allM fun d => askDom fun g => g.dominates c d).run s =
        .ok (answer, s') ∧ s'.graph = s.graph ∧ s'.dom.Current s'.graph ∧
      (answer = true ↔ ∀ d ∈ all, s.graph.Governs c d) := by
  induction all generalizing s with
  | nil => exact ⟨true, s, rfl, rfl, hCurrent, by simp⟩
  | cons d all ih =>
    obtain ⟨hHead, hTail⟩ := forall_mem_cons.mp hAll
    obtain ⟨above, hAnswers, hMeans⟩ := hIntact.answers_dominates hBody hReached hHead
    rcases exists_askDom (q := fun g => g.dominates c d) hCurrent hAnswers with
      ⟨s₁, hAsk, hGraph, hCurrent₁⟩
    rw [forall_mem_cons, ← hMeans]
    cases above with
    | false =>
      exact ⟨false, s₁, run_bind_eq_ok.mpr ⟨false, s₁, hAsk, rfl⟩, hGraph,
        hCurrent₁, by simp⟩
    | true =>
      rw [← hGraph] at hIntact hBody hReached hTail
      rcases ih hIntact hBody hCurrent₁ hReached hTail with
        ⟨answer, s₂, hRest, hGraph₂, hCurrent₂, hRestMeans⟩
      rw [hGraph] at hRestMeans
      exact ⟨answer, s₂, run_bind_eq_ok.mpr ⟨true, s₁, hAsk, hRest⟩,
        hGraph₂.trans hGraph, hCurrent₂, by simp [hRestMeans]⟩

/- The search ends at the one that governs all. -/
theorem run_firstDominator_of_least (hAll : ∀ d ∈ all, s.graph.Reached body d)
    (hRest : ∀ d ∈ rest, d ∈ all) (hMem : c ∈ rest) (hLeast : ∀ d ∈ all, s.graph.Governs c d) :
    ∃ s', (firstDominator all rest).run s = .ok (some c, s') := by
  induction rest generalizing s with
  | nil => cases hMem
  | cons first rest ih =>
    obtain ⟨hHead, hTail⟩ := forall_mem_cons.mp hRest
    have hIn : c ∈ all := hRest c hMem
    rcases exists_allDominated hIntact hBody hCurrent (hAll first hHead) hAll with
      ⟨answer, s₁, hRun, hGraph, hCurrent₁, hMeans⟩
    cases answer with
    | true =>
      have hSame : first = c := hIntact.governs_antisymm hBody (hAll first hHead)
        (hAll c hIn) (hMeans.mp rfl c hIn) (hLeast first hHead)
      exact ⟨s₁, run_bind_eq_ok.mpr ⟨true, s₁, hRun, by rw [hSame]; rfl⟩⟩
    | false =>
      have hOther : c ∈ rest := by
        rcases mem_cons.mp hMem with rfl | hOther
        · cases hMeans.mpr hLeast
        · exact hOther
      rw [← hGraph] at hIntact hBody hAll hLeast
      obtain ⟨s₂, hSearch⟩ := ih hIntact hBody hCurrent₁ hAll hTail hOther hLeast
      exact ⟨s₂, run_bind_eq_ok.mpr ⟨false, s₁, hRun, hSearch⟩⟩

/- Of loads that can stand for a load one dominates the others. -/
theorem exists_chosen
    {load : OpId} {target : Access} {loaded : ValueId} {users candidates : List OpId}
    (hReached : s.graph.Reached body load)
    (hFilter : (users.filterM (canReuse target loaded load)).run s = .ok (candidates, s'))
    (hSome : candidates ≠ []) :
    ∃ c ∈ candidates, (∀ d ∈ candidates, s.graph.Reached body d) ∧
      (∀ d ∈ candidates, s.graph.Governs c d) ∧
      ∃ s₂, (firstDominator candidates candidates).run s' = .ok (some c, s₂) := by
  obtain ⟨hKept, hReusable⟩ := run_filter hFilter
  have hGoverns : ∀ d ∈ candidates, s.graph.Governs d load := by
    intro d hMem
    obtain ⟨hOther, _, _, s₁, cache, hKept₁, hRun⟩ := hReusable d hMem
    rw [Graph.dominates, if_neg hOther] at hRun
    exact (hIntact.governs_of_run hBody hReached (hKept₁.current hCurrent) hRun).2
  have hIn : ∀ d ∈ candidates, s.graph.Reached body d := fun d hMem =>
    hIntact.reached_of_governs hBody hReached (hGoverns d hMem)
  obtain ⟨c, hMem, hLeast⟩ := hIntact.exists_least hGoverns hSome
  refine ⟨c, hMem, hIn, hLeast, ?_⟩
  have hCurrent' := hKept.current hCurrent
  rw [← hKept.graph] at hIntact hBody hCurrent' hIn hLeast
  exact run_firstDominator_of_least hIntact hBody hCurrent' hIn (fun _ => id) hMem hLeast

end

end Forward

namespace Function

variable {f : Function} {reg : Region}

/-
  Proper dominance between the operations of a body is answered
  and is a strict order, in which the operations before one are
  in a row.  If there are loads that can stand for a load, one
  of them dominates all the others, and the search finds it.
-/
theorem dominance_forest (hIntact : f.graph.Intact) (hRegion : f.graph.region f.body = .ok reg)
    (hTop : reg.parent = none) :
    (∀ a b, f.graph.Reached f.body a → f.graph.Reached f.body b →
      ∃ answer, (f.graph.properlyDominates a b).runFresh .forward = .ok answer) ∧
    (∀ a, f.graph.Reached f.body a → ¬f.graph.Precedes a a) ∧
    (∀ a b, f.graph.Reached f.body b → f.graph.Precedes a b → ¬f.graph.Precedes b a) ∧
    (∀ a b c, f.graph.Reached f.body c → f.graph.Precedes a b →
      f.graph.Precedes b c → f.graph.Precedes a c) ∧
    (∀ a b c, f.graph.Reached f.body c → a ≠ b → f.graph.Precedes a c →
      f.graph.Precedes b c → f.graph.Precedes a b ∨ f.graph.Precedes b a) ∧
    ∀ (s s' : ForwardState) load target loaded (users candidates : List OpId),
      s.graph = f.graph → s.dom.Current f.graph →
      f.graph.Reached f.body load → f.graph.access? load = .ok (some target) →
      (users.filterM (Forward.canReuse target loaded load)).run s =
        .ok (candidates, s') → candidates ≠ [] →
      ∃ c ∈ candidates, (∀ d ∈ candidates, d ≠ c → f.graph.Precedes c d) ∧
        (∀ c' ∈ candidates, (∀ d ∈ candidates, d ≠ c' → f.graph.Precedes c' d) → c' = c) ∧
        ∃ s₂, (Forward.firstDominator candidates candidates).run s' = .ok (some c, s₂) := by
  have hBody : f.graph.Linked f.body none := hTop ▸ hIntact.linked hRegion
  refine ⟨?_, ?_, fun a b => hIntact.precedes_asymm hBody,
    fun a b c => hIntact.precedes_trans hBody, fun a b c => hIntact.precedes_comparable hBody, ?_⟩
  · intro a b hA hB
    obtain ⟨answer, hAnswers, _⟩ := hIntact.answers_properlyDominates hBody hA hB
    exact ⟨answer, hAnswers.runFresh⟩
  · exact fun a hA hSelf => ((hIntact.precedes_iff hBody hA).mp hSelf).1 rfl
  · intro s s' load target loaded users candidates hGraph hCurrent hReached _ hFilter hSome
    rw [← hGraph] at hIntact hBody hCurrent hReached ⊢
    rcases Forward.exists_chosen hIntact hBody hCurrent hReached hFilter hSome
      with ⟨c, hMem, hIn, hLeast, hSearch⟩
    have hDominates : ∀ d ∈ candidates, d ≠ c → s.graph.Precedes c d :=
      fun d hD hOther => (hIntact.precedes_iff hBody (hIn d hD)).mpr ⟨Ne.symm hOther, hLeast d hD⟩
    refine ⟨c, hMem, hDominates, fun c' hMem' hLeast' => ?_, hSearch⟩
    by_contra hOther
    exact hIntact.precedes_asymm hBody (hIn c' hMem') (hDominates c' hMem' hOther)
      (hLeast' c hMem (Ne.symm hOther))

/-
  A load, an equal one in a loop before a third one, and one in a
  block that cannot be reached.
-/
def reloadedHistory : List Mutation :=
  let load := Mutation.createOp (.affineLoad ⟨0, 0, [.constant 1]⟩) [⟨0⟩] [.i32] []
  [ .createRegion none,
    .createBlock ⟨0⟩ [.memref [4] .i32],
    .createBlock ⟨0⟩ [],
    load,
    .append ⟨0⟩ ⟨0⟩,
    .createOp (.loop (.ofConstant 0) (.ofConstant 4) 1) [] [] [],
    .append ⟨0⟩ ⟨1⟩,
    .createRegion (some ⟨1⟩),
    .createBlock ⟨1⟩ [.index],
    load,
    .append ⟨2⟩ ⟨2⟩,
    load,
    .append ⟨2⟩ ⟨3⟩,
    .createOp .yield [] [] [],
    .append ⟨2⟩ ⟨4⟩,
    .createOp .ret [] [] [],
    .append ⟨0⟩ ⟨5⟩,
    load,
    .append ⟨1⟩ ⟨6⟩,
    .createOp .ret [] [] [],
    .append ⟨1⟩ ⟨7⟩ ]

def reloaded : Function where
  name := "reloaded"
  graph := .ofHistory reloadedHistory
  body := ⟨0⟩
  resultTypes := []

theorem reloaded_intact : reloaded.graph.Intact := by
  unfold reloaded
  dsimp only
  exact Graph.intact_of_coherent (Graph.coherent_ofHistory reloadedHistory rfl)

theorem reloaded_reached : reloaded.graph.Reached reloaded.body ⟨3⟩ := by
  have hOps : reloaded.graph.regionOps reloaded.body = .ok [⟨0⟩, ⟨1⟩, ⟨5⟩, ⟨6⟩, ⟨7⟩] := by
    decide +kernel
  have hWalk : reloaded.graph.walkOp .pre ⟨1⟩ = .ok [⟨1⟩, ⟨2⟩, ⟨3⟩, ⟨4⟩] := by decide +kernel
  obtain ⟨b, hLists⟩ := (Graph.mem_regionOps_iff hOps (x := ⟨1⟩)).mp (by simp)
  exact ((Graph.mem_walkFrom_iff hWalk).mp (by simp)).reached (.top hLists)

theorem dominance_forest_reloaded :
    (reloaded.graph.Intact ∧ ∃ reg, reloaded.graph.region reloaded.body = .ok reg ∧
      reg.parent = none) ∧
    reloaded.graph.Precedes ⟨0⟩ ⟨2⟩ ∧ ¬reloaded.graph.Precedes ⟨2⟩ ⟨0⟩ ∧
    reloaded.graph.Precedes ⟨2⟩ ⟨3⟩ ∧ reloaded.graph.Precedes ⟨0⟩ ⟨3⟩ ∧
    ∃ target users s' s₂, reloaded.graph.access? ⟨3⟩ = .ok (some target) ∧
      reloaded.graph.users target.memref = .ok users ∧
      (users.filterM (Forward.canReuse target ⟨4⟩ ⟨3⟩)).run
        { graph := reloaded.graph } = .ok ([⟨0⟩, ⟨2⟩], s') ∧
      (Forward.firstDominator [⟨0⟩, ⟨2⟩] [⟨0⟩, ⟨2⟩]).run s' = .ok (some ⟨0⟩, s₂) := by
  have hParent : (do return (← reloaded.graph.region reloaded.body).parent) = .ok none := by
    decide +kernel
  obtain ⟨reg, hRegion, hPure⟩ := bind_eq_ok.mp hParent
  have hTop := pure_eq_ok.mp hPure
  obtain ⟨_, _, hAsymm, hTrans, _, hMerge⟩ := dominance_forest reloaded_intact hRegion hTop
  have hFirst : reloaded.graph.Precedes ⟨0⟩ ⟨2⟩ := by decide +kernel
  have hSecond : reloaded.graph.Precedes ⟨2⟩ ⟨3⟩ := by decide +kernel
  have hBack := hAsymm ⟨0⟩ ⟨2⟩ (Graph.Intact.reached_of_precedes reloaded_intact
    (hTop ▸ reloaded_intact.linked hRegion) reloaded_reached hSecond) hFirst
  have hFilter : (do
      let found ← reloaded.graph.access? ⟨3⟩
      found.elim (pure []) fun target => do
        let users ← reloaded.graph.users target.memref
        let kept ← (users.filterM (Forward.canReuse target ⟨4⟩ ⟨3⟩)).run
          { graph := reloaded.graph }
        return kept.1) = .ok [⟨0⟩, ⟨2⟩] := by
    decide +kernel
  obtain ⟨target, hAccess, hFilter⟩ := bind_eq_ok.mp hFilter
  cases target with
  | none => cases hFilter
  | some target =>
    obtain ⟨users, hUsers, hFilter⟩ := bind_eq_ok.mp hFilter
    obtain ⟨⟨_, s'⟩, hFilter, hPure⟩ := bind_eq_ok.mp hFilter
    cases hPure
    have hStart : ForwardState.graph { graph := reloaded.graph } = reloaded.graph := by dsimp only
    rcases hMerge _ s' ⟨3⟩ target ⟨4⟩ users [⟨0⟩, ⟨2⟩] hStart (.fresh _)
      reloaded_reached hAccess hFilter (by simp) with ⟨c, hMem, hDominates, _, s₂, hSearch⟩
    have hChosen : c = ⟨0⟩ := by
      rcases mem_pair.mp hMem with hSame | rfl
      · exact hSame
      · exact absurd (hDominates ⟨0⟩ (by simp) (by decide)) hBack
    subst hChosen
    exact ⟨⟨reloaded_intact, reg, hRegion, hTop⟩, hFirst, hBack, hSecond,
      hTrans _ _ _ reloaded_reached hFirst hSecond, target, users, s', s₂, hAccess,
      hUsers, hFilter, hSearch⟩

end Function

end AffineIR
