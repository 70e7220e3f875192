import AffineIR.Proofs.Nest.Plans
import AffineIR.Transform.Pipeline

/-
  Perfection keeps modules valid.

  Nests are perfected one after the other.  A nest that gets a
  plan is a ladder, and sinking its levels leaves a function
  whose shape is right and whose operands are all in sight; a
  nest that gets none stays as it is.

  Main result: `Module.problems_of_perfectLoops`
-/

namespace AffineIR

open Answer List Graph

namespace Function

variable {f : Function}

/-
  With handles that are words there are fewer loops than words:
  every loop has a yield in its body.
-/
theorem countable_of_size (hShaped : f.Shaped) (hIntact : f.graph.Intact)
    (hSize : f.graph.ops.slots.size ≤ 2 ^ 32) : f.Countable := by
  by_cases hAny : ∃ x o, f.graph.Reached f.body x ∧ f.graph.op x = .ok o ∧ o.kind.isLoop = true
  · obtain ⟨x, o, hReached, hOp, hLoop⟩ := hAny
    obtain ⟨b, blk, hBody⟩ := hShaped.loopBody hIntact hReached hOp hLoop
    obtain ⟨_, y, p, _, hYield, hKind⟩ := hBody.yield hShaped hReached
    have hIndex {z : OpId} {q : Operation} (hLive : f.graph.op z = .ok q) :
        z.index ∈ List.range f.graph.ops.slots.size :=
      mem_range.mpr (Arena.index_lt_of_get? (Arena.get_eq_ok_iff.mp hLive))
    refine ⟨((List.range f.graph.ops.slots.size).erase y.index).map Handle.mk, ?_, ?_⟩
    · rw [length_map, length_erase_of_mem (hIndex hYield), length_range]
      have hLess := mem_range.mp (hIndex hYield)
      omega
    · intro z q _ hLive hLoop'
      refine mem_map.mpr ⟨z.index, ?_, rfl⟩
      refine (mem_erase_of_ne ?_).mpr (hIndex hLive)
      intro hSame
      have hEq : z = y := by
        cases z
        cases y
        cases hSame
        rfl
      subst hEq
      cases hLive.symm.trans hYield
      rw [hKind] at hLoop'
      cases hLoop'
  · refine ⟨[], by simp, ?_⟩
    intro x o hReached hOp hLoop
    exact absurd ⟨x, o, hReached, hOp, hLoop⟩ hAny

------
-- Nests
------

/- A function that is valid and stays so when its nests are perfected. -/
structure Healthy (f : Function) : Prop where
  coherent : f.graph.Coherent
  shaped : f.Shaped
  plain : f.Plain
  countable : f.Countable
  sighted : f.Sighted

theorem Healthy.problems (h : f.Healthy) : f.problems = .ok [] :=
  (problems_eq_nil_iff (intact_of_coherent h.coherent)).mpr ⟨h.shaped, h.sighted⟩

theorem healthy_of_problems (hValid : f.problems = .ok []) (hCoherent : f.graph.Coherent)
    (hPlain : f.Plain) (hSize : f.graph.ops.slots.size ≤ 2 ^ 32) : f.Healthy := by
  have hIntact := intact_of_coherent hCoherent
  obtain ⟨hShaped, hSighted⟩ := (problems_eq_nil_iff hIntact).mp hValid
  exact ⟨hCoherent, hShaped, hPlain, countable_of_size hShaped hIntact hSize, hSighted⟩

end Function

namespace Perfected

variable {p p' : Perfected} {root : OpId} {roots : List OpId}

/- Work on a nest refuses it or carries out its plan. -/
theorem cases_of_perfectNest (hRun : p.perfectNest root = .ok p') :
    (∃ e, Perfection.plan p.function.graph p.function.name root = .error (.refusal e) ∧
      p'.function = p.function ∧ p'.refusals = p.refusals ++ [e]) ∨
    ∃ levels g', Perfection.plan p.function.graph p.function.name root = .ok levels ∧
      (Perfection.carryOut levels).run p.function.graph = .ok ((), g') ∧
      p'.function = { p.function with graph := g' } ∧ p'.refusals = p.refusals := by
  unfold perfectNest at hRun
  dsimp only at hRun
  split at hRun
  next => cases hRun
  next e hPlan =>
    cases pure_eq_ok.mp hRun
    exact .inl ⟨e, hPlan, rfl, rfl⟩
  next hPlan =>
    cases pure_eq_ok.mp hRun
    exact .inr ⟨[], _, hPlan, rfl, rfl, rfl⟩
  next levels _ hPlan =>
    obtain ⟨edited, hEdit, hPure⟩ := bind_eq_ok.mp hRun
    cases pure_eq_ok.mp hPure
    obtain ⟨done, hCarry, hPure⟩ := bind_eq_ok.mp hEdit
    cases pure_eq_ok.mp hPure
    exact .inr ⟨levels, done.2, hPlan, hCarry, rfl, rfl⟩

/- Work on a nest keeps a function valid, and its operations in the body. -/
theorem healthy_of_perfectNest (hHealthy : p.function.Healthy)
    (hRoot : p.function.graph.Reached p.function.body root)
    (hKept : ∀ x ∈ roots, p.function.graph.Reached p.function.body x)
    (hRun : p.perfectNest root = .ok p') :
    p'.function.Healthy ∧ ∀ x ∈ roots, p'.function.graph.Reached p'.function.body x := by
  rcases cases_of_perfectNest hRun with ⟨_, _, hSame, _⟩ | ⟨levels, g', hPlan, hCarry, hSame, _⟩
  · rw [hSame]
    exact ⟨hHealthy, hKept⟩
  rw [hSame]
  cases levels with
  | nil =>
    obtain ⟨-, rfl⟩ := run_pure_eq_ok.mp hCarry
    exact ⟨hHealthy, hKept⟩
  | cons level levels =>
    rcases Perfection.underway_of_plan hHealthy.coherent hHealthy.shaped
      hHealthy.plain hHealthy.countable hRoot hKept hPlan with
      ⟨inner, sunk, rungs, hUnder, hScheduled⟩
    obtain ⟨_, hInner, hCarry⟩ := Edit.run_ask_bind.mp hCarry
    cases hInner.symm.trans hScheduled.inner_head
    rcases Perfection.run_sinkLevels hScheduled hUnder hHealthy.sighted
      (mem_singleton_self inner) hCarry with ⟨_, _, hUnder', hSighted⟩
    exact ⟨⟨hUnder'.coherent, hUnder'.shaped, hUnder'.plain,
      hUnder'.countable, hSighted⟩, fun x hMem => hUnder'.kept hMem⟩

theorem healthy_of_perfectNests (hHealthy : p.function.Healthy)
    (hRoots : ∀ x ∈ roots, p.function.graph.Reached p.function.body x)
    (hRun : roots.foldlM perfectNest p = .ok p') : p'.function.Healthy := by
  induction roots generalizing p with
  | nil =>
    cases hRun
    exact hHealthy
  | cons root roots ih =>
    rw [foldlM_cons] at hRun
    obtain ⟨p₁, hFirst, hRun⟩ := bind_eq_ok.mp hRun
    obtain ⟨hHead, hTail⟩ := forall_mem_cons.mp hRoots
    obtain ⟨hHealthy', hTail'⟩ := healthy_of_perfectNest hHealthy hHead hTail hFirst
    exact ih hHealthy' hTail' hRun

end Perfected

theorem Function.healthy_of_perfectLoops {f : Function} {p : Perfected} (hHealthy : f.Healthy)
    (hRun : f.perfectLoops = .ok p) : p.function.Healthy := by
  obtain ⟨ops, hOps, hRun⟩ := bind_eq_ok.mp hRun
  obtain ⟨roots, hRoots, hRun⟩ := bind_eq_ok.mp hRun
  refine Perfected.healthy_of_perfectNests hHealthy ?_ hRun
  intro x hMem
  have hIn := Answer.mem_of_filterM hRoots hMem
  obtain ⟨b, hLists⟩ := (mem_regionOps_iff hOps).mp hIn
  exact .top hLists

/-
  Perfection keeps modules valid in which loops have no results
  and only terminators in their bodies lead to other blocks;
  every operand is dominated by its definition.
-/
theorem Module.problems_of_perfectLoops {m : Module} {p : PerfectedModule}
    (hCoherent : ∀ f ∈ m.functions, f.graph.Coherent)
    (hSize : ∀ f ∈ m.functions, f.graph.ops.slots.size ≤ 2 ^ 32)
    (hPlain : ∀ f ∈ m.functions, f.Plain) (hValid : m.problems = .ok [])
    (hRun : m.perfectLoops = .ok p) :
    p.module.problems = .ok [] ∧ ∀ f ∈ p.module.functions, ∀ x o v, f.graph.Reached f.body x →
        f.graph.op x = .ok o → v ∈ o.operands →
          ∃ q, (f.graph.valueDominates v x).run (.fresh .forward) = .ok (true, q) := by
  obtain ⟨lists, hLists, hPure⟩ := bind_eq_ok.mp hValid
  have hNone := flatten_eq_nil_iff.mp (pure_eq_ok.mp hPure)
  obtain ⟨results, hResults, hPure⟩ := bind_eq_ok.mp hRun
  cases pure_eq_ok.mp hPure
  have hAll : ∀ f' ∈ results.map (·.function), f'.Healthy := by
    intro f' hMem
    obtain ⟨r, hIn, rfl⟩ := mem_map.mp hMem
    obtain ⟨f, hFunction, hPerfect⟩ := Answer.exists_of_mem_mapM hResults hIn
    obtain ⟨problems, hList, hProblems⟩ := exists_of_mapM hLists hFunction
    rw [hNone problems hList] at hProblems
    exact Function.healthy_of_perfectLoops (Function.healthy_of_problems hProblems
      (hCoherent f hFunction) (hPlain f hFunction) (hSize f hFunction)) hPerfect
  constructor
  · exact Answer.flatten_of_nil fun f' hMem => (hAll f' hMem).problems
  · intro f' hMem x o v hReached hOp hOperand
    have hHealthy := hAll f' hMem
    have hIntact := intact_of_coherent hHealthy.coherent
    exact (hIntact.valueDominates_iff (hHealthy.shaped.linked_body hIntact)
      hReached).mpr (hHealthy.sighted hReached hOp hOperand)

------
-- Examples
------

theorem Function.plain_of_everyOp {f : Function}
    (hQuiet : f.graph.everyOp (fun o =>
      !o.kind.isLoop || o.results.isEmpty) = true)
    (hStraight : f.graph.everyOp (fun o =>
      o.kind.isTerminator || o.successors.isEmpty) = true) : f.Plain where
  quiet _ hOp hLoop := by simpa [hLoop] using test_of_everyOp hQuiet hOp
  straight _ _ _ _ hOp hInner := by simpa [hInner] using test_of_everyOp hStraight hOp

/- A loop of a number of iterations, from zero. -/
def Mutation.createLoop (upper : Int) : Mutation :=
  .createOp (.loop (.ofConstant 0) (.ofConstant upper) 1) [] [] []

/-
  Three loops with statements before and after the inner ones,
  which use results from the loops around them.
-/
def layeredHistory : List Mutation := [ .createRegion none,
    .createBlock ⟨0⟩ [.memref [4] .i32],
    .createLoop 4,
    .append ⟨0⟩ ⟨0⟩,
    .createRegion (some ⟨0⟩),
    .createBlock ⟨1⟩ [.index],
    .createOp (.constant (.i32 7)) [] [.i32] [],
    .append ⟨1⟩ ⟨1⟩,
    .createLoop 2,
    .append ⟨1⟩ ⟨2⟩,
    .createRegion (some ⟨2⟩),
    .createBlock ⟨2⟩ [.index],
    .createOp (.arith .addi) [⟨2⟩, ⟨2⟩] [.i32] [],
    .append ⟨2⟩ ⟨3⟩,
    .createLoop 3,
    .append ⟨2⟩ ⟨4⟩,
    .createRegion (some ⟨4⟩),
    .createBlock ⟨3⟩ [.index],
    .createOp .store [⟨4⟩, ⟨0⟩, ⟨5⟩] [] [],
    .append ⟨3⟩ ⟨5⟩,
    .createOp .yield [] [] [],
    .append ⟨3⟩ ⟨6⟩,
    .createOp .store [⟨4⟩, ⟨0⟩, ⟨3⟩] [] [],
    .append ⟨2⟩ ⟨7⟩,
    .createOp .yield [] [] [],
    .append ⟨2⟩ ⟨8⟩,
    .createOp .store [⟨2⟩, ⟨0⟩, ⟨1⟩] [] [],
    .append ⟨1⟩ ⟨9⟩,
    .createOp .yield [] [] [],
    .append ⟨1⟩ ⟨10⟩,
    .createOp .ret [] [] [],
    .append ⟨0⟩ ⟨11⟩ ]

def layered : Function where
  name := "layered"
  graph := .ofHistory layeredHistory
  body := ⟨0⟩
  resultTypes := []

theorem layered_coherent : layered.graph.Coherent := by
  unfold layered
  dsimp only
  exact coherent_ofHistory layeredHistory rfl

theorem layered_plain : layered.Plain :=
  Function.plain_of_everyOp (by decide +kernel) (by decide +kernel)

theorem Module.layered_problems_of_perfectLoops :
    ((Module.mk [layered]).problems = .ok [] ∧ layered.graph.Coherent ∧
      layered.graph.ops.slots.size ≤ 2 ^ 32 ∧ layered.Plain) ∧
    ∃ p, (Module.mk [layered]).perfectLoops = .ok p ∧ p.perfected = 1 ∧
      p.module.problems = .ok [] := by
  have hValid : (Module.mk [layered]).problems = .ok [] := by decide +kernel
  have hSize : layered.graph.ops.slots.size ≤ 2 ^ 32 := by
    have hTwelve : layered.graph.ops.slots.size = 12 := by decide +kernel
    rw [hTwelve]
    norm_num
  have hCount : (do return (← (Module.mk [layered]).perfectLoops).perfected) = .ok 1 := by
    decide +kernel
  obtain ⟨p, hRun, hPure⟩ := bind_eq_ok.mp hCount
  have hKept := problems_of_perfectLoops (m := Module.mk [layered])
    (forall_mem_singleton.mpr layered_coherent) (forall_mem_singleton.mpr hSize)
    (forall_mem_singleton.mpr layered_plain) hValid hRun
  exact ⟨⟨hValid, layered_coherent, hSize, layered_plain⟩,
    p, hRun, pure_eq_ok.mp hPure, hKept.1⟩

/- A constant that leads to the block it is in, beside an inner loop. -/
def strayingHistory : List Mutation := [ .createRegion none,
    .createBlock ⟨0⟩ [],
    .createLoop 3,
    .append ⟨0⟩ ⟨0⟩,
    .createRegion (some ⟨0⟩),
    .createBlock ⟨1⟩ [.index],
    .createOp (.constant (.i32 7)) [] [.i32] [⟨1⟩],
    .append ⟨1⟩ ⟨1⟩,
    .createLoop 2,
    .append ⟨1⟩ ⟨2⟩,
    .createRegion (some ⟨2⟩),
    .createBlock ⟨2⟩ [.index],
    .createOp .yield [] [] [],
    .append ⟨2⟩ ⟨3⟩,
    .createOp .yield [] [] [],
    .append ⟨1⟩ ⟨4⟩,
    .createOp .ret [] [] [],
    .append ⟨0⟩ ⟨5⟩ ]

def straying : Function where
  name := "straying"
  graph := .ofHistory strayingHistory
  body := ⟨0⟩
  resultTypes := []

theorem straying_coherent : straying.graph.Coherent := by
  unfold straying
  dsimp only
  exact coherent_ofHistory strayingHistory rfl

theorem straying_quiet : straying.graph.everyOp (fun o =>
    !o.kind.isLoop || o.results.isEmpty) = true := by
  decide +kernel

/- What is sunk may lead out of the region it ends up in. -/
theorem Module.straying_problems_of_perfectLoops :
    ((Module.mk [straying]).problems = .ok [] ∧ straying.graph.Coherent ∧
      ∀ x o, straying.graph.op x = .ok o → o.kind.isLoop = true → o.results = []) ∧
    ∃ p, (Module.mk [straying]).perfectLoops = .ok p ∧ p.module.problems =
      .ok ["Function 'straying': branch from bb2 leaves its region"] := by
  have hValid : (Module.mk [straying]).problems = .ok [] := by decide +kernel
  have hAfter : (do (← (Module.mk [straying]).perfectLoops).module.problems) =
      .ok ["Function 'straying': branch from bb2 leaves its region"] := by
    decide +kernel
  refine ⟨⟨hValid, straying_coherent, ?_⟩, bind_eq_ok.mp hAfter⟩
  intro x o hOp hLoop
  simpa [hLoop] using test_of_everyOp straying_quiet hOp

end AffineIR
