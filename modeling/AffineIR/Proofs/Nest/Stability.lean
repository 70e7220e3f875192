import AffineIR.Proofs.Nest.Emptying
import AffineIR.Proofs.Nest.Perfecting

/-
  Perfection settles the nests of a function.

  A nest at the top is refused and stays as it was, or becomes
  perfect, and no nest is disturbed by work on another one.  So
  a nest gets the plan it had at the start, whatever happened to
  those before it.  In the result there is nothing left to do,
  and what was refused is refused again.

  Main result: `Function.settled_of_perfectLoops`
-/

namespace AffineIR

open Answer List

variable {ops roots : List OpId} {f : Function} {e : NestRefusal}

namespace Graph

variable {g g' : Graph} {body : RegionId} {b c : BlockId} {s t x root : OpId}

/- Nests at the top share nothing. -/
theorem Intact.eq_of_tops (hIntact : g.Intact) (hLinked : g.Linked body none)
    (hFirst : g.Lists body b s) (hSecond : g.Lists body c t) (hInside : g.Inside s x)
    (hInside' : g.Inside t x) : s = t := by
  have hSits {z : OpId} {d : BlockId} (hLists : g.Lists body d z) : g.Sits z d body := by
    obtain ⟨⟨reg, hRegion, hListed⟩, blk, hBlock, hMem⟩ := hLists
    obtain ⟨_, hSame, rfl⟩ := hIntact.listed hRegion hListed
    cases hBlock.symm.trans hSame
    exact hIntact.sits_of_mem hBlock hMem
  exact hIntact.eq_of_inside hLinked (hInside.reached (.top hFirst)) hInside
    hInside' (hSits hFirst) (hSits hSecond)

/- Work that is confined to a nest at the top keeps the others. -/
theorem Confined.keepsNest (hConfined : g.Confined g' body root) (hIntact : g.Intact)
    (hLinked : g.Linked body none) (hRoot : g.Lists body b root) (hTop : g.Lists body c t)
    (hOther : t ≠ root) : g.KeepsNest g' t := by
  intro x hInside
  obtain ⟨o, hOp⟩ := hIntact.op_of_reached (hInside.reached (.top hTop))
  refine hConfined.op hOp ?_
  intro hInside'
  exact hOther (hIntact.eq_of_tops hLinked hTop hRoot hInside hInside')

/- Every operation is at one place only. -/
theorem Intact.nodup_regionOps {r : RegionId} (hIntact : g.Intact)
    (hOps : g.regionOps r = .ok ops) : ops.Nodup := by
  obtain ⟨reg, hRegion, hRest⟩ := bind_eq_ok.mp hOps
  obtain ⟨blocks, hBlocks, hPure⟩ := bind_eq_ok.mp hRest
  cases pure_eq_ok.mp hPure
  have hIds := hIntact.nodup_blocks hRegion
  clear hOps hRest hPure hRegion
  generalize reg.blocks = ids at hBlocks hIds
  induction ids generalizing blocks with
  | nil =>
    cases hBlocks
    exact nodup_nil
  | cons id ids ih =>
    obtain ⟨blk, rest, hBlock, hRest, rfl⟩ := mapM_cons_eq_ok.mp hBlocks
    obtain ⟨hNew, hIds⟩ := nodup_cons.mp hIds
    rw [flatMap_cons, nodup_append]
    refine ⟨hIntact.nodup_ops hBlock, ih rest hRest hIds, ?_⟩
    rintro x hMem y hThere rfl
    obtain ⟨blk', hIn, hMem'⟩ := mem_flatMap.mp hThere
    obtain ⟨id', hId, hBlock'⟩ := Answer.exists_of_mem_mapM hRest hIn
    have hSame := (hIntact.sits_of_mem hBlock hMem).unique (hIntact.sits_of_mem hBlock' hMem')
    exact hNew (hSame.1 ▸ hId)

/- Loops are found by their kind. -/
theorem filterM_isLoop (hLive : ∀ x ∈ ops, ∃ o, g.op x = .ok o) :
    ops.filterM (fun x => (return (← g.kind x).isLoop : Except Fault Bool)) =
      .ok (ops.filter g.isLoop) := by
  refine Answer.filterM_of_forall ?_
  intro x hMem
  obtain ⟨o, hOp⟩ := hLive x hMem
  unfold Graph.kind
  rw [isLoop_of_op hOp, hOp]
  rfl

end Graph

------
-- Progress
------

/- The refusal that a nest gets, if it gets one. -/
def Function.refusal? (f : Function) (root : OpId) : Option NestRefusal :=
  match Perfection.plan f.graph f.name root with
  | .error (.refusal e) => some e
  | _ => none

theorem Function.refusal?_eq_some {root : OpId} :
    f.refusal? root = some e ↔ Perfection.plan f.graph f.name root = .error (.refusal e) := by
  unfold refusal?
  split
  next hPlan =>
    rw [hPlan]
    simp
  next hPlan =>
    simp only [reduceCtorEq, false_iff]
    exact hPlan e

/- The plan for a nest after work on it. -/
def Function.planAfter (f : Function) (root : OpId) : Plan (List NestLevel) :=
  match f.refusal? root with
  | some e => .error (.refusal e)
  | none => .ok []

namespace Perfected

/- Some nests of a function have been worked on. -/
structure Progress (f : Function) (done : List OpId) (p : Perfected) : Prop where
  same : p.function = { f with graph := p.function.graph }
  coherent : p.function.graph.Coherent
  tops {r : OpId} (hDone : r ∈ done) : ∃ b, f.graph.Lists f.body b r
  top : f.graph.KeepsRegion p.function.graph f.body
  op {x : OpId} {o : Operation} (hOp : f.graph.op x = .ok o)
    (hOutside : ∀ r ∈ done, f.refusal? r = none → ¬f.graph.Inside r x) :
    f.graph.KeepsOp p.function.graph x
  moves {x : OpId} {o : Operation} (hOp : f.graph.op x = .ok o) :
    ∃ q, p.function.graph.op x = .ok { o with parent := q }
  inside {r x : OpId} {b : BlockId} {o : Operation}
    (hTop : f.graph.Lists f.body b r) (hOp : f.graph.op x = .ok o) :
    p.function.graph.Inside r x ↔ f.graph.Inside r x
  rises {x : OpId} {o : Operation} (hOp : f.graph.op x = .ok o) :
    (∃ ls, p.function.graph.Rises x ls) ↔ ∃ ls, f.graph.Rises x ls
  perfect {r : OpId} (hDone : r ∈ done) (hNone : f.refusal? r = none) : p.function.graph.Perfect r
  refusals : p.refusals = done.filterMap f.refusal?

namespace Progress

variable {done : List OpId} {p p' : Perfected} {root r : OpId} {b : BlockId}

theorem start (hCoherent : f.graph.Coherent) :
    Progress f [] { function := f } where
  same := rfl
  coherent := hCoherent
  tops hDone := absurd hDone not_mem_nil
  top := .refl _ _
  op _ _ := .refl _ _
  moves {_ o} hOp := ⟨o.parent, hOp⟩
  inside _ _ := Iff.rfl
  rises _ := Iff.rfl
  perfect hDone := absurd hDone not_mem_nil
  refusals := rfl

theorem tops_concat {t : OpId} (h : Progress f done p) (hTop : f.graph.Lists f.body b root)
    (hMem : t ∈ done ++ [root]) : ∃ c, f.graph.Lists f.body c t := by
  rcases mem_append.mp hMem with hDone | hLast
  · exact h.tops hDone
  · rw [mem_singleton.mp hLast]
    exact ⟨b, hTop⟩

/- A refused nest adds its refusal. -/
theorem refuse (h : Progress f done p) (hTop : f.graph.Lists f.body b root)
    (hSame : p'.function = p.function) (hRefused : f.refusal? root = some e)
    (hRefusals : p'.refusals = p.refusals ++ [e]) : Progress f (done ++ [root]) p' where
  same := hSame ▸ h.same
  coherent := hSame ▸ h.coherent
  tops := h.tops_concat hTop
  top := hSame ▸ h.top
  op hOp hOutside := hSame ▸ h.op hOp fun r hDone => hOutside r (mem_append_left _ hDone)
  moves hOp := hSame ▸ h.moves hOp
  inside hTop hOp := hSame ▸ h.inside hTop hOp
  rises hOp := hSame ▸ h.rises hOp
  perfect hDone hNone := by
    rw [hSame]
    rcases mem_append.mp hDone with hDone | hDone
    · exact h.perfect hDone hNone
    · cases mem_singleton.mp hDone
      cases hNone.symm.trans hRefused
  refusals := by
    rw [hRefusals, h.refusals, filterMap_append, filterMap_cons_some hRefused]
    rfl

variable (hCoherent : f.graph.Coherent) (hShaped : f.Shaped) (h : Progress f done p)

include hCoherent hShaped h

theorem linked : p.function.graph.Linked f.body none :=
  h.top.linked (Graph.intact_of_coherent h.coherent)
    (hShaped.linked_body (Graph.intact_of_coherent hCoherent))

/- Nests that have not been perfected are as they were. -/
theorem keepsNest (hTop : f.graph.Lists f.body b r)
    (hOther : r ∈ done → f.refusal? r ≠ none) : f.graph.KeepsNest p.function.graph r := by
  have hIntact := Graph.intact_of_coherent hCoherent
  intro x hInside
  obtain ⟨o, hOp⟩ := hIntact.op_of_reached (hInside.reached (.top hTop))
  refine h.op hOp ?_
  intro t hDone hNone hInside'
  obtain ⟨c, hTop'⟩ := h.tops hDone
  cases hIntact.eq_of_tops (hShaped.linked_body hIntact) hTop hTop' hInside hInside'
  exact hOther hDone hNone

theorem twins (hTop : f.graph.Lists f.body b r) (hOther : r ∈ done → f.refusal? r ≠ none) :
    Perfection.Twins f.graph p.function.graph r where
  intact := Graph.intact_of_coherent hCoherent
  intact' := Graph.intact_of_coherent h.coherent
  keeps := h.keepsNest hCoherent hShaped hTop hOther
  top := (hShaped.linked_body (Graph.intact_of_coherent hCoherent)).parentOp? hTop
  top' := (h.linked hCoherent hShaped).parentOp? (h.top.lists hTop)
  rises hOp _ := h.rises hOp

/- Other nests become perfect. -/
theorem settle {g' : Graph} (hTop : f.graph.Lists f.body b root) (hNew : root ∉ done)
    (hNone : f.refusal? root = none) (hSame : p'.function = { p.function with graph := g' })
    (hRefusals : p'.refusals = p.refusals) (hCoherent' : g'.Coherent)
    (hConfined : p.function.graph.Confined g' f.body root)
    (hPerfect : g'.Perfect root) : Progress f (done ++ [root]) p' := by
  have hIntact := Graph.intact_of_coherent h.coherent
  have hLinked := h.linked hCoherent hShaped
  have hOthers {t : OpId} {c : BlockId} (hThere : f.graph.Lists f.body c t)
      (hOther : t ≠ root) : p.function.graph.KeepsNest g' t :=
    hConfined.keepsNest hIntact hLinked (h.top.lists hTop) (h.top.lists hThere) hOther
  have hGraph : p'.function.graph = g' := by rw [hSame]
  exact {
    same := by rw [hSame, h.same]
    coherent := hGraph ▸ hCoherent'
    tops := h.tops_concat hTop
    top := hGraph ▸ h.top.trans hConfined.top
    op := by
      intro x o hOp hOutside
      rw [hGraph]
      obtain ⟨q, hOp'⟩ := h.moves hOp
      refine (h.op hOp fun t hDone => hOutside t (mem_append_left _ hDone)).trans
        (hConfined.op hOp' ?_)
      rw [h.inside hTop hOp]
      exact hOutside root (mem_append_right _ (mem_singleton_self root)) hNone
    moves := by
      intro x o hOp
      rw [hGraph]
      obtain ⟨q, hOp'⟩ := h.moves hOp
      obtain ⟨q', hOp''⟩ := hConfined.moves hOp'
      exact ⟨q', hOp''⟩
    inside := by
      intro t x c o hThere hOp
      rw [hGraph, ← h.inside hThere hOp]
      by_cases hSame : t = root
      · obtain ⟨q, hOp'⟩ := h.moves hOp
        rw [hSame]
        exact hConfined.inside hOp'
      · exact (hOthers hThere hSame).inside_iff
    rises := by
      intro x o hOp
      rw [hGraph]
      obtain ⟨q, hOp'⟩ := h.moves hOp
      exact (hConfined.rises hOp').trans (h.rises hOp)
    perfect := by
      intro t hDone hNone
      rw [hGraph]
      rcases mem_append.mp hDone with hDone | hDone
      · obtain ⟨c, hThere⟩ := h.tops hDone
        exact (hOthers hThere fun hEq => hNew (hEq ▸ hDone)).perfect (h.perfect hDone hNone)
      · rwa [mem_singleton.mp hDone]
    refusals := by
      rw [hRefusals, h.refusals, filterMap_append,
        filterMap_cons_none hNone, filterMap_nil, append_nil] }

/- Work on the next nest. -/
theorem step (hTop : f.graph.Lists f.body b root) (hLoop : f.graph.isLoop root = true)
    (hNew : root ∉ done) (hRun : p.perfectNest root = .ok p') : Progress f (done ++ [root]) p' := by
  have hName : p.function.name = f.name := by rw [h.same]
  have hTwins := h.twins hCoherent hShaped hTop (absurd · hNew)
  have hFollows : Perfection.Follows (Perfection.plan p.function.graph p.function.name root)
      (Perfection.plan f.graph f.name root) := hName ▸ hTwins.symm.plan
  rcases cases_of_perfectNest hRun with
    ⟨e, hPlan, hSame, hRefusals⟩ | ⟨levels, g', hPlan, hCarry, hSame, hRefusals⟩
  · have hPlan' := (hFollows.eq (by simp [hPlan])).trans hPlan
    exact h.refuse hTop hSame (Function.refusal?_eq_some.mpr hPlan') hRefusals
  · have hPlan' := (hFollows.eq (by simp [hPlan])).trans hPlan
    have hNone : f.refusal? root = none := by
      unfold Function.refusal?
      rw [hPlan']
    rcases Perfection.emptying_of_plan hCoherent hShaped hTop hLoop hPlan' with
      ⟨inner, rungs, hEmptying, hScheduled⟩
    rcases Perfection.perfect_of_carryOut hScheduled
      (hEmptying.transfer h.coherent h.top hTwins.keeps) hCarry with
      ⟨hCoherent', hConfined, hPerfect⟩
    exact h.settle hCoherent hShaped hTop hNew hNone hSame hRefusals hCoherent' hConfined hPerfect

omit h in
/- Work on all nests. -/
theorem run (h : Progress f done p) (hTops : ∀ r ∈ roots, ∃ b, f.graph.Lists f.body b r)
    (hLoops : ∀ r ∈ roots, f.graph.isLoop r = true) (hNodup : (done ++ roots).Nodup)
    (hRun : roots.foldlM perfectNest p = .ok p') : Progress f (done ++ roots) p' := by
  induction roots generalizing done p with
  | nil =>
    cases hRun
    rwa [append_nil]
  | cons root roots ih =>
    rw [foldlM_cons] at hRun
    obtain ⟨p₁, hFirst, hRun⟩ := bind_eq_ok.mp hRun
    obtain ⟨⟨b, hTop⟩, hTops⟩ := forall_mem_cons.mp hTops
    obtain ⟨hLoop, hLoops⟩ := forall_mem_cons.mp hLoops
    have hNew : root ∉ done := by
      rw [nodup_middle, nodup_cons] at hNodup
      exact fun hMem => hNodup.1 (mem_append_left _ hMem)
    rw [append_cons] at hNodup ⊢
    exact ih (h.step hCoherent hShaped hTop hLoop hNew hFirst) hTops hLoops hNodup hRun

/- In the result every nest is refused as before, or there is nothing to do. -/
theorem plan_done
    (hDone : r ∈ done) : Perfection.plan p.function.graph p.function.name r = f.planAfter r := by
  have hName : p.function.name = f.name := by rw [h.same]
  obtain ⟨b, hTop⟩ := h.tops hDone
  unfold Function.planAfter
  rw [hName]
  cases hRefused : f.refusal? r with
  | none =>
    exact Perfection.plan_of_perfect (Graph.intact_of_coherent h.coherent)
      (h.linked hCoherent hShaped) (.top (h.top.lists hTop)) (h.perfect hDone hRefused)
  | some e =>
    have hPlan := Function.refusal?_eq_some.mp hRefused
    have hTwins := h.twins hCoherent hShaped hTop (by simp [hRefused])
    exact (hTwins.plan.eq (by simp [hPlan])).trans hPlan

end Progress

/- Nests that are settled are not worked on again. -/
theorem foldlM_of_settled {p : Perfected}
    (hEach : ∀ r ∈ roots, Perfection.plan p.function.graph p.function.name r = f.planAfter r) :
    ∃ q, roots.foldlM perfectNest p = .ok q ∧ q.function = p.function ∧
      q.refusals = p.refusals ++ roots.filterMap f.refusal? ∧ q.perfected = p.perfected := by
  induction roots generalizing p with
  | nil => exact ⟨p, rfl, rfl, (append_nil _).symm, rfl⟩
  | cons r roots ih =>
    obtain ⟨hFirst, hRest⟩ := forall_mem_cons.mp hEach
    rw [foldlM_cons]
    cases hRefused : f.refusal? r with
    | none =>
      rw [Function.planAfter, hRefused] at hFirst
      have hNest : p.perfectNest r = .ok p := by
        unfold perfectNest
        simp only [hFirst]
        rfl
      rw [hNest, ok_bind, filterMap_cons_none hRefused]
      exact ih hRest
    | some e =>
      rw [Function.planAfter, hRefused] at hFirst
      have hNest : p.perfectNest r = .ok { p with
          refusals := p.refusals ++ [e]
          log := p.log ++ [⟨.error, e.message⟩] } := by
        unfold perfectNest
        simp only [hFirst]
        rfl
      rw [hNest, ok_bind, filterMap_cons_some hRefused]
      rcases ih (p := { p with
          refusals := p.refusals ++ [e]
          log := p.log ++ [⟨.error, e.message⟩] }) hRest with
        ⟨q, hFold, hSame, hRefusals, hCount⟩
      refine ⟨q, hFold, hSame, ?_, hCount⟩
      rw [hRefusals, append_assoc, singleton_append]

end Perfected

/-
  Perfection leaves a nest at the top as it was, with a refusal,
  or makes it perfect, and does nothing outside the nests.  If
  it is run again it changes nothing and refuses the same nests.
-/
theorem Function.settled_of_perfectLoops {f : Function} {p : Perfected}
    (hCoherent : f.graph.Coherent) (hValid : f.problems = .ok []) (hRun : f.perfectLoops = .ok p) :
    ∃ ops, f.graph.regionOps f.body = .ok ops ∧ p.function = { f with graph := p.function.graph } ∧
      p.refusals = (ops.filter f.graph.isLoop).filterMap f.refusal? ∧
      (∀ r ∈ ops, f.graph.isLoop r = true →
        (∃ e, f.refusal? r = some e) ∧ f.graph.KeepsNest p.function.graph r ∨
        f.refusal? r = none ∧ p.function.graph.Perfect r) ∧ (∀ x o, f.graph.op x = .ok o →
        (∀ r ∈ ops, f.graph.isLoop r = true → ¬f.graph.Inside r x) →
          f.graph.KeepsOp p.function.graph x) ∧ (∀ r ∈ ops, ∀ x o, f.graph.op x = .ok o →
        (p.function.graph.Inside r x ↔ f.graph.Inside r x)) ∧
      f.graph.KeepsRegion p.function.graph f.body ∧
      ∃ q, p.function.perfectLoops = .ok q ∧ q.function = p.function ∧
        q.refusals = p.refusals ∧ q.perfected = 0 := by
  have hIntact := Graph.intact_of_coherent hCoherent
  have hShaped := ((problems_eq_nil_iff hIntact).mp hValid).1
  obtain ⟨ops, hOps, hRun⟩ := bind_eq_ok.mp hRun
  obtain ⟨roots, hRoots, hRun⟩ := bind_eq_ok.mp hRun
  have hTops : ∀ r ∈ ops, ∃ b, f.graph.Lists f.body b r :=
    fun r hMem => (Graph.mem_regionOps_iff hOps).mp hMem
  have hLive : ∀ r ∈ ops, ∃ o, f.graph.op r = .ok o := by
    intro r hMem
    obtain ⟨b, hTop⟩ := hTops r hMem
    exact hIntact.op_of_reached (.top hTop)
  cases hRoots.symm.trans (Graph.filterM_isLoop hLive)
  have hDone : Perfected.Progress f (ops.filter f.graph.isLoop) p := by
    refine (Perfected.Progress.start hCoherent).run hCoherent hShaped ?_ ?_ ?_ hRun
    · exact fun r hMem => hTops r (mem_filter.mp hMem).1
    · exact fun r hMem => (mem_filter.mp hMem).2
    · exact (hIntact.nodup_regionOps hOps).filter _
  refine ⟨ops, hOps, hDone.same, hDone.refusals, ?_, ?_, ?_, hDone.top, ?_⟩
  · intro r hMem hLoop
    obtain ⟨b, hTop⟩ := hTops r hMem
    cases hRefused : f.refusal? r with
    | none => exact .inr ⟨rfl, hDone.perfect (mem_filter.mpr ⟨hMem, hLoop⟩) hRefused⟩
    | some e => exact .inl ⟨⟨e, rfl⟩, hDone.keepsNest hCoherent hShaped hTop (by simp [hRefused])⟩
  · intro x o hOp hOutside
    refine hDone.op hOp ?_
    intro r hMem _
    exact hOutside r (mem_filter.mp hMem).1 (mem_filter.mp hMem).2
  · intro r hMem x o hOp
    obtain ⟨b, hTop⟩ := hTops r hMem
    exact hDone.inside hTop hOp
  · have hBody : p.function.body = f.body := by rw [hDone.same]
    have hOps' : p.function.graph.regionOps p.function.body = .ok ops := by
      rw [hBody]
      exact hDone.top.regionOps hOps
    have hLive' : ∀ r ∈ ops, ∃ o, p.function.graph.op r = .ok o := by
      intro r hMem
      obtain ⟨o, hOp⟩ := hLive r hMem
      obtain ⟨q, hOp'⟩ := hDone.moves hOp
      exact ⟨_, hOp'⟩
    have hLoops : ops.filter p.function.graph.isLoop = ops.filter f.graph.isLoop := by
      refine filter_congr ?_
      intro r hMem
      obtain ⟨o, hOp⟩ := hLive r hMem
      obtain ⟨q, hOp'⟩ := hDone.moves hOp
      rw [Graph.isLoop_of_op hOp, Graph.isLoop_of_op hOp']
    have hRoots' := Graph.filterM_isLoop hLive'
    rw [hLoops] at hRoots'
    have hEach := fun r hMem => hDone.plan_done (r := r) hCoherent hShaped hMem
    rcases Perfected.foldlM_of_settled (p := { function := p.function }) hEach with
      ⟨q, hFold, hSame, hRefusals, hCount⟩
    refine ⟨q, ?_, hSame, ?_, hCount⟩
    · exact bind_eq_ok.mpr ⟨ops, hOps', bind_eq_ok.mpr ⟨_, hRoots', hFold⟩⟩
    · rw [hRefusals, hDone.refusals]
      rfl

/- A nest with parallel loops, and one with statements around a loop. -/
def siblingsHistory : List Mutation := [ .createRegion none,
    .createBlock ⟨0⟩ [.memref [4] .i32],
    .createLoop 4,
    .append ⟨0⟩ ⟨0⟩,
    .createRegion (some ⟨0⟩),
    .createBlock ⟨1⟩ [.index],
    .createLoop 2,
    .append ⟨1⟩ ⟨1⟩,
    .createRegion (some ⟨1⟩),
    .createBlock ⟨2⟩ [.index],
    .createOp .yield [] [] [],
    .append ⟨2⟩ ⟨2⟩,
    .createLoop 3,
    .append ⟨1⟩ ⟨3⟩,
    .createRegion (some ⟨3⟩),
    .createBlock ⟨3⟩ [.index],
    .createOp .yield [] [] [],
    .append ⟨3⟩ ⟨4⟩,
    .createOp .yield [] [] [],
    .append ⟨1⟩ ⟨5⟩,
    .createLoop 4,
    .append ⟨0⟩ ⟨6⟩,
    .createRegion (some ⟨6⟩),
    .createBlock ⟨4⟩ [.index],
    .createOp (.constant (.i32 7)) [] [.i32] [],
    .append ⟨4⟩ ⟨7⟩,
    .createLoop 2,
    .append ⟨4⟩ ⟨8⟩,
    .createRegion (some ⟨8⟩),
    .createBlock ⟨5⟩ [.index],
    .createOp .store [⟨5⟩, ⟨0⟩, ⟨6⟩] [] [],
    .append ⟨5⟩ ⟨9⟩,
    .createOp .yield [] [] [],
    .append ⟨5⟩ ⟨10⟩,
    .createOp .store [⟨5⟩, ⟨0⟩, ⟨4⟩] [] [],
    .append ⟨4⟩ ⟨11⟩,
    .createOp .yield [] [] [],
    .append ⟨4⟩ ⟨12⟩,
    .createOp .ret [] [] [],
    .append ⟨0⟩ ⟨13⟩ ]

def siblings : Function where
  name := "siblings"
  graph := .ofHistory siblingsHistory
  body := ⟨0⟩
  resultTypes := []

theorem siblings_coherent : siblings.graph.Coherent := by
  unfold siblings
  dsimp only
  exact Graph.coherent_ofHistory siblingsHistory rfl

/- One nest is refused, which does not stop the other one. -/
theorem Function.siblings_settled_of_perfectLoops :
    (siblings.graph.Coherent ∧ siblings.problems = .ok []) ∧
    ∃ p, siblings.perfectLoops = .ok p ∧ p.perfected = 1 ∧
      p.refusals = [.parallelLoops "siblings" ⟨0⟩] ∧ siblings.graph.KeepsNest p.function.graph ⟨0⟩ ∧
      p.function.graph.Perfect ⟨6⟩ ∧
      ∃ q, p.function.perfectLoops = .ok q ∧ q.function = p.function ∧
        q.refusals = p.refusals ∧ q.perfected = 0 := by
  have hValid : siblings.problems = .ok [] := by decide +kernel
  have hCount : (do
      let p ← siblings.perfectLoops
      return (p.perfected, p.refusals)) = .ok (1, [.parallelLoops "siblings" ⟨0⟩]) := by
    decide +kernel
  have hOps : siblings.graph.regionOps siblings.body = .ok [⟨0⟩, ⟨6⟩, ⟨13⟩] := by decide +kernel
  obtain ⟨p, hRun, hPure⟩ := bind_eq_ok.mp hCount
  obtain ⟨hPerfected, hRefusals⟩ := Prod.mk.inj (pure_eq_ok.mp hPure)
  rcases settled_of_perfectLoops siblings_coherent hValid hRun with
    ⟨ops, hOps', _, _, hNests, _, _, _, hAgain⟩
  cases hOps.symm.trans hOps'
  refine ⟨⟨siblings_coherent, hValid⟩, p, hRun, hPerfected, hRefusals, ?_, ?_, hAgain⟩
  · rcases hNests ⟨0⟩ (by simp) (by decide +kernel) with ⟨_, hKeeps⟩ | ⟨hNone, _⟩
    · exact hKeeps
    · have hSome : siblings.refusal? ⟨0⟩ ≠ none := by decide +kernel
      exact absurd hNone hSome
  · rcases hNests ⟨6⟩ (by simp) (by decide +kernel) with ⟨⟨e, hSome⟩, _⟩ | ⟨_, hPerfect⟩
    · have hNone : siblings.refusal? ⟨6⟩ = none := by decide +kernel
      cases hNone.symm.trans hSome
    · exact hPerfect

end AffineIR
