import AffineIR.Proofs.Graph.Sight

/-
  What validity says about intact graphs.

  The links of an intact graph agree, so what is left to check
  of a function is where its blocks end and branches lead, that
  operands fit the kinds of operations, and that all operands
  are seen where they are used.  A function without problems is
  exactly one of which this holds.

  Main result: `Function.problems_eq_nil_iff`
-/

namespace AffineIR

open Answer List Arena Validation

variable {o : Operation} {parent : Option OpId} {depth i : Nat} {ls : List OpId}

namespace Answer

variable {ε α β : Type}

theorem mapM_of_forall {f : α → Except ε β} {xs : List α}
    (hAll : ∀ x ∈ xs, ∃ y, f x = .ok y) : ∃ ys, xs.mapM f = .ok ys := by
  induction xs with
  | nil => exact ⟨[], rfl⟩
  | cons x xs ih =>
    obtain ⟨⟨y, hHead⟩, hTail⟩ := forall_mem_cons.mp hAll
    obtain ⟨ys, hRest⟩ := ih hTail
    exact ⟨y :: ys, mapM_cons_eq_ok.mpr ⟨y, ys, hHead, hRest, rfl⟩⟩

/- Problems that are not there one by one are not there together. -/
theorem mapM_of_nil {f : α → Except ε (List β)} {xs : List α}
    (hNil : ∀ x ∈ xs, f x = .ok []) : ∃ ys, xs.mapM f = .ok ys ∧ ys.flatten = [] := by
  obtain ⟨ys, hMap⟩ := mapM_of_forall fun x hMem => ⟨[], hNil x hMem⟩
  refine ⟨ys, hMap, flatten_eq_nil_iff.mpr ?_⟩
  intro y hMem
  obtain ⟨x, hIn, hEq⟩ := exists_of_mem_mapM hMap hMem
  rw [hNil x hIn] at hEq
  exact (Except.ok.inj hEq).symm

theorem flatten_of_nil {f : α → Except ε (List β)} {xs : List α} (hNil : ∀ x ∈ xs, f x = .ok []) :
    (do return (← xs.mapM f).flatten : Except ε (List β)) = .ok [] := by
  obtain ⟨ys, hMap, hNone⟩ := mapM_of_nil hNil
  exact bind_eq_ok.mpr ⟨ys, hMap, pure_eq_ok.mpr hNone⟩

end Answer

namespace Graph

/- The regions of a body, with the operations around them. -/
inductive Covers (g : Graph) (body : RegionId) : Option OpId → RegionId → Prop
  | top : Covers g body none body
  | inner {z : OpId} {o : Operation} {r : RegionId}
      (hReached : g.Reached body z) (hOp : g.op z = .ok o)
      (hMem : r ∈ o.regions) : Covers g body (some z) r

variable {g : Graph} {body r : RegionId} {b : BlockId} {x : OpId}

end Graph

------
-- Shapes
------

namespace Function

/- What validity says of a function, apart from links and dominance. -/
structure Shaped (f : Function) : Prop where
  root : ∃ reg, f.graph.region f.body = .ok reg ∧ reg.parent = none
  /- Terminators are last. -/
  last {parent : Option OpId} {b : BlockId} {blk : Block} {x : OpId}
    {o : Operation} (hCovers : f.graph.Covers f.body parent blk.parent)
    (hBlock : f.graph.block b = .ok blk) (hMem : x ∈ blk.ops.dropLast)
    (hOp : f.graph.op x = .ok o) : o.kind.isTerminator = false
  /- Branches stay in their region. -/
  stays {parent : Option OpId} {b s : BlockId} {blk : Block} {x : OpId}
    {o : Operation} (hCovers : f.graph.Covers f.body parent blk.parent)
    (hBlock : f.graph.block b = .ok blk) (hMem : x ∈ blk.ops)
    (hOp : f.graph.op x = .ok o) (hLeads : s ∈ o.successors) :
    ∃ next, f.graph.block s = .ok next ∧ next.parent = blk.parent
  /- Blocks end as what holds the region wants it. -/
  ends {parent : Option OpId} {b : BlockId} {blk : Block}
    (hCovers : f.graph.Covers f.body parent blk.parent) (hBlock : f.graph.block b = .ok blk) :
    ∃ kind, parent.mapM f.graph.kind = .ok kind ∧
      Validation.endProblems f.graph kind b blk.ops = .ok []
  kinds {x : OpId} (hReached : f.graph.Reached f.body x) : Validation.kindProblems f x = .ok []

/- Operands are seen where they are used. -/
def Sighted (f : Function) : Prop := ∀ ⦃x o v⦄, f.graph.Reached f.body x → f.graph.op x = .ok o →
    v ∈ o.operands → f.graph.Sees v x

variable {f : Function} {r : RegionId} {b : BlockId} {x : OpId}

theorem Shaped.linked_body (hShaped : f.Shaped)
    (hIntact : f.graph.Intact) : f.graph.Linked f.body none := by
  obtain ⟨reg, hRegion, hParent⟩ := hShaped.root
  rw [← hParent]
  exact hIntact.linked hRegion

theorem sound_of_covers (hValid : f.problems = .ok []) (hCovers : f.graph.Covers f.body parent r) :
    ∃ depth, Validation.Sound f.graph depth r parent := by
  cases hCovers with
  | top => exact ⟨_, sound_body hValid⟩
  | inner hReached hOp hMem =>
    obtain ⟨depth, hSound⟩ := sound_of_reached hValid hReached
    exact ⟨depth, hSound hOp hMem⟩

theorem shaped_of_problems (hValid : f.problems = .ok [])
    (hIntact : f.graph.Intact) : f.Shaped where
  root := by
    obtain ⟨reg, hRegion, hParent⟩ := (linked_body hValid).region
    exact ⟨reg, hRegion, hParent⟩
  last {parent b blk x o} hCovers hBlock hMem hOp := by
    obtain ⟨depth, hSound⟩ := sound_of_covers hValid hCovers
    obtain ⟨reg, hRegion, hListed⟩ := hIntact.home hBlock
    obtain ⟨i, hAt⟩ := List.getElem?_of_mem hMem
    have hLess := (List.getElem?_eq_some_iff.mp hAt).1
    rw [length_dropLast] at hLess
    rw [List.getElem?_dropLast, if_pos hLess] at hAt
    cases hTerminator : o.kind.isTerminator with
    | false => rfl
    | true =>
      have hLast := hSound.last hRegion hListed hBlock hAt hOp hTerminator
      omega
  stays hCovers hBlock hMem hOp hLeads := by
    obtain ⟨depth, hSound⟩ := sound_of_covers hValid hCovers
    exact hSound.stays (hIntact.sits_of_mem hBlock hMem).lists hOp hLeads
  ends hCovers hBlock := by
    obtain ⟨depth, hSound⟩ := sound_of_covers hValid hCovers
    obtain ⟨reg, hRegion, hListed⟩ := hIntact.home hBlock
    exact hSound.ends hRegion hListed hBlock
  kinds hReached := (kinds_of_reached hValid hReached).2.1

theorem sighted_of_problems (hValid : f.problems = .ok [])
    (hIntact : f.graph.Intact) : f.Sighted := by
  intro x o v hReached hOp hMem
  exact (hIntact.valueDominates_iff (linked_body hValid) hReached).mp
    (visible_of_operand hValid hReached hOp hMem)

section Shaped

variable (hIntact : f.graph.Intact) (hShaped : f.Shaped)

include hIntact hShaped

theorem placeProblems_of_shaped
    {nested : RegionId → OpId → Except Fault (List String)} {blk : Block}
    (hCovers : f.graph.Covers f.body parent blk.parent) (hBlock : f.graph.block b = .ok blk)
    (hAt : blk.ops[i]? = some x)
    (hNested : ∀ {o r}, f.graph.op x = .ok o → r ∈ o.regions → nested r x = .ok []) :
    Validation.placeProblems f.graph nested blk.parent b (i + 1 == blk.ops.length) x = .ok [] := by
  have hMem := mem_of_getElem? hAt
  obtain ⟨o, hOp, hParent⟩ := hIntact.placed hBlock hMem
  have hOrder : (o.kind.isTerminator && !(i + 1 == blk.ops.length)) = false := by
    by_cases hLast : i + 1 = blk.ops.length
    · simp [hLast]
    · have hLess := (List.getElem?_eq_some_iff.mp hAt).1
      have hFront : x ∈ blk.ops.dropLast := by
        apply mem_of_getElem? (i := i)
        rwa [List.getElem?_dropLast, if_pos (by omega)]
      rw [hShaped.last hCovers hBlock hFront hOp]
      rfl
  have hLeaves : ∃ leaves, (o.successors.mapM fun s => do
      return Validation.problemIf ((← f.graph.block s).parent ≠ blk.parent)
        ("branch from " ++ b.text ++ " leaves its region")) = .ok leaves ∧ leaves.flatten = [] := by
    apply mapM_of_nil
    intro s hLeads
    obtain ⟨next, hNext, hStays⟩ := hShaped.stays hCovers hBlock hMem hOp hLeads
    rw [hNext]
    refine pure_eq_ok.mpr (problemIf_eq_nil.mpr ?_)
    simpa using hStays
  obtain ⟨leaves, hLeaves, hStay⟩ := hLeaves
  obtain ⟨inner, hInner, hNone⟩ := mapM_of_nil fun r hHeld => hNested hOp hHeld
  unfold Validation.placeProblems
  refine bind_eq_ok.mpr ⟨o, hOp, ?_⟩
  refine bind_eq_ok.mpr ⟨leaves, hLeaves, ?_⟩
  refine bind_eq_ok.mpr ⟨inner, hInner, ?_⟩
  rw [pure_eq_ok]
  simp only [append_eq_nil_iff, problemIf_eq_nil]
  exact ⟨⟨⟨by simpa using hParent, hOrder⟩, hStay⟩, hNone⟩

/- Regions without problems further inside have none. -/
theorem regionProblems_of_inner (hCovers : f.graph.Covers f.body parent r)
    (hInner : ∀ {b x o r'}, f.graph.Lists r b x → f.graph.op x = .ok o → r' ∈ o.regions →
        Validation.regionProblemsUpTo f.graph depth r' (some x) = .ok []) :
    Validation.regionProblemsUpTo f.graph (depth + 1) r parent = .ok [] := by
  have hRegion : ∃ reg, f.graph.region r = .ok reg ∧ reg.parent = parent := by
    cases hCovers with
    | top => exact hShaped.root
    | inner _ hOp hMem => exact hIntact.held hOp hMem
  have hKind : ∃ kind, parent.mapM f.graph.kind = .ok kind := by
    cases hCovers with
    | top => exact ⟨none, rfl⟩
    | @inner z o _ _ hOp _ =>
      refine ⟨some o.kind, ?_⟩
      unfold Graph.kind
      rw [Option.mapM_some, hOp]
      rfl
  obtain ⟨reg, hRegion, hParent⟩ := hRegion
  obtain ⟨kind, hKind⟩ := hKind
  have hBlocks : ∀ b ∈ reg.blocks, Validation.blockProblems f.graph (fun region op =>
        Validation.regionProblemsUpTo f.graph depth region (some op))
      r kind b = .ok [] := by
    intro b hListed
    obtain ⟨blk, hBlock, rfl⟩ := hIntact.listed hRegion hListed
    obtain ⟨kind', hKind', hEnds⟩ := hShaped.ends hCovers hBlock
    cases hKind.symm.trans hKind'
    have hPlaces : ∀ p ∈ blk.ops.zipIdx, Validation.placeProblems f.graph (fun region op =>
          Validation.regionProblemsUpTo f.graph depth region (some op))
          blk.parent b (p.2 + 1 == blk.ops.length) p.1 = .ok [] := by
      intro p hMem
      rw [mem_zipIdx_iff_getElem?] at hMem
      exact placeProblems_of_shaped hIntact hShaped hCovers hBlock hMem
        (hInner (hIntact.sits_of_mem hBlock (mem_of_getElem? hMem)).lists)
    obtain ⟨inner, hPlaces, hNone⟩ := mapM_of_nil hPlaces
    unfold Validation.blockProblems
    refine bind_eq_ok.mpr ⟨blk, hBlock, ?_⟩
    refine bind_eq_ok.mpr ⟨inner, hPlaces, ?_⟩
    refine bind_eq_ok.mpr ⟨[], hEnds, ?_⟩
    rw [pure_eq_ok, hNone]
    simp [problemIf_eq_nil]
  obtain ⟨inner, hInner, hNone⟩ := mapM_of_nil hBlocks
  unfold Validation.regionProblemsUpTo
  refine bind_eq_ok.mpr ⟨reg, hRegion, ?_⟩
  refine bind_eq_ok.mpr ⟨kind, hKind, ?_⟩
  refine bind_eq_ok.mpr ⟨inner, hInner, ?_⟩
  rw [pure_eq_ok, hNone]
  simp [problemIf_eq_nil, hParent]

/-
  Regions inside an operation have no problems down to a depth
  that the way up from the operation leaves room for.
-/
theorem regionProblems_inside (hReached : f.graph.Reached f.body x) (hOp : f.graph.op x = .ok o)
    (hMem : r ∈ o.regions) (hRises : f.graph.Rises x ls)
    (hRoom : f.graph.ops.slots.size < ls.length + depth) :
    Validation.regionProblemsUpTo f.graph depth r (some x) = .ok [] := by
  induction depth generalizing x o r ls with
  | zero =>
    have hLength := hRises.length_le
    omega
  | succ depth ih =>
    apply regionProblems_of_inner hIntact hShaped (.inner hReached hOp hMem)
    intro b y o' r' hLists hOp' hMem'
    have hHolder : f.graph.Holder x y := ⟨o, r, b, hOp, hMem, hLists⟩
    apply ih (.child hReached hHolder) hOp' hMem'
      (.child (hIntact.parentOp?_of_holder hHolder) hRises)
    rw [length_cons]
    omega

theorem regionProblems_of_shaped : Validation.regionProblems f.graph f.body = .ok [] := by
  apply regionProblems_of_inner hIntact hShaped .top
  intro b x o r hLists hOp hMem
  exact regionProblems_inside hIntact hShaped (.top hLists) hOp hMem
    (.top ((hShaped.linked_body hIntact).parentOp? hLists)) (by simp)

end Shaped

end Function

namespace Graph

variable {g : Graph} {body r : RegionId} {x z : OpId}

namespace Intact

theorem regionOps {reg : Region} (hIntact : g.Intact)
    (hRegion : g.region r = .ok reg) : ∃ ops, g.regionOps r = .ok ops := by
  have hBlocks : ∃ blocks, reg.blocks.mapM g.block = .ok blocks := by
    apply mapM_of_forall
    intro b hListed
    obtain ⟨blk, hBlock, _⟩ := hIntact.listed hRegion hListed
    exact ⟨blk, hBlock⟩
  obtain ⟨blocks, hBlocks⟩ := hBlocks
  unfold Graph.regionOps
  exact ⟨_, bind_eq_ok.mpr ⟨reg, hRegion, bind_eq_ok.mpr ⟨blocks, hBlocks, rfl⟩⟩⟩

theorem children (hIntact : g.Intact) (hOp : g.op x = .ok o) : ∃ ops, g.children x = .ok ops := by
  have hRegions : ∃ lists, o.regions.mapM g.regionOps = .ok lists := by
    apply mapM_of_forall
    intro r hHeld
    obtain ⟨reg, hRegion, _⟩ := hIntact.held hOp hHeld
    exact hIntact.regionOps hRegion
  obtain ⟨lists, hRegions⟩ := hRegions
  unfold Graph.children
  exact ⟨_, bind_eq_ok.mpr ⟨o, hOp, bind_eq_ok.mpr ⟨lists, hRegions, rfl⟩⟩⟩

/- A walk comes back from an operation if it does from those right below. -/
theorem walkFrom_succ {order : WalkOrder} (hIntact : g.Intact) (hOp : g.op x = .ok o)
    (hBelow : ∀ y, g.Holder x y → ∃ ops, g.walkFrom order depth y = .ok ops) :
    ∃ ops, g.walkFrom order (depth + 1) x = .ok ops := by
  obtain ⟨below, hChildren⟩ := hIntact.children hOp
  obtain ⟨inner, hInner⟩ : ∃ inner, below.mapM (g.walkFrom order depth) = .ok inner :=
    mapM_of_forall fun y hMem => hBelow y ((mem_children_iff hChildren).mp hMem)
  unfold Graph.walkFrom
  exact ⟨_, bind_eq_ok.mpr ⟨below, hChildren, bind_eq_ok.mpr ⟨inner, hInner, rfl⟩⟩⟩

theorem walkFrom {order : WalkOrder} (hIntact : g.Intact) (hRises : g.Rises x ls)
    (hRoom : g.ops.slots.size < ls.length + depth) : ∃ ops, g.walkFrom order depth x = .ok ops := by
  induction depth generalizing x ls with
  | zero =>
    have hLength := hRises.length_le
    omega
  | succ depth ih =>
    obtain ⟨outer, rfl⟩ := hRises.head
    obtain ⟨o, hOp⟩ := hRises.live mem_cons_self
    refine hIntact.walkFrom_succ hOp fun y hHolder => ?_
    apply ih (.child (hIntact.parentOp?_of_holder hHolder) hRises)
    rw [length_cons]
    omega

/- Everything nested in a body, and nothing else, is visited. -/
theorem walkRegion (hIntact : g.Intact) (order : WalkOrder) (hBody : g.Linked body none) :
    ∃ ops, g.walkRegion order body = .ok ops ∧ ∀ x ∈ ops, g.Reached body x := by
  obtain ⟨reg, hRegion, _⟩ := hBody.region
  obtain ⟨top, hTop⟩ := hIntact.regionOps hRegion
  have hLists : ∃ lists, top.mapM (g.walkOp order) = .ok lists := by
    apply mapM_of_forall
    intro x hMem
    obtain ⟨b, hListed⟩ := (mem_regionOps_iff hTop).mp hMem
    refine hIntact.walkFrom (.top (hBody.parentOp? hListed)) ?_
    rw [length_singleton]
    unfold depthBound
    omega
  obtain ⟨lists, hLists⟩ := hLists
  unfold Graph.walkRegion
  refine ⟨_, bind_eq_ok.mpr ⟨top, hTop, bind_eq_ok.mpr ⟨lists, hLists, rfl⟩⟩, ?_⟩
  intro x hMem
  obtain ⟨list, hList, hIn⟩ := mem_flatten.mp hMem
  obtain ⟨w, hBelow, hWalk⟩ := Answer.exists_of_mem_mapM hLists hList
  obtain ⟨b, hListed⟩ := (mem_regionOps_iff hTop).mp hBelow
  exact ((mem_walkFrom_iff hWalk).mp hIn).reached (.top hListed)

theorem useProblems (hIntact : g.Intact)
    (hOp : g.op x = .ok o) : Validation.useProblems g x = .ok [] := by
  have hOperands : ∀ p ∈ o.operands.zipIdx, Validation.operandProblems g x p.1 p.2 = [] := by
    intro p hMem
    rw [mem_zipIdx_iff_getElem?] at hMem
    obtain ⟨val, hValue, hOnce⟩ := hIntact.operand hOp hMem
    unfold Validation.operandProblems
    rw [get_eq_ok_iff.mp hValue]
    simp only [problemUnless_eq_nil, contains_iff_mem]
    exact count_pos_iff.mp (by omega)
  have hResults : ∀ p ∈ o.results.zipIdx, Validation.resultProblems g x p.1 p.2 = .ok [] := by
    intro p hMem
    rw [mem_zipIdx_iff_getElem?] at hMem
    obtain ⟨val, hValue, hDefiner⟩ := hIntact.result hOp hMem
    have hFresh : val.uses.filter (fun u => !Validation.useHolds g p.1 u) = [] := by
      rw [filter_eq_nil_iff]
      intro u hUse
      obtain ⟨o', hOp', hAt⟩ := hIntact.use hValue hUse
      unfold Validation.useHolds
      rw [get_eq_ok_iff.mp hOp']
      simp [hAt]
    unfold Validation.resultProblems
    refine bind_eq_ok.mpr ⟨val, hValue, ?_⟩
    rw [pure_eq_ok, hFresh]
    simp [problemIf_eq_nil, hDefiner]
  obtain ⟨results, hResults, hNone⟩ := mapM_of_nil hResults
  unfold Validation.useProblems
  refine bind_eq_ok.mpr ⟨o, hOp, ?_⟩
  refine bind_eq_ok.mpr ⟨results, hResults, ?_⟩
  rw [pure_eq_ok, hNone, append_nil, flatten_eq_nil_iff]
  intro list hMem
  obtain ⟨p, hIn, rfl⟩ := mem_map.mp hMem
  exact hOperands p hIn

theorem dominanceProblems (hIntact : g.Intact) (hBody : g.Linked body none)
    (hReached : g.Reached body x) (hOp : g.op x = .ok o)
    (hSees : ∀ v ∈ o.operands, g.Sees v x) : Validation.dominanceProblems g x = .ok [] := by
  unfold Validation.dominanceProblems
  refine bind_eq_ok.mpr ⟨o, hOp, ?_⟩
  apply Answer.flatten_of_nil
  rintro ⟨v, i⟩ hMem
  rw [mem_zipIdx_iff_getElem?] at hMem
  obtain ⟨val, hValue, _⟩ := hIntact.operand hOp hMem
  have hLive := contains_of_get? (get_eq_ok_iff.mp hValue)
  rcases (hIntact.valueDominates_iff hBody hReached).mpr
    (hSees v (mem_of_getElem? hMem)) with ⟨q, hRun⟩
  have hVisible : (g.valueDominates v x).runFresh .forward = .ok true := by
    unfold DominanceQuery.runFresh
    rw [StateT.run'_eq, hRun]
    rfl
  simp only [hLive, Bool.not_true, Bool.false_eq_true, if_false]
  exact bind_eq_ok.mpr ⟨true, hVisible, rfl⟩

end Intact

end Graph

/- A function has no problems if it is shaped and its operands are seen. -/
theorem Function.problems_eq_nil_iff {f : Function}
    (hIntact : f.graph.Intact) : f.problems = .ok [] ↔ f.Shaped ∧ f.Sighted := by
  constructor
  · intro hValid
    exact ⟨shaped_of_problems hValid hIntact, sighted_of_problems hValid hIntact⟩
  · rintro ⟨hShaped, hSighted⟩
    have hBody := hShaped.linked_body hIntact
    obtain ⟨ops, hWalk, hReached⟩ := hIntact.walkRegion .pre hBody
    have hChecked : ∀ x ∈ ops, Validation.opProblems f x = .ok [] := by
      intro x hMem
      have hThere := hReached x hMem
      obtain ⟨o, hOp⟩ := hIntact.op_of_reached hThere
      unfold Validation.opProblems
      refine bind_eq_ok.mpr ⟨[], hIntact.useProblems hOp, ?_⟩
      refine bind_eq_ok.mpr ⟨[], hShaped.kinds hThere, ?_⟩
      refine bind_eq_ok.mpr ⟨[], ?_, rfl⟩
      exact hIntact.dominanceProblems hBody hThere hOp fun v hUsed => hSighted hThere hOp hUsed
    obtain ⟨lists, hLists, hNone⟩ := mapM_of_nil hChecked
    unfold problems
    refine bind_eq_ok.mpr ⟨[], regionProblems_of_shaped hIntact hShaped, ?_⟩
    refine bind_eq_ok.mpr ⟨ops, hWalk, ?_⟩
    refine bind_eq_ok.mpr ⟨lists, hLists, ?_⟩
    rw [hNone]
    rfl

end AffineIR
