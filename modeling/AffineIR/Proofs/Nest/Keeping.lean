import AffineIR.Proofs.Graph.Validity
import AffineIR.Proofs.Nest.Moving

/-
  What edited graphs keep.

  Operations of an edited graph are what they were, apart from
  their places.  So their kinds are checked with the same result,
  values are defined where they were, and if blocks end as before
  then the blocks of a region dominate each other as before.

  Main result: `Graph.Edited.above`
-/

namespace AffineIR

open Answer List

variable {set : Affine.IntegerSet} {r : RegionId} {blk : Block}

namespace Graph

namespace Edited

variable {g g' : Graph} {moved : List OpId} {blocks : List BlockId} {x : OpId} {o : Operation}
  {b c : BlockId} {v : ValueId}

------
-- Kinds
------

section

variable (hEdited : g.Edited g' moved blocks)

include hEdited

theorem valueTy : g'.valueTy = g.valueTy := by
  funext v
  have hTy := hEdited.values.ty v
  unfold Graph.valueTy Graph.value Arena.get
  cases hNow : g'.values.get? v <;> cases hBefore : g.values.get? v <;>
    simp_all [bind, Except.bind, pure, Except.pure]

theorem kind (hOp : g.op x = .ok o) : g'.kind x = g.kind x := by
  obtain ⟨q, hOp'⟩ := hEdited.moves hOp
  unfold Graph.kind
  rw [hOp', hOp]
  rfl

theorem hasResults (hOp : g.op x = .ok o) : g'.hasResults x = g.hasResults x := by
  obtain ⟨q, hOp'⟩ := hEdited.moves hOp
  rw [hasResults_of_op hOp', hasResults_of_op hOp]

theorem result (hOp : g.op x = .ok o) : g'.result x = g.result x := by
  obtain ⟨q, hOp'⟩ := hEdited.moves hOp
  unfold Graph.result
  rw [hOp', hOp]
  rfl

theorem bodyBlock (hBody : g.bodyBlock x = .ok b) : g'.bodyBlock x = .ok b := by
  obtain ⟨o, hOp, hBody⟩ := bind_eq_ok.mp hBody
  obtain ⟨r, hEntry, hBody⟩ := bind_eq_ok.mp hBody
  obtain ⟨reg, hRegion, hFirst⟩ := bind_eq_ok.mp hBody
  obtain ⟨q, hOp'⟩ := hEdited.moves hOp
  exact bind_eq_ok.mpr ⟨_, hOp', bind_eq_ok.mpr ⟨r, hEntry,
    bind_eq_ok.mpr ⟨reg, hEdited.region hRegion, hFirst⟩⟩⟩

end

section Problems

variable {q : Option BlockId} (hEdited : g.Edited g' moved blocks)

include hEdited

theorem accessProblems {ty : Option Ty} {n : Nat} :
    Validation.accessProblems g' { o with parent := q } ty n =
      Validation.accessProblems g o ty n := by
  unfold Validation.accessProblems
  rw [hEdited.valueTy]
  rfl

theorem selectFits : Validation.selectFits g' = Validation.selectFits g := by
  funext vs
  unfold Validation.selectFits
  rw [hEdited.valueTy]

theorem arithFits : Validation.arithFits g' = Validation.arithFits g := by
  funext vs
  unfold Validation.arithFits
  rw [hEdited.valueTy]

theorem affineSelectProblems (hOp : g.op x = .ok o) :
    Validation.affineSelectProblems g' x { o with parent := q } set =
      Validation.affineSelectProblems g x o set := by
  unfold Validation.affineSelectProblems
  rw [hEdited.valueTy, hEdited.result hOp]

/- The body of an operation has the same arguments. -/
theorem body_of_bodyBlock (hIntact : g.Intact) (hBody : g.bodyBlock x = .ok b) :
    ∃ blk ops, g.block b = .ok blk ∧ g'.block b = .ok { blk with ops := ops } := by
  obtain ⟨_, _, hBody⟩ := bind_eq_ok.mp hBody
  obtain ⟨r, _, hBody⟩ := bind_eq_ok.mp hBody
  obtain ⟨reg, hRegion, hFirst⟩ := bind_eq_ok.mp hBody
  rcases hIntact.listed hRegion
    (mem_of_getElem? (entryAt_eq_ok.mp hFirst)) with ⟨blk, hBlock, _⟩
  obtain ⟨ops, hBlock'⟩ := hEdited.lists hBlock
  exact ⟨blk, ops, hBlock, hBlock'⟩

variable (hIntact : g.Intact) (hOp : g.op x = .ok o)

include hIntact hOp

theorem region_of_mem (hMem : r ∈ o.regions) : g'.region r = g.region r := by
  obtain ⟨reg, hRegion, _⟩ := hIntact.held hOp hMem
  rw [hRegion, hEdited.region hRegion]

theorem conditionalProblems :
    Validation.conditionalProblems g' { o with parent := q } set =
      Validation.conditionalProblems g o set := by
  have hRegion {r : RegionId} := hEdited.region_of_mem (r := r) hIntact hOp
  unfold Validation.conditionalProblems
  dsimp only
  rcases hRegions : o.regions with _ | ⟨yes, _ | ⟨no, _ | ⟨_, _⟩⟩⟩
  · rfl
  · rfl
  · simp only [hRegion (r := yes) (by simp [hRegions]), hRegion (r := no) (by simp [hRegions])]
  · rfl

theorem bodyBlock_eq : g'.bodyBlock x = g.bodyBlock x := by
  obtain ⟨q, hOp'⟩ := hEdited.moves hOp
  unfold Graph.bodyBlock
  rw [hOp', hOp, ok_bind, ok_bind]
  cases hEntry : entryAt o.regions 0 with
  | error e => rfl
  | ok r =>
    have hMem := mem_of_getElem? (entryAt_eq_ok.mp hEntry)
    rw [ok_bind, ok_bind, hEdited.region_of_mem hIntact hOp hMem]

theorem loopProblems {lower upper : Affine.Map} {step : Int} :
    Validation.loopProblems g' x { o with parent := q } lower upper step =
      Validation.loopProblems g x o lower upper step := by
  unfold Validation.loopProblems
  rw [hEdited.valueTy, hEdited.bodyBlock_eq hIntact hOp]
  -- Only a loop with one region is asked for its block.
  rcases hRegions : o.regions with _ | ⟨r, _ | ⟨_, _⟩⟩
  · rfl
  · simp only [hEdited.region_of_mem (r := r) hIntact hOp (by simp [hRegions])]
    cases hBody : g.bodyBlock x with
    | error e => rfl
    | ok b =>
      obtain ⟨blk, ops, hBlock, hBlock'⟩ := hEdited.body_of_bodyBlock hIntact hBody
      simp only [ok_bind, hBlock, hBlock']
  · rfl

end Problems

theorem kindProblems {f : Function} (hEdited : f.graph.Edited g' moved blocks)
    (hIntact : f.graph.Intact) (hOp : f.graph.op x = .ok o) :
    Validation.kindProblems { f with graph := g' } x = Validation.kindProblems f x := by
  obtain ⟨q, hOp'⟩ := hEdited.moves hOp
  unfold Validation.kindProblems
  dsimp only
  rw [hOp', hOp, ok_bind, ok_bind]
  simp only [hEdited.result hOp, hEdited.valueTy, hEdited.accessProblems,
    hEdited.selectFits, hEdited.arithFits, hEdited.affineSelectProblems hOp,
    hEdited.conditionalProblems hIntact hOp, hEdited.loopProblems hIntact hOp]
  rfl

/- Blocks with the same last operation end alike. -/
theorem endProblems {ops : List OpId} {parent : Option Kind} (hEdited : g.Edited g' moved blocks)
    (hIntact : g.Intact) (hBlock : g.block b = .ok blk) (hLast : ops.getLast? = blk.ops.getLast?) :
    Validation.endProblems g' parent b ops = Validation.endProblems g parent b blk.ops := by
  have hKind : ops.getLast?.mapM g'.kind = blk.ops.getLast?.mapM g.kind := by
    rw [hLast]
    cases hEnd : blk.ops.getLast? with
    | none => rfl
    | some x =>
      obtain ⟨o, hOp, _⟩ := hIntact.placed hBlock (mem_of_getLast? hEnd)
      rw [Option.mapM_some, Option.mapM_some, hEdited.kind hOp]
  unfold Validation.endProblems
  rw [hKind]

section Values

variable (hEdited : g.Edited g' moved blocks) (hIntact : g.Intact) (hIntact' : g'.Intact)

include hEdited hIntact hIntact'

theorem isResult (hResult : g.IsResult v x) : g'.IsResult v x := by
  obtain ⟨val, i, hValue, hDefiner⟩ := hResult
  have hPlace := hIntact.definer hValue
  rw [hDefiner] at hPlace
  obtain ⟨o, hOp, hAt⟩ := hPlace
  obtain ⟨q, hOp'⟩ := hEdited.moves hOp
  obtain ⟨val', hValue', hDefiner'⟩ := hIntact'.result hOp' hAt
  exact ⟨val', i, hValue', hDefiner'⟩

theorem isResult_of_op (hOp : g.op x = .ok o) (hResult : g'.IsResult v x) : g.IsResult v x := by
  obtain ⟨q, hOp'⟩ := hEdited.moves hOp
  have hMem := hIntact'.mem_results hOp' hResult
  obtain ⟨i, hAt⟩ := List.getElem?_of_mem hMem
  obtain ⟨val, hValue, hDefiner⟩ := hIntact.result hOp hAt
  exact ⟨val, i, hValue, hDefiner⟩

theorem isArgument (hArgument : g.IsArgument v b) : g'.IsArgument v b := by
  obtain ⟨val, i, hValue, hDefiner⟩ := hArgument
  have hPlace := hIntact.definer hValue
  rw [hDefiner] at hPlace
  obtain ⟨blk, hBlock, hAt⟩ := hPlace
  obtain ⟨ops, hBlock'⟩ := hEdited.lists hBlock
  obtain ⟨val', hValue', hDefiner'⟩ := hIntact'.argument hBlock' hAt
  exact ⟨val', i, hValue', hDefiner'⟩

end Values

section Flow

variable (hEdited : g.Edited g' moved blocks) (hIntact : g.Intact)
  (hEnds : ∀ {c blk ops}, g.block c = .ok blk → g'.block c = .ok { blk with ops := ops } →
    ops.getLast? = blk.ops.getLast?)

include hEdited hIntact hEnds

theorem blockSuccessors
    (hBlock : g.block c = .ok blk) : g'.blockSuccessors c = g.blockSuccessors c := by
  obtain ⟨ops, hBlock'⟩ := hEdited.lists hBlock
  unfold Graph.blockSuccessors Graph.terminator?
  rw [hBlock, hBlock', ok_bind, ok_bind, hEnds hBlock hBlock']
  cases hLast : blk.ops.getLast? with
  | none => rfl
  | some x =>
    obtain ⟨o, hOp, _⟩ := hIntact.placed hBlock (mem_of_getLast? hLast)
    obtain ⟨q, hOp'⟩ := hEdited.moves hOp
    simp only [hEdited.kind hOp]
    unfold Graph.kind
    rw [hOp, ok_bind]
    by_cases hTerminator : o.kind.isTerminator = true
    · simp [hTerminator, hOp, hOp', bind, Except.bind, pure, Except.pure]
    · simp [hTerminator, bind, Except.bind, pure, Except.pure]

theorem flowGraph {reg : Region}
    (hRegion : g.region r = .ok reg) : FlowGraph.ofRegion g' r = FlowGraph.ofRegion g r := by
  have hFold (bs : List BlockId) (hSubset : bs ⊆ reg.blocks) (acc : FlowGraph) :
      bs.foldlM (FlowGraph.addBlockEdges g' reg.blocks) acc =
        bs.foldlM (FlowGraph.addBlockEdges g reg.blocks) acc := by
    induction bs generalizing acc with
    | nil => rfl
    | cons c bs ih =>
      obtain ⟨hHead, hTail⟩ := cons_subset.mp hSubset
      obtain ⟨blk, hBlock, _⟩ := hIntact.listed hRegion hHead
      have hEdges : FlowGraph.addBlockEdges g' reg.blocks acc c =
          FlowGraph.addBlockEdges g reg.blocks acc c := by
        unfold FlowGraph.addBlockEdges
        rw [hEdited.blockSuccessors hIntact hEnds hBlock]
      rw [foldlM_cons, foldlM_cons, hEdges]
      simp only [ih hTail]
  unfold FlowGraph.ofRegion
  rw [hEdited.region hRegion, hRegion, ok_bind, ok_bind]
  dsimp only
  rw [hFold reg.blocks (List.Subset.refl _)]

/- Blocks dominate the same blocks of their region. -/
theorem above (hAbove : g.Above b c) : g'.Above b c := by
  obtain ⟨hOther, blk, blk', t, hBlock, hBlock', hSame, hTree, hTrue⟩ := above_iff.mp hAbove
  obtain ⟨ops, hNow⟩ := hEdited.lists hBlock
  obtain ⟨ops', hNow'⟩ := hEdited.lists hBlock'
  obtain ⟨reg, hRegion, _⟩ := hIntact.block hBlock
  refine above_iff.mpr ⟨hOther, _, _, t, hNow, hNow', hSame, ?_, hTrue⟩
  unfold RegionTree.ofRegion at hTree ⊢
  dsimp only
  rwa [hEdited.flowGraph hIntact hEnds hRegion]

end Flow

end Edited

end Graph

end AffineIR
