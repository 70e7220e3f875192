import AffineIR.Proofs.Graph.Precedence
import AffineIR.Proofs.Graph.Validity
import AffineIR.Proofs.Memory.ClosedForms

/-
  Definitions in functions without problems lead down.

  An operand that an operation sees is defined by an operation
  that governs it and is another one.  To govern is a partial
  order on a body, so no chain of definitions comes back, and
  the closed forms of all operands are found.

  Main result: `Function.indices_compose`
-/

namespace AffineIR

open Answer Arena List

namespace Graph

variable {g : Graph} {body : RegionId} {d u x : OpId} {v : ValueId}

/- What leads an operation around another one governs that one, and is not the same. -/
theorem Intact.governs_of_leading {z : OpId} (hIntact : g.Intact) (hBody : g.Linked body none)
    (hReached : g.Reached body u) (hInside : g.Inside z u) (hLeading : g.Leading d z) :
    d ≠ u ∧ g.Governs d u := by
  refine ⟨?_, z, hInside, .inr hLeading⟩
  rintro rfl
  rcases hInside.eq_or_within with rfl | hWithin
  · obtain ⟨_, _, _, _, _, _, hOther, _⟩ := hLeading.places hIntact
    exact hOther rfl
  · exact hIntact.not_heads_of_within hBody hReached hWithin (.inr hLeading)

end Graph

namespace Function

variable {f : Function} {d u x y : OpId} {o : Operation} {v : ValueId}

section

variable (hIntact : f.graph.Intact) (hShaped : f.Shaped) (hSighted : f.Sighted)

include hIntact hShaped hSighted

theorem governs_of_feeds (hReached : f.graph.Reached f.body u) (hFeeds : f.graph.Feeds d u) :
    d ≠ u ∧ f.graph.Governs d u := by
  obtain ⟨o, v, hOp, hMem, hDefines⟩ := hFeeds
  have hSees := hSighted hReached hOp hMem
  obtain ⟨val, hValue⟩ := hSees.value
  cases hPlace : val.definer with
  | argument b k => cases (Graph.definingOp?_of_argument hValue hPlace).symm.trans hDefines
  | result a k =>
    cases (Graph.definingOp?_of_result hValue hPlace).symm.trans hDefines
    obtain ⟨z, hInside, hLeading⟩ := (Graph.sees_iff_of_result hValue hPlace).mp hSees
    exact hIntact.governs_of_leading (hShaped.linked_body hIntact) hReached hInside hLeading

/- A chain of definitions leads to another operation. -/
theorem governs_of_chain
    (hChain : Relation.TransGen (fun d u => f.graph.Reached f.body u ∧ f.graph.Feeds d u) x y) :
    f.graph.Reached f.body y ∧ x ≠ y ∧ f.graph.Governs x y := by
  have hBody := hShaped.linked_body hIntact
  induction hChain with
  | single hStep => exact ⟨hStep.1, governs_of_feeds hIntact hShaped hSighted hStep.1 hStep.2⟩
  | tail _ hStep ih =>
    obtain ⟨hThere, hOther, hBefore⟩ := ih
    obtain ⟨_, hAfter⟩ := governs_of_feeds hIntact hShaped hSighted hStep.1 hStep.2
    refine ⟨hStep.1, ?_, hIntact.governs_trans hBefore hAfter⟩
    rintro rfl
    exact hOther (hIntact.governs_antisymm hBody hStep.1 hThere hBefore hAfter)

theorem descends : f.graph.Descends (f.graph.Reached f.body) where
  closed hReached hFeeds :=
    hIntact.reached_of_governs (hShaped.linked_body hIntact) hReached
      (governs_of_feeds hIntact hShaped hSighted hReached hFeeds).2
  acyclic x hLoop := (governs_of_chain hIntact hShaped hSighted hLoop).2.1 rfl
  counted hReached hOp hKind _ := by
    have hKinds := hShaped.kinds hReached
    unfold Validation.kindProblems at hKinds
    dsimp only at hKinds
    rw [hOp, ok_bind, hKind] at hKinds
    obtain ⟨n, hCount, _⟩ := bind_eq_ok.mp hKinds
    exact ⟨n, hCount⟩

end

/-
  In a function without problems no operation uses, through
  others, its own results, and the closed forms of all operands
  are found, of single ones and of expressions over them.
-/
theorem indices_compose (hIntact : f.graph.Intact) (hValid : f.problems = .ok []) :
    (∀ x, ¬Relation.TransGen (fun d u => f.graph.Reached f.body u ∧ f.graph.Feeds d u) x x) ∧
    ∀ x o, f.graph.Reached f.body x → f.graph.op x = .ok o →
      (∀ v ∈ o.operands, ∃ form, f.graph.linearize v = .ok form) ∧
      ∀ expr numDims numSymbols operands, operands ⊆ o.operands → numDims + numSymbols < 2 ^ 32 →
        ∃ form, f.graph.composeExpr expr numDims numSymbols operands = .ok form := by
  obtain ⟨hShaped, hSighted⟩ := (problems_eq_nil_iff hIntact).mp hValid
  have hDescends := descends hIntact hShaped hSighted
  refine ⟨hDescends.acyclic, fun x o hReached hOp => ?_⟩
  have hForms : ∀ v ∈ o.operands, ∃ form, f.graph.linearize v = .ok form := by
    intro v hMem
    obtain ⟨val, hValue⟩ := (hSighted hReached hOp hMem).value
    exact Graph.exists_linearize_of_descends hIntact hDescends hValue fun d hDefines =>
      hDescends.closed hReached ⟨o, v, hOp, hMem, hDefines⟩
  refine ⟨hForms, fun expr numDims numSymbols operands hPart hFits => ?_⟩
  unfold Graph.composeExpr
  rw [Affine.Expr.flatten_of_count (if_pos hFits), ok_bind]
  split
  · exact ⟨_, rfl⟩
  · exact Graph.exists_composeRow (fun v hMem => hForms v (hPart hMem)) _

/- The sum of two indices, and a return behind it. -/
def summed : Function where
  name := "summed"
  graph := .ofHistory (Graph.summedHistory ++ [.createOp .ret [] [] [], .append ⟨0⟩ ⟨6⟩])
  body := ⟨0⟩
  resultTypes := []

theorem summed_indices_compose :
    (summed.graph.Intact ∧ summed.problems = .ok []) ∧
    (∀ x, ¬Relation.TransGen
      (fun d u => summed.graph.Reached summed.body u ∧ summed.graph.Feeds d u) x x) ∧
    ∃ form, summed.graph.linearize ⟨5⟩ = .ok form := by
  have hIntact : summed.graph.Intact := by
    unfold summed
    dsimp only
    exact Graph.intact_of_coherent (Graph.coherent_ofHistory _ rfl)
  have hValid : summed.problems = .ok [] := by decide +kernel
  have hBlocks : summed.graph.regions.view Region.blocks ⟨0⟩ = some [⟨0⟩] := by decide +kernel
  have hOps : (summed.graph.blocks.view Block.ops ⟨0⟩).map (·[4]?) = some (some ⟨4⟩) := by
    decide +kernel
  have hOperands : summed.graph.ops.view Operation.operands ⟨4⟩ = some [⟨0⟩, ⟨5⟩] := by
    decide +kernel
  obtain ⟨reg, hRegion, hSingle⟩ := view_eq_some.mp hBlocks
  obtain ⟨o, hOp, hUsed⟩ := view_eq_some.mp hOperands
  obtain ⟨_, hView, hAt⟩ := Option.map_eq_some_iff.mp hOps
  obtain ⟨blk, hBlock, rfl⟩ := view_eq_some.mp hView
  have hReached : summed.graph.Reached summed.body ⟨4⟩ :=
    .top ⟨⟨reg, get_eq_ok_iff.mpr hRegion, by rw [hSingle]; exact mem_cons_self⟩,
      blk, get_eq_ok_iff.mpr hBlock, mem_of_getElem? hAt⟩
  obtain ⟨hAcyclic, hForms⟩ := indices_compose hIntact hValid
  exact ⟨⟨hIntact, hValid⟩, hAcyclic,
    (hForms _ o hReached (get_eq_ok_iff.mpr hOp)).1 ⟨5⟩ (by simp [hUsed])⟩

end Function

end AffineIR
