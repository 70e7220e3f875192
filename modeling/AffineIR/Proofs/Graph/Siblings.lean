import AffineIR.Proofs.Graph.Bodies
import AffineIR.Proofs.Run.Stretches

/-
  Operations in front of others in a block.

  From an operation of a block, the program of a function goes
  on with the operations behind it: first those up to another
  one of the block, and then the other one, with all that is
  in it.

  Main result: `Function.Whole.sibling`
-/

namespace AffineIR

open List

variable {p q : Prog} {w : List Prog.Mark} {a : Act} {c start x z : OpId}

/- A way goes through the start of what it goes into. -/
theorem Prog.Leads.through (hLeads : p.Leads w q) (hHead : q.head? = some a)
    (hMem : c ∈ holdersOf w) :
    ∃ w₁ q₁ a₁, p.Leads w₁ q₁ ∧ q₁.head? = some a₁ ∧ a₁.op = c ∧ a.op ∈ q₁.inner := by
  induction hLeads with
  | here p => cases hMem
  | act hRest ih =>
    obtain ⟨w₁, q₁, a₁, hFirst, hThere⟩ := ih hHead hMem
    exact ⟨_, q₁, a₁, .act hFirst, hThere⟩
  | body hBody ih =>
    rcases mem_cons.mp hMem with rfl | hMem
    · exact ⟨[], _, _, .here _, rfl, rfl, hBody.mem_ids hHead⟩
    · obtain ⟨w₁, q₁, a₁, hFirst, hThere⟩ := ih hHead hMem
      exact ⟨_, q₁, a₁, .body hFirst, hThere⟩
  | loop hRest ih =>
    obtain ⟨w₁, q₁, a₁, hFirst, hThere⟩ := ih hHead hMem
    exact ⟨_, q₁, a₁, .loop hFirst, hThere⟩
  | branch hBranch ih =>
    rcases mem_cons.mp hMem with rfl | hMem
    · exact ⟨[], _, _, .here _, rfl, rfl, mem_branches.mpr ⟨_, hBranch.mem_ids hHead⟩⟩
    · obtain ⟨w₁, q₁, a₁, hFirst, hThere⟩ := ih hHead hMem
      exact ⟨_, q₁, a₁, .branch hFirst, hThere⟩
  | cond hRest ih =>
    obtain ⟨w₁, q₁, a₁, hFirst, hThere⟩ := ih hHead hMem
    exact ⟨_, q₁, a₁, .cond hFirst, hThere⟩

/- The part that starts with the end of a way, or with what is around it. -/
theorem Prog.Leads.around (hLeads : p.Leads w q) (hHead : q.head? = some a)
    (hAround : c = a.op ∨ c ∈ holdersOf w) :
    ∃ w₁ q₁ a₁, p.Leads w₁ q₁ ∧ q₁.head? = some a₁ ∧ a₁.op = c ∧ a.op ∈ c :: q₁.inner := by
  rcases hAround with rfl | hMem
  · exact ⟨w, q, a, hLeads, hHead, rfl, mem_cons_self⟩
  · obtain ⟨w₁, q₁, a₁, hFirst, hHead₁, hOp, hIn⟩ := hLeads.through hHead hMem
    exact ⟨w₁, q₁, a₁, hFirst, hHead₁, hOp, mem_cons_of_mem _ hIn⟩

namespace Function

open Prog

variable {f : Function} {params : List ValueId} {b : BlockId} {blk : Block} {xs : List OpId}
  {o : Operation} {w : List Mark}

/-
  From an operation to a later one of its block, which is what
  a way goes to or into.
-/
theorem Whole.sibling {b₀ : BlockId} {blk₀ : Block} {us vs zs : List OpId}
    (hWhole : f.Whole params b blk xs p x o) (hLeads : p.Leads w q) (hHead : q.head? = some a)
    (hAround : z = a.op ∨ z ∈ holdersOf w) (hParent : f.graph.parentBlock z = .ok b₀)
    (hBlock : f.graph.block b₀ = .ok blk₀) (hOps : blk₀.ops = us ++ start :: vs ++ z :: zs) :
    ∃ w₀ q₀ a₀ p₁ p₂ p₃, p.Leads w₀ q₀ ∧ q₀.head? = some a₀ ∧
      a₀.op = start ∧ q₀.tail = p₁ ++ (p₂ ++ p₃) ∧
      f.graph.Unfolds b₀ vs p₁ ∧ f.graph.Unfolds b₀ [z] p₂ ∧ a.op ∈ p₂.ids := by
  obtain ⟨w₁, q₁, a₁, hLeads₁, hHead₁, rfl, hInner⟩ := hLeads.around hHead hAround
  rcases hWhole.part.row_of_leads hLeads₁ hHead₁ with
    ⟨b', blk', us', ys', p', w', hLeads', hLoops, hBefore, hThere, hRow⟩
  cases hParent.symm.trans (hThere.first hHead₁).2.2.1.parentBlock
  cases hBlock.symm.trans hThere.home.block
  obtain ⟨zs', o₁, rfl, _⟩ := hThere.unfolds.head hHead₁
  -- What stands in front of the later operation in the block.
  have hFull : ∃ rest, blk₀.ops = us' ++ a₁.op :: rest := by
    rcases hRow with hRow | ⟨rfl, rfl, rfl, _⟩
    · exact ⟨zs', hRow.symm⟩
    · exact ⟨zs' ++ [x], by simp [hWhole.ops]⟩
  have hFront : us' = us ++ start :: vs := by
    obtain ⟨rest, hFull⟩ := hFull
    have hNodup := hWhole.tidy.nodup_ops hBlock
    rw [hFull] at hNodup hOps
    have hOnce := nodup_cons.mp (nodup_middle.mp hNodup)
    rw [mem_append, not_or] at hOnce
    exact ((append_cons_inj_of_notMem hOnce.1.1 hOnce.1.2).mp hOps).1
  subst hFront
  obtain ⟨pu, ps, rfl, _, hStart⟩ := hBefore.of_append
  obtain ⟨o₀, _, _, hHead₀, hBetween, _⟩ := hStart.uncons
  obtain ⟨_, p₂, _, _, _, hSecond, hSplit, hIds⟩ := hThere.unfolds.uncons
  obtain ⟨wu, hSkip, _⟩ := leads_append pu (ps ++ q₁)
  rw [Prog.append_assoc] at hLeads'
  refine ⟨_, ps ++ q₁, _, ps.tail, p₂, q₁.tail, hLeads'.trans hSkip,
    head?_append q₁ hHead₀, rfl, ?_, hBetween, hSecond, hIds ▸ hInner⟩
  rw [tail_append q₁ hHead₀, ← hSplit]

end Function

end AffineIR
