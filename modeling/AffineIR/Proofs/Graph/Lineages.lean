import AffineIR.Memory.Dependence
import AffineIR.Proofs.Graph.Scopes
import AffineIR.Proofs.Run.Order

/-
  The operations around an operation of a valid function.

  Going from operation to operation around it leads from every
  operation of a valid function to the outermost one, and the
  lineage lists them all.  They are the loops and conditionals
  that the way to the operation in the program of its function
  goes into.

  Main declarations:
    * `Function.InOrder`, `Function.appearsBefore_of_inOrder`
-/

namespace AffineIR

open Answer List

variable {c h s t x y z : OpId} {g : Graph} {o : Operation} {r : RegionId}
  {hs inner loops ls ys zs : List OpId} {l : Lineage} {b b' b₁ : BlockId} {q rest : Prog}

------
-- Ways up
------

namespace Graph

/- Where two operations part ways. -/
theorem eq_of_parting {α : Type} {as bs : List α} {x y x' y' : α} {us vs us' vs' : List α}
    (hFirst : as ++ x :: us = bs ++ x' :: us') (hSecond : as ++ y :: vs = bs ++ y' :: vs')
    (hNe : x ≠ y) (hNe' : x' ≠ y') : x = x' ∧ y = y' := by
  induction as generalizing bs with
  | nil =>
    cases bs with
    | nil =>
      cases hFirst
      cases hSecond
      exact ⟨rfl, rfl⟩
    | cons c bs =>
      cases hFirst
      cases hSecond
      exact absurd rfl hNe
  | cons a as ih =>
    cases bs with
    | nil =>
      cases hFirst
      cases hSecond
      exact absurd rfl hNe'
    | cons c bs =>
      rw [cons_append, cons_append, List.cons.injEq] at hFirst
      rw [cons_append, cons_append, List.cons.injEq] at hSecond
      exact ih hFirst.2 hSecond.2

end Graph

namespace Function

variable {f : Function}

/- Every operation of a valid function rises to the outside. -/
theorem rises_of_reached (hValid : f.problems = .ok []) (hReached : f.graph.Reached f.body x) :
    ∃ ls, f.graph.Rises x ls ∧ ∀ z ∈ ls, f.graph.Inside z x ∧ f.graph.Reached f.body z :=
  hReached.rises (linked_body hValid) fun _ => linkedIn_of_reached hValid

end Function

------
-- Parts of the program of a function
------

/- The operations that a way goes into, outermost first. -/
def Prog.holdersOf : List Prog.Mark → List OpId
  | [] => []
  | .past _ :: w => holdersOf w
  | .inside a _ :: w => a.op :: holdersOf w
  | .branch a _ :: w => a.op :: holdersOf w

namespace Function

open Prog

variable {f : Function} {blk : Block} {p : Prog} {outer : List OpId} {w : List Mark} {a : Act}

/- Operations one after the other in a block, and those around them. -/
structure Part (f : Function) (b : BlockId) (blk : Block) (ys : List OpId) (q : Prog)
    (outer : List OpId) : Prop where
  home : f.Home b blk outer
  unfolds : f.graph.Unfolds b ys q
  row : ys <:+: blk.ops

/- What is in a block of an operation of a part. -/
theorem Part.below {blk' : Block} (hPart : f.Part b blk ys p outer) (hMem : x ∈ ys)
    (hOp : f.graph.op x = .ok o) (hRegion : r ∈ o.regions) (hHolds : f.graph.Holds x r b' blk')
    (hUnfolds : f.graph.Unfolds b' blk'.ops q) : f.Part b' blk' blk'.ops q (x :: outer) :=
  ⟨hPart.home.below (hPart.row.subset hMem) hOp hRegion hHolds, hUnfolds, infix_refl _⟩

theorem Part.tail (hPart : f.Part b blk (x :: ys) p outer)
    (hRest : f.graph.Unfolds b ys q) : f.Part b blk ys q outer where
  home := hPart.home
  unfolds := hRest
  row := (suffix_cons x ys).isInfix.trans hPart.row

/- The body of a loop is a part below it. -/
theorem Part.of_loop {v : ValueId} {body rest : Prog}
    (hPart : f.Part b blk ys (.loop a v body rest) outer) :
    ∃ zs b' blk', ys = a.op :: zs ∧ f.graph.Unfolds b [a.op] (.loop a v body .nil) ∧
      f.Part b blk zs rest outer ∧ f.Part b' blk' blk'.ops body (a.op :: outer) ∧
      ∀ u ∈ body.ids, f.graph.Inside a.op u := by
  cases hPart.unfolds with
  | loop hOp hParent hKind hRegions hHolds hArgs hClosed hBody hRest =>
    exact ⟨_, _, _, rfl, .loop hOp hParent hKind hRegions hHolds hArgs hClosed hBody .nil,
      hPart.tail hRest, hPart.below mem_cons_self hOp (by simp [hRegions]) hHolds hBody,
      fun _ => hBody.inside_of_held (hHolds.holder hOp (by simp [hRegions]))⟩

/- The branches of a conditional are parts below it, or empty. -/
theorem Part.of_cond {branch : Bool → Prog} {rest : Prog}
    (hPart : f.Part b blk ys (.cond a branch rest) outer) :
    ∃ zs, ys = a.op :: zs ∧ f.graph.Unfolds b [a.op] (.cond a branch .nil) ∧
      f.Part b blk zs rest outer ∧ ∀ taken, (∀ u ∈ (branch taken).ids, f.graph.Inside a.op u) ∧
        (branch taken = .nil ∨ ∃ b' blk', f.Part b' blk' blk'.ops (branch taken) (a.op :: outer)) := by
  cases hPart.unfolds with
  | cond hOp hParent hKind hRegions hBranch hInner hRest =>
    refine ⟨_, rfl, .cond hOp hParent hKind hRegions hBranch hInner .nil, hPart.tail hRest, ?_⟩
    intro taken
    have hRegion := Graph.mem_regions hRegions taken
    refine ⟨fun _ => (hInner taken).inside_of_held ((hBranch taken).holder hOp hRegion), ?_⟩
    refine ((hBranch taken).nil_or_holds (hInner taken)).imp_right ?_
    rintro ⟨blk', hHolds, hOps⟩
    exact ⟨_, _, hPart.below mem_cons_self hOp hRegion hHolds (hOps ▸ hInner taken)⟩

/-
  A way ends among the operations of a block, below the
  operations that it goes into: the block is one that the way
  enters, or the one that it starts in.
-/
theorem Part.row_of_leads (hPart : f.Part b blk ys p outer) (hLeads : p.Leads w q)
    (hHead : q.head? = some a) :
    ∃ b' blk' us ys' p₁ w₀, p.Leads w₀ (p₁ ++ q) ∧
      loopsOf w₀ = loopsOf w ∧ f.graph.Unfolds b' us p₁ ∧
      f.Part b' blk' ys' q ((holdersOf w).reverse ++ outer) ∧ (us ++ ys' = blk'.ops ∨
        b' = b ∧ blk' = blk ∧ us ++ ys' = ys ∧ p₁ ++ q = p ∧ loopsOf w = []) := by
  induction hLeads generalizing b blk ys outer with
  | here p =>
    exact ⟨b, blk, [], ys, .nil, [], .here _, rfl, .nil, hPart, .inr ⟨rfl, rfl, rfl, rfl, rfl⟩⟩
  | act _ ih =>
    cases hPart.unfolds with
    | act hOp hParent hKind hRest =>
      rcases ih (hPart.tail hRest) hHead with ⟨b', blk', us, ys', p₁, w₀,
        hLeads', hLoops, hBefore, hThere, hRow | ⟨rfl, rfl, rfl, rfl, hNone⟩⟩
      · exact ⟨b', blk', us, ys', p₁, _, .act hLeads', hLoops, hBefore, hThere, .inl hRow⟩
      · exact ⟨b', blk', _ :: us, ys', .act _ p₁, [], .here _, hNone.symm,
          .act hOp hParent hKind hBefore, hThere, .inr ⟨rfl, rfl, rfl, rfl, hNone⟩⟩
  | body _ ih =>
    obtain ⟨_, _, _, _, _, _, hInner, _⟩ := hPart.of_loop
    obtain ⟨b', blk', us, ys', p₁, w₀, hLeads', hLoops, hBefore, hThere, hRow⟩ := ih hInner hHead
    refine ⟨b', blk', us, ys', p₁, _, .body hLeads', ?_, hBefore, ?_, .inl ?_⟩
    · rw [loopsOf, loopsOf, hLoops]
    · rwa [holdersOf, List.reverse_cons, List.append_assoc]
    · exact hRow.elim id fun hHere => hHere.2.1 ▸ hHere.2.2.1
  | loop _ ih =>
    obtain ⟨_, _, _, rfl, hOne, hRest, _⟩ := hPart.of_loop
    rcases ih hRest hHead with ⟨b', blk', us, ys', p₁, w₀,
      hLeads', hLoops, hBefore, hThere, hRow | ⟨rfl, rfl, rfl, rfl, hNone⟩⟩
    · exact ⟨b', blk', us, ys', p₁, _, .loop hLeads', hLoops, hBefore, hThere, .inl hRow⟩
    · exact ⟨b', blk', _ :: us, ys', .loop _ _ _ p₁, [], .here _, hNone.symm,
        hOne.append hBefore, hThere, .inr ⟨rfl, rfl, rfl, rfl, hNone⟩⟩
  | branch hBranch ih =>
    obtain ⟨_, _, _, _, hBranches⟩ := hPart.of_cond
    rcases (hBranches _).2 with hNil | ⟨b₁, blk₁, hInner⟩
    · rw [hNil] at hBranch
      cases hBranch
      cases hHead
    obtain ⟨b', blk', us, ys', p₁, w₀, hLeads', hLoops, hBefore, hThere, hRow⟩ := ih hInner hHead
    refine ⟨b', blk', us, ys', p₁, _, .branch hLeads', hLoops, hBefore, ?_, .inl ?_⟩
    · rwa [holdersOf, List.reverse_cons, List.append_assoc]
    · exact hRow.elim id fun hHere => hHere.2.1 ▸ hHere.2.2.1
  | cond _ ih =>
    obtain ⟨_, rfl, hOne, hRest, _⟩ := hPart.of_cond
    rcases ih hRest hHead with ⟨b', blk', us, ys', p₁, w₀,
      hLeads', hLoops, hBefore, hThere, hRow | ⟨rfl, rfl, rfl, rfl, hNone⟩⟩
    · exact ⟨b', blk', us, ys', p₁, _, .cond hLeads', hLoops, hBefore, hThere, .inl hRow⟩
    · exact ⟨b', blk', _ :: us, ys', .cond _ _ p₁, [], .here _, hNone.symm,
        hOne.append hBefore, hThere, .inr ⟨rfl, rfl, rfl, rfl, hNone⟩⟩

/- A way leads to a part, below the operations that it goes into. -/
theorem Part.leads (hPart : f.Part b blk ys p outer) (hLeads : p.Leads w q)
    (hHead : q.head? = some a) :
    ∃ b' blk' ys', f.Part b' blk' ys' q ((holdersOf w).reverse ++ outer) := by
  obtain ⟨b', blk', _, ys', _, _, _, _, _, hThere, _⟩ := hPart.row_of_leads hLeads hHead
  exact ⟨b', blk', ys', hThere⟩

/- The first operation of a part. -/
theorem Part.first (hPart : f.Part b blk ys q outer) (hHead : q.head? = some a) :
    f.graph.Reached f.body a.op ∧ f.graph.Rises a.op (a.op :: outer) ∧
      f.graph.Sits a.op b blk.parent ∧ ∃ o, f.graph.op a.op = .ok o ∧ a = f.graph.actOf a.op o := by
  obtain ⟨zs, o, rfl, hOp, hAct⟩ := hPart.unfolds.head hHead
  have hMem := hPart.row.subset mem_cons_self
  exact ⟨hPart.home.reached hMem, hPart.home.row.rises hMem, hPart.home.sits hMem, o, hOp, hAct⟩

/- What a mark says about its operation. -/
def OfMark (g : Graph) : Mark → Operation → Prop
  | .past _, o => o.kind.isControl = false
  | .inside a v, o =>
    (∃ lower upper step, o.kind = .loop lower upper step) ∧ g.inductionVar a.op = .ok v
  | .branch _ _, o => ∃ set, o.kind = .conditional set

theorem Part.mark {k : Mark} (hPart : f.Part b blk ys p outer) (hLeads : p.Leads w q)
    (hMem : k ∈ w) :
    f.graph.Reached f.body k.act.op ∧ ∃ o, f.graph.op k.act.op = .ok o ∧
        k.act = f.graph.actOf k.act.op o ∧ OfMark f.graph k o := by
  obtain ⟨w₁, w₂, q₁, q₂, rfl, hFirst, hOpens, _⟩ := hLeads.at_mark hMem
  obtain ⟨b', blk', ys', hThere⟩ := hPart.leads hFirst hOpens.head
  obtain ⟨hReached, _⟩ := hThere.first hOpens.head
  refine ⟨hReached, ?_⟩
  cases hOpens with
  | past =>
    cases hThere.unfolds with
    | act hOp hParent hKind hRest => exact ⟨_, hOp, rfl, hKind⟩
  | inside =>
    cases hThere.unfolds with
    | loop hOp hParent hKind hRegions hHolds hArgs hClosed hBody hRest =>
      exact ⟨_, hOp, rfl, ⟨_, _, _, hKind⟩, hHolds.inductionVar hOp hRegions hArgs⟩
  | branch =>
    cases hThere.unfolds with
    | cond hOp hParent hKind => exact ⟨_, hOp, rfl, _, hKind⟩

theorem loopsInScope_cons (hOp : g.op h = .ok o) (hScope : o.kind.traits.affineScope = false)
    (hRest : g.loopsInScope l hs = .ok loops) :
    g.loopsInScope l (h :: hs) = .ok (if o.kind.isLoop then h :: loops else loops) := by
  have hKind : g.kind h = .ok o.kind := by
    unfold Graph.kind
    rw [hOp]
    rfl
  unfold Graph.loopsInScope
  rw [hKind, hRest]
  change (if o.kind.traits.affineScope then _ else _) = _
  rw [hScope]
  rfl

/- The loops among the operations that a way goes into. -/
theorem loopsInScope_of_holders (hMarks : ∀ k ∈ w, ∃ o, g.op k.act.op = .ok o ∧ OfMark g k o)
    (hRest : g.loopsInScope l hs = .ok loops) :
    g.loopsInScope l ((holdersOf w).reverse ++ hs) =
      .ok (((loopsOf w).map Prod.fst).reverse ++ loops) := by
  induction w generalizing hs loops with
  | nil => exact hRest
  | cons k w ih =>
    have hTail := fun k' hMem => hMarks k' (List.mem_cons_of_mem k hMem)
    cases k with
    | past a => exact ih hTail hRest
    | inside a v =>
      obtain ⟨o, hOp, ⟨lower, upper, step, hKind⟩, _⟩ := hMarks _ List.mem_cons_self
      have hCons := loopsInScope_cons hOp (by rw [hKind]; rfl) hRest
      rw [hKind] at hCons
      simp only [holdersOf, loopsOf, List.map_cons, List.reverse_cons,
        List.append_assoc, List.singleton_append]
      exact ih hTail hCons
    | branch a taken =>
      obtain ⟨o, hOp, set, hKind⟩ := hMarks _ List.mem_cons_self
      have hCons := loopsInScope_cons hOp (by rw [hKind]; rfl) hRest
      rw [hKind] at hCons
      simp only [holdersOf, loopsOf, List.reverse_cons, List.append_assoc, List.singleton_append]
      exact ih hTail hCons

/- The loops around an operation are those that the way goes into. -/
theorem Part.enclosingLoops (hPart : f.Part b blk ys p []) (hLeads : p.Leads w q)
    (hHead : q.head? = some a) : f.graph.enclosingLoops a.op = .ok ((loopsOf w).map Prod.fst) := by
  obtain ⟨b', blk', ys', hThere⟩ := hPart.leads hLeads hHead
  obtain ⟨hReached, hRises, _⟩ := hThere.first hHead
  obtain ⟨hOps, hFault⟩ := hRises.ops_lineage
  have hTop : f.graph.loopsInScope (f.graph.lineage a.op) [] = .ok [] := by
    unfold Graph.loopsInScope Lineage.atTop
    rw [hFault]
  have hLoops := loopsInScope_of_holders (fun k hMem =>
    (hPart.mark hLeads hMem).2.imp fun o hMark => ⟨hMark.1, hMark.2.2⟩) hTop
  unfold Graph.enclosingLoops
  simp only [hOps, drop_succ_cons, drop_zero, hLoops]
  change Except.ok _ = _
  rw [append_nil, reverse_reverse]

/- What a way goes into, it goes into with a mark. -/
theorem exists_of_mem_holdersOf
    (hMem : c ∈ holdersOf w) : ∃ k ∈ w, k.act.op = c ∧ ∀ a, k ≠ .past a := by
  induction w with
  | nil => cases hMem
  | cons k w ih =>
    have hLater : c ∈ holdersOf w →
        ∃ k' ∈ k :: w, k'.act.op = c ∧ ∀ a, k' ≠ .past a := fun hMem => by
      obtain ⟨k', hIn, hMark⟩ := ih hMem
      exact ⟨k', mem_cons_of_mem k hIn, hMark⟩
    cases k with
    | past a => exact hLater hMem
    | inside a v | branch a taken =>
      rcases mem_cons.mp hMem with rfl | hMem
      · exact ⟨_, mem_cons_self, rfl, nofun⟩
      · exact hLater hMem

/-
  The operation of a block that a part is in, found on the way
  up to the operation around the block.
-/
theorem sits_of_split (hLinked : ∀ y, g.Inside c y → g.LinkedIn y) (hOp : g.op c = .ok o)
    (hRegion : r ∈ o.regions) (hHolds : g.Holds c r b blk) (hUnfolds : g.Unfolds b blk.ops p)
    (hMem : x ∈ p.ids) (hRises : g.Rises x (inner ++ z :: ls))
    (hOuter : g.Rises c ls) : g.parentBlock z = .ok b := by
  obtain ⟨y, hListed, hInside⟩ := hUnfolds.inside_of_mem_ids hMem
  have hHolder := hHolds.holder hOp hRegion hListed
  have hBelow : g.Rises y (y :: ls) := .child (hHolder.parentOp? (hLinked c .self)) hOuter
  rcases hInside.rises (fun z hIn => hLinked z
    ((Graph.Inside.child .self hHolder).trans hIn)) hBelow with ⟨inner', hRises'⟩
  cases (append_inj' (hRises.unique hRises') rfl).2
  exact ((hLinked c .self hOp hRegion).sits (hHolds.lists hListed)).parentBlock

/- Conditionals with the operation in their first branch hold. -/
theorem Part.guard {set : Affine.IntegerSet} (hPart : f.Part b blk ys p [])
    (hLeads : p.Leads w q) (hHead : q.head? = some a) (hOp : f.graph.op c = .ok o)
    (hKind : o.kind = .conditional set) (hThen : f.graph.thenBlock c = .ok b₁) (hBlock : f.graph.parentBlock z = .ok b₁)
    (hHolder : f.graph.parentOp? z = .ok (some c))
    (hAncestor : f.graph.isAncestor z a.op = .ok true) : ∃ c', .branch c' true ∈ w ∧ c'.op = c := by
  obtain ⟨b', blk', ys', hThere⟩ := hPart.leads hLeads hHead
  obtain ⟨hReached, hRises, _⟩ := hThere.first hHead
  obtain ⟨inner, ls, hSplit, hOuter⟩ := hRises.split (hRises.isAncestor_iff.mp hAncestor) hHolder
  have hAround : c ∈ holdersOf w := by
    obtain ⟨_, rfl⟩ := hOuter.head
    cases inner with
    | nil | cons y inner =>
      simp only [nil_append, cons_append, List.cons.injEq] at hSplit
      have hMem : c ∈ (holdersOf w).reverse ++ [] := by simp [hSplit.2]
      simpa using hMem
  rw [hSplit] at hRises
  obtain ⟨k, hMark, rfl, hInto⟩ := exists_of_mem_holdersOf hAround
  obtain ⟨_, o', hOp', _, hOf⟩ := hPart.mark hLeads hMark
  cases hOp.symm.trans hOp'
  cases k with
  | past a' => exact absurd rfl (hInto a')
  | inside a' v =>
    obtain ⟨⟨_, _, _, hLoop⟩, _⟩ := hOf
    cases hKind.symm.trans hLoop
  | branch c' taken =>
    cases taken with
    | true => exact ⟨c', hMark, rfl⟩
    | false =>
      exfalso
      obtain ⟨w₁, w₂, q₁, q₂, rfl, hFirst, hOpens, hSecond⟩ := hLeads.at_mark hMark
      obtain ⟨b₀, blk₀, ys₀, hAt⟩ := hPart.leads hFirst hOpens.head
      have hMem := hSecond.sublist_ids.subset (mem_ids_of_head hHead)
      cases hOpens
      cases hAt.unfolds with
      | cond hThis hParent hKind' hRegions hBranch hInner hRest =>
        cases hOp.symm.trans hThis
        rcases (hBranch false).nil_or_holds (hInner false) with hNil | ⟨_, hHolds', hOps⟩
        · rw [hNil] at hMem
          cases hMem
        have hSits := sits_of_split (fun _ => hAt.home.row.linked (hAt.row.subset mem_cons_self)) hOp
          (Graph.mem_regions hRegions false) hHolds' (hOps ▸ hInner false) hMem hRises hOuter
        obtain ⟨rfl, _, hHolds⟩ := (hBranch true).eq_of_bodyBlock hOp hRegions hThen
        have hSame := hBlock.symm.trans hSits
        rw [← Except.ok.inj hSame] at hHolds'
        cases hHolds.block.symm.trans hHolds'.block
        have hNodup := hAt.home.tidy.nodup_regions hOp
        rw [hRegions, ← hHolds.parent, ← hHolds'.parent] at hNodup
        simp at hNodup

------
-- The order of operations
------

/- What is inside an operation of the function rises through it. -/
theorem rises_of_inside (hValid : f.problems = .ok []) (hReached : f.graph.Reached f.body x)
    (hInside : f.graph.Inside x y)
    (hRises : f.graph.Rises x ls) : ∃ inner, f.graph.Rises y (inner ++ ls) :=
  hInside.rises (fun _ hIn => linkedIn_of_reached hValid (hIn.reached hReached)) hRises

/- Operations of one block have the same operations around them. -/
theorem rises_of_sits (hValid : f.problems = .ok []) (hReached : f.graph.Reached f.body s)
    (hFirst : f.graph.Sits s b r) (hSecond : f.graph.Sits t b r) :
    ∃ outer, f.graph.Rises s (s :: outer) ∧ f.graph.Rises t (t :: outer) := by
  have hParent : f.graph.parentOp? s = f.graph.parentOp? t := by
    unfold Graph.parentOp?
    rw [hFirst.parentRegion, hSecond.parentRegion]
  obtain ⟨ls, hRises, _⟩ := rises_of_reached hValid hReached
  cases hRises with
  | top hTop => exact ⟨[], .top hTop, .top (hParent ▸ hTop)⟩
  | child hOuter hRises => exact ⟨_, .child hOuter hRises, .child (hParent ▸ hOuter) hRises⟩

/-
  If two operations are in different operations of a block,
  then the first one is in the earlier one of these.
-/
def InOrder (f : Function) (x y : OpId) : Prop :=
  ∀ ⦃s t b r blk⦄, f.graph.Reached f.body s → f.graph.Reached f.body t →
    f.graph.Sits s b r → f.graph.Sits t b r → f.graph.Inside s x → f.graph.Inside t y → s ≠ t →
    f.graph.block b = .ok blk → blk.ops.idxOf s < blk.ops.idxOf t

/- Operations around others are not in other operations of a block. -/
theorem inOrder_of_inside (hValid : f.problems = .ok [])
    (hInside : f.graph.Inside x y) : f.InOrder x y := by
  intro s t b r blk hReached hReached' hSits hSits' hFirst hSecond hNe _
  obtain ⟨outer, hRises, hRises'⟩ := rises_of_sits hValid hReached hSits hSits'
  exact absurd ((hFirst.trans hInside).unique hSecond
    (fun _ hIn => linkedIn_of_reached hValid (hIn.reached hReached))
    (fun _ hIn => linkedIn_of_reached hValid (hIn.reached hReached')) hRises hRises') hNe

/- An operation of a part comes before those behind it. -/
theorem Part.inOrder_of_behind (hPart : f.Part b blk (z :: zs) p outer)
    (hRest : f.graph.Unfolds b zs rest) (hInside : f.graph.Inside z x)
    (hMem : y ∈ rest.ids) : f.InOrder x y := by
  have hValid := hPart.home.valid
  intro s t b' r blk' hReached hReached' hSits hSits' hFirst hSecond hNe hBlock
  obtain ⟨z', hBehind, hInside'⟩ := hRest.inside_of_mem_ids hMem
  have hIn := hPart.row.subset List.mem_cons_self
  have hIn' := hPart.row.subset (List.mem_cons_of_mem z hBehind)
  have hLess : blk.ops.idxOf z < blk.ops.idxOf z' := (List.pairwise_cons.mp
    ((pairwise_idxOf hPart.home.row.nodup).sublist hPart.row.sublist)).1 z' hBehind
  -- The ways up from both operations part at `z` and `z'`, so also there.
  obtain ⟨around, hRises, hRises'⟩ := rises_of_sits hValid hReached hSits hSits'
  obtain ⟨us, hUp⟩ := rises_of_inside hValid hReached hFirst hRises
  obtain ⟨us', hUp'⟩ := rises_of_inside hValid hReached' hSecond hRises'
  rcases hInside.rises (fun _ => hPart.home.row.linked hIn)
    (hPart.home.row.rises hIn) with ⟨vs, hOver⟩
  rcases hInside'.rises (fun _ => hPart.home.row.linked hIn')
    (hPart.home.row.rises hIn') with ⟨vs', hOver'⟩
  have hEq := congrArg List.reverse (hOver.unique hUp)
  have hEq' := congrArg List.reverse (hOver'.unique hUp')
  simp only [List.reverse_append, List.reverse_cons, List.append_assoc,
    List.singleton_append] at hEq hEq'
  have hOther : z ≠ z' := by
    rintro rfl
    exact Nat.lt_irrefl _ hLess
  obtain ⟨rfl, rfl⟩ := Graph.eq_of_parting hEq hEq' hOther hNe
  cases hSits.parentBlock.symm.trans (hPart.home.sits hIn).parentBlock
  cases hBlock.symm.trans hPart.home.block
  exact hLess

/- Statements that precede others are in order. -/
theorem Part.inOrder_of_precedes (hPart : f.Part b blk ys p outer)
    (hPrecedes : p.Precedes x y) : f.InOrder x y := by
  induction p generalizing b blk ys outer with
  | nil => exact hPrecedes.elim
  | act a rest ih =>
    cases hPart.unfolds with
    | act hOp hParent hKind hRest =>
      rcases hPrecedes with ⟨rfl, hBehind⟩ | hPrecedes
      · exact hPart.inOrder_of_behind hRest .self hBehind
      · exact ih (hPart.tail hRest) hPrecedes
  | loop a v body rest ihBody ihRest =>
    obtain ⟨zs, _, _, rfl, _, hRest, hBelow, hInner⟩ := hPart.of_loop
    have hBehind := hPart.inOrder_of_behind (x := x) (y := y) hRest.unfolds
    rcases hPrecedes with ⟨rfl, hIn | hLater⟩ | ⟨hIn, hLater⟩ | hPrecedes | hPrecedes
    · exact inOrder_of_inside hPart.home.valid (hInner _ hIn)
    · exact hBehind .self hLater
    · exact hBehind (hInner _ hIn) hLater
    · exact ihBody hBelow hPrecedes
    · exact ihRest hRest hPrecedes
  | cond a branch rest ihBranch ihRest =>
    obtain ⟨zs, rfl, _, hRest, hBranches⟩ := hPart.of_cond
    have hBehind := hPart.inOrder_of_behind (x := x) (y := y) hRest.unfolds
    rcases hPrecedes with
      ⟨rfl, ⟨taken, hIn⟩ | hLater⟩ | ⟨⟨taken, hIn⟩, hLater⟩ | ⟨taken, hPrecedes⟩ | hPrecedes
    · exact inOrder_of_inside hPart.home.valid ((hBranches taken).1 _ hIn)
    · exact hBehind .self hLater
    · exact hBehind ((hBranches taken).1 _ hIn) hLater
    · rcases (hBranches taken).2 with hNil | ⟨_, _, hBelow⟩
      · rw [hNil] at hPrecedes
        exact hPrecedes.elim
      · exact ihBranch taken hBelow hPrecedes
    · exact ihRest hRest hPrecedes

/- The places in the lineage of an operation of the function. -/
theorem inside_of_site {s : Site} (hValid : f.problems = .ok [])
    (hReached : f.graph.Reached f.body x) (hMem : s ∈ (f.graph.lineage x).sites) :
    f.graph.Inside s.op x ∧ f.graph.Reached f.body s.op ∧ f.graph.Sits s.op s.block s.region := by
  obtain ⟨ls, hRises, hAround⟩ := rises_of_reached hValid hReached
  obtain ⟨sites, hEq, rfl, hSites⟩ := hRises.lineage
  rw [hEq] at hMem
  obtain ⟨hInside, hThere⟩ := hAround s.op (mem_map_of_mem hMem)
  obtain ⟨b, r, _, hSits, _⟩ :=
    hThere.place (linked_body hValid) fun _ => linkedIn_of_reached hValid
  have hSite : ⟨s.op, b, r⟩ = s := Except.ok.inj (hSits.site.symm.trans (hSites s hMem))
  rw [← hSite] at hInside hThere ⊢
  exact ⟨hInside, hThere, hSits⟩

theorem sites_of_complete {sites : List Site}
    (hComplete : l.complete = .ok sites) : sites = l.sites := by
  unfold Lineage.complete Lineage.atTop at hComplete
  split at hComplete
  · cases hComplete
  · exact (Except.ok.inj hComplete).symm

/- Operations in order are found to be in order. -/
theorem appearsBefore_of_inOrder {isBefore : Bool} (hValid : f.problems = .ok [])
    (hTidy : f.graph.Tidy) (hReached : f.graph.Reached f.body x)
    (hReached' : f.graph.Reached f.body y) (hOrder : f.InOrder x y)
    (hAsked : f.graph.appearsBefore x y = .ok isBefore) : isBefore = true := by
  obtain ⟨sites, hSites, hAsked⟩ := bind_eq_ok.mp hAsked
  obtain ⟨sites', hSites', hAsked⟩ := bind_eq_ok.mp hAsked
  cases sites_of_complete hSites
  cases sites_of_complete hSites'
  dsimp only at hAsked
  split at hAsked
  · exact (pure_eq_ok.mp hAsked).symm
  rename_i s t hMeeting
  split at hAsked
  · exact (pure_eq_ok.mp hAsked).symm
  rename_i hNe
  obtain ⟨site', hMem', hFound⟩ := exists_of_findSome?_eq_some hMeeting
  obtain ⟨site, hFind, hPair⟩ := Option.map_eq_some_iff.mp hFound
  cases hPair
  have hBlock : site.block = site'.block := by simpa using List.find?_some hFind
  obtain ⟨hIn, hThere, hSits⟩ := inside_of_site hValid hReached (mem_of_find?_eq_some hFind)
  obtain ⟨hIn', hThere', hSits'⟩ := inside_of_site hValid hReached' hMem'
  rw [hBlock] at hSits
  obtain ⟨blk, hBlk, hRegion, _⟩ := hSits.block
  obtain ⟨blk', hBlk', hRegion', _⟩ := hSits'.block
  cases hBlk.symm.trans hBlk'
  rw [← hRegion] at hSits
  rw [← hRegion'] at hSits'
  have hLess := hOrder hThere hThere' hSits hSits' hIn hIn' hNe hBlk
  have hNodup := hTidy.nodup_ops hBlk
  obtain ⟨i, hPosition, hAt⟩ := hSits.position hBlk
  obtain ⟨j, hPosition', hAt'⟩ := hSits'.position hBlk
  rw [idxOf_of_getElem? hNodup hAt, idxOf_of_getElem? hNodup hAt'] at hLess
  unfold Graph.isBefore at hAsked
  rw [hSits.parentBlock, hSits'.parentBlock, hPosition, hPosition'] at hAsked
  simpa [hLess, bind, Except.bind, pure, Except.pure] using hAsked.symm

end Function

end AffineIR
