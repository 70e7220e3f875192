import AffineIR.Proofs.Graph.Lineages
import AffineIR.Proofs.Run.Sessions

/-
  Functions whose body is a single block.

  The block of such a function is one program with an
  operation behind it.  The program names each operation once,
  and no value of it is bound where it is not seen.

  Main result: `Function.Whole.arrives_of_comesTo`
-/

namespace AffineIR

open List

variable {a : Act} {e : Act × Store} {reg : Region} {o o' : Operation}

/- What is in a pass, but not behind the program, is arrived at. -/
theorem Prog.arrives_of_pass {p : Prog} {σ : Store} {t u : Trace}
    (hTrace : (p.pass a σ).1 = t ++ e :: u)
    (hOther : e.1.op ≠ a.op) : ∃ w q, p.Arrives σ w t q e.2 ∧ q.head? = some e.1 := by
  rcases split_andPlay hTrace with ⟨u', hFirst⟩ | ⟨t₁, σ₁, t₂, _, rfl, hLast⟩
  · exact arrives_of_play hFirst
  · cases t₂ with
    | nil =>
      cases hLast
      exact absurd rfl hOther
    | cons first t₂ =>
      have hLength := congrArg List.length hLast
      simp at hLength

namespace Function

open Prog

variable {f : Function} {b : BlockId} {blk : Block} {ys : List OpId} {p : Prog} {outer : List OpId}

/- The branches of a conditional are apart. -/
theorem Home.apart_branches {x : OpId} {r : Bool → RegionId} {c : Bool → BlockId}
    {ys : Bool → List OpId} {branch : Bool → Prog} {here there : Bool} (hHome : f.Home b blk outer)
    (hMem : x ∈ blk.ops) (hOp : f.graph.op x = .ok o) (hRegions : o.regions = [r true, r false])
    (hBranch : ∀ taken, f.graph.Branch x (r taken) (c taken) (ys taken))
    (hInner : ∀ taken, f.graph.Unfolds (c taken) (ys taken) (branch taken))
    (hOther : here ≠ there) : (branch here).Apart (branch there) := by
  have hRegion := Graph.mem_regions hRegions
  have hNotBoth {u₁ u₂ y : OpId} (hMem₁ : u₁ ∈ ys here) (hMem₂ : u₂ ∈ ys there)
      (hInside : f.graph.Inside u₁ y) : ¬f.graph.Inside u₂ y :=
    hHome.row.not_inside_both hMem hOp (hRegion here) (hRegion there)
      (hHome.tidy.ne_of_branches hOp hRegions hOther) (hBranch here) (hBranch there) hMem₁ hMem₂
      hInside
  have hReached {taken : Bool} {u y : OpId} (hIn : u ∈ ys taken) (hInside : f.graph.Inside u y) :
      f.graph.Reached f.body y :=
    hInside.reached (.child (hHome.reached hMem) ((hBranch taken).holder hOp (hRegion taken) hIn))
  constructor
  · intro v hUses hBinds
    obtain ⟨y, hIn, o', hOp', hOperand⟩ := (hInner here).user_of_uses hUses
    obtain ⟨u, hListed, hInside⟩ := (hInner here).inside_of_mem_ids hIn
    rcases (hBranch there).nil_or_holds (hInner there) with hNil | ⟨blk', hHolds, hOps⟩
    · rw [hNil] at hBinds
      cases hBinds
    rcases scope_of_binds (hHome.below hMem hOp (hRegion there) hHolds) (hInner there)
      (fun _ => hOps ▸ id) hBinds (hReached hListed hInside) hOp' hOperand with
      ⟨_, _, _, z, hThere, hInside', _⟩ | ⟨z, hThere, z', hHolder, hInside'⟩
    · exact hNotBoth hListed (hOps ▸ hThere) hInside hInside'
    · exact hNotBoth hListed hThere hInside ((Graph.Inside.child .self hHolder).trans hInside')
  · intro v hBinds hBinds'
    obtain ⟨y, hIn, hOwns⟩ := (hInner here).owner_of_binds hBinds
    obtain ⟨y', hIn', hOwns'⟩ := (hInner there).owner_of_binds hBinds'
    obtain ⟨u, hListed, hInside⟩ := (hInner here).inside_of_mem_ids hIn
    obtain ⟨u', hListed', hInside'⟩ := (hInner there).inside_of_mem_ids hIn'
    have hSame := hOwns.unique hHome.valid hHome.tidy (hReached hListed hInside)
      (hReached hListed' hInside') hOwns'
    subst hSame
    exact hNotBoth hListed hListed' hInside hInside'

/- The variable of a loop is not bound in its body. -/
theorem Home.not_binds_var {x : OpId} {r : RegionId} {b' : BlockId} {blk' : Block} {v : ValueId}
    {body : Prog} (hHome : f.Home b blk outer) (hIn : x ∈ blk.ops) (hOp : f.graph.op x = .ok o)
    (hRegion : r ∈ o.regions) (hHolds : f.graph.Holds x r b' blk') (hArgs : blk'.args = [v])
    (hBody : f.graph.Unfolds b' blk'.ops body) : ¬body.Binds v := by
  intro hBinds
  have hReached := hHome.reached hIn
  obtain ⟨y, hThere, hOwns⟩ := hBody.owner_of_binds hBinds
  obtain ⟨u, hListed, hInside⟩ := hBody.inside_of_mem_ids hThere
  have hHolder := hHolds.holder hOp hRegion hListed
  have hSame := hOwns.unique hHome.valid hHome.tidy (hInside.reached (.child hReached hHolder))
    hReached ⟨o, hOp, .inr ⟨r, b', blk', hRegion, hHolds, hArgs⟩⟩
  subst hSame
  exact hHome.row.not_inside_of_holder hIn hHolder hInside

/- The program of a part is well scoped. -/
theorem Part.wellScoped (hPart : f.Part b blk ys p outer) : p.WellScoped := by
  have hOrdered := ordered_of_unfolds hPart.home hPart.unfolds hPart.row.sublist
  induction p generalizing b blk ys outer with
  | nil => trivial
  | act a rest ih =>
    cases hPart.unfolds with
    | act hOp hParent hKind hRest =>
      obtain ⟨hOperands, hBound, hLater⟩ := hOrdered
      refine ⟨fun v hMem => (hOperands v hMem).1, ?_, ih (hPart.tail hRest) hLater⟩
      intro v hNamed
      exact hNamed.elim (fun hMem => (hOperands v hMem).2) (hBound v)
  | loop a v body rest ihBody ihRest =>
    cases hPart.unfolds with
    | @loop _ _ x _ _ _ _ _ r _ _ _ _ hOp hParent hKind hRegions hHolds hArgs hClosed hBody hRest =>
        have hRegion := mem_singleton_self r
        rw [← hRegions] at hRegion
        have hIn : x ∈ blk.ops := hPart.row.subset mem_cons_self
        have hOne := Graph.Unfolds.loop hOp hParent hKind hRegions hHolds hArgs hClosed hBody .nil
        have hOperand := fun u hMem => not_binds_of_operand (v := u) hPart.home hIn hOne hOp hMem
        have hInner := hPart.below mem_cons_self hOp hRegion hHolds hBody
        obtain ⟨hApart, hApart', hLater⟩ := hOrdered
        refine ⟨?_, fun hMem => hOperand v hMem (.inl rfl), hApart, hApart',
          ihBody hInner ?_, ihRest (hPart.tail hRest) hLater⟩
        · rintro u (hMem | rfl) hBinds
          · exact hOperand u hMem (.inr (.inl hBinds))
          · exact hPart.home.not_binds_var hIn hOp hRegion hHolds hArgs hBody hBinds
        · exact ordered_of_unfolds hInner.home hBody (List.Sublist.refl _)
  | cond a branch rest ihBranch ihRest =>
    obtain ⟨hApart, hApart', hLater⟩ := hOrdered
    obtain ⟨_, _, _, _, hBranches⟩ := hPart.of_cond
    cases hPart.unfolds with
    | cond hOp hParent hKind hRegions hBranch hInner hRest =>
      have hIn := hPart.row.subset mem_cons_self
      have hOne := Graph.Unfolds.cond hOp hParent hKind hRegions hBranch hInner .nil
      refine ⟨?_, hPart.home.apart_branches hIn hOp hRegions hBranch hInner, hApart, hApart', ?_,
        ihRest (hPart.tail hRest) hLater⟩
      · intro u hMem taken hBinds
        exact not_binds_of_operand hPart.home hIn hOne hOp hMem (.inl ⟨taken, hBinds⟩)
      · intro taken
        rcases (hBranches taken).2 with hNil | ⟨_, _, hBelow⟩
        · rw [hNil]
          trivial
        · exact ihBranch taken hBelow
            (ordered_of_unfolds hBelow.home hBelow.unfolds (List.Sublist.refl _))

------
-- Single blocks
------

/-
  A function with one block, its program, and the operation
  behind the program.
-/
structure Whole (f : Function) (params : List ValueId) (b : BlockId) (blk : Block) (xs : List OpId)
    (p : Prog) (x : OpId) (o : Operation) : Prop where
  valid : f.problems = .ok []
  tidy : f.graph.Tidy
  one : f.OneBlock params b xs p x o
  part : f.Part b blk xs p []
  ops : blk.ops = xs ++ [x]
  args : blk.args = params

/- The only block of a body. -/
theorem home_body (hValid : f.problems = .ok []) (hTidy : f.graph.Tidy)
    (hRegion : f.graph.region f.body = .ok reg) (hSingle : reg.blocks = [b])
    (hBlock : f.graph.block b = .ok blk) : f.Home b blk [] := by
  have hLinked := linked_body hValid
  have hMem : b ∈ reg.blocks := by simp [hSingle]
  have hLists {x : OpId} (hIn : x ∈ blk.ops) : f.graph.Lists f.body b x :=
    ⟨⟨reg, hRegion, hMem⟩, ⟨blk, hBlock, hIn⟩⟩
  obtain ⟨blk', hBlock', hParent⟩ := hLinked.block hRegion hMem
  cases hBlock.symm.trans hBlock'
  refine ⟨hValid, hTidy, hBlock, ⟨reg, hParent ▸ hRegion, hSingle⟩,
    fun hIn => .top (hLists hIn), fun hIn => hParent ▸ hLinked.sits (hLists hIn),
    hTidy.nodup_ops hBlock, ?_, fun hIn => .top (hLinked.parentOp? (hLists hIn))⟩
  intro x z hIn hInside
  exact linkedIn_of_reached hValid (hInside.reached (.top (hLists hIn)))

/- A valid function with one block consists of a program. -/
theorem whole_of_valid (hValid : f.problems = .ok []) (hTidy : f.graph.Tidy)
    (hRegion : f.graph.region f.body = .ok reg)
    (hSingle : reg.blocks = [b]) : ∃ params blk xs p x o, f.Whole params b blk xs p x o := by
  have hMem : b ∈ reg.blocks := by simp [hSingle]
  obtain ⟨xs, p, x, o, hCourse, hStays⟩ := (navigable_of_valid hValid hTidy hRegion).course hMem
  obtain ⟨blk, hBlock, hOps⟩ := hCourse.block
  have hEntry : f.graph.entryBlock? f.body = .ok (some b) := by
    unfold Graph.entryBlock?
    rw [hRegion]
    simp [hSingle, bind, Except.bind, pure, Except.pure]
  have hArguments : f.arguments = .ok blk.args := by
    unfold arguments entryBlock
    rw [hRegion]
    simp [hSingle, hBlock, bind, Except.bind, pure, Except.pure, entryAt]
  refine ⟨blk.args, blk, xs, p, x, o, hValid, hTidy, ⟨⟨hEntry, hArguments⟩, hCourse, ?_⟩,
    ⟨home_body hValid hTidy hRegion hSingle hBlock, hCourse.unfolds, ?_⟩, hOps, rfl⟩
  · intro s hSuccessor
    simpa [hSingle] using hStays s hSuccessor
  · exact ⟨[], [x], hOps.symm⟩

namespace Whole

variable {params : List ValueId} {xs : List OpId} {x : OpId}

section

variable (hWhole : f.Whole params b blk xs p x o)

include hWhole

theorem nodup_ids : p.ids.Nodup :=
  hWhole.part.unfolds.nodup_ids hWhole.tidy (hWhole.part.home.row.sublist hWhole.part.row.sublist)

theorem wellScoped : p.WellScoped := hWhole.part.wellScoped

/- What a way leads to is an operation of the function. -/
theorem first {q : Prog} {w : List Mark} (hLeads : p.Leads w q) (hHead : q.head? = some a) :
    f.graph.Reached f.body a.op ∧ ∃ o, f.graph.op a.op = .ok o ∧ a = f.graph.actOf a.op o := by
  obtain ⟨b', blk', ys, hPart⟩ := hWhole.part.leads hLeads hHead
  exact ⟨(hPart.first hHead).1, (hPart.first hHead).2.2.2⟩

/- A pass arrives at what happens in it, which is an operation of the function. -/
theorem arrives_of_event {τ : Store} {t u : List (Act × Store)}
    (hTrace : (p.pass (f.graph.actOf x o) τ).1 = t ++ e :: u) (hOp : f.graph.op e.1.op = .ok o')
    (hKind : o'.kind.isJump = false) : e.1 = f.graph.actOf e.1.op o' ∧
      ∃ w q, p.Arrives τ w t q e.2 ∧ q.head? = some e.1 := by
  have hOther : e.1.op ≠ x := by
    intro hSame
    rw [hSame, hWhole.one.course.op] at hOp
    cases hOp
    cases hWhole.one.course.jumps.symm.trans hKind
  obtain ⟨w, q, hArrives, hHead⟩ := arrives_of_pass hTrace hOther
  obtain ⟨o₁, hOp₁, hAct⟩ := (hWhole.first hArrives.leads hHead).2
  cases hOp.symm.trans hOp₁
  exact ⟨hAct, w, q, hArrives, hHead⟩

theorem actOf_of_pass {τ : Store} (hMem : e ∈ (p.pass (f.graph.actOf x o) τ).1)
    (hOp : f.graph.op e.1.op = .ok o')
    (hKind : o'.kind.isJump = false) : e.1 = f.graph.actOf e.1.op o' := by
  obtain ⟨t, u, hTrace⟩ := append_of_mem hMem
  exact (hWhole.arrives_of_event hTrace hOp hKind).1

/-
  What a run comes to, other than the operation behind the
  program, the program arrives at in a pass.
-/
theorem arrives_of_comesTo {args : List Datum} {m s : Machine} {n : Nat} {h : OpId}
    (hSession : f.Session m) (hComes : f.ComesTo args m n h s) (hOp : f.graph.op h = .ok o')
    (hKind : o'.kind.isJump = false) :
    ∃ base τ w t q u, f.PassAt p (f.graph.actOf x o) args m base τ ∧
      τ.Within params p ∧ n = base + t.length ∧ (p.pass (f.graph.actOf x o) τ).1 =
        t ++ (f.graph.actOf h o', s.store) :: u ∧
      p.Arrives τ w t q s.store ∧ q.head? = some (f.graph.actOf h o') := by
  rcases hWhole.one.pass_of_comesTo (preserves_within p params).next
    ((hSession.within hWhole.one).assignAll args) hComes with
    ⟨base, τ, t, ⟨a, σ⟩, u, hPass, hWithin, hTrace, hSteps, rfl, rfl⟩
  obtain ⟨hAct, w, q, hArrives, hHead⟩ := hWhole.arrives_of_event hTrace hOp hKind
  rw [← hAct]
  exact ⟨base, τ, w, t, q, u, hPass, hWithin, hSteps, hTrace, hArrives, hHead⟩

end

end Whole

end Function

end AffineIR
