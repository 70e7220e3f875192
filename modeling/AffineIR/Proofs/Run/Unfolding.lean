import AffineIR.Proofs.Run.Following

/-
  The programs of operation lists.

  Loops and conditionals whose branches are single blocks are
  unfolded into programs.  Executing the operations of a block
  follows the program that they unfold into.

  Main declarations:
    * `Prog.ids`, `Graph.Unfolds.frame`
-/

namespace AffineIR

open List

variable {p q : Prog} {xs ys : List OpId} {r : RegionId} {k : Nat} {enter : RegionId → Exec Flow}
  {o : Operation} {x : OpId} {rest : List RegionId} {v : ValueId} {blk : Block}
  {lower upper : Affine.Map} {step : Int} {set : Affine.IntegerSet}

namespace Prog

/- The operations of a program, in order. -/
def ids : Prog → List OpId
  | nil => []
  | act a rest => a.op :: rest.ids
  | loop a _ body rest => a.op :: (body.ids ++ rest.ids)
  | cond a branch rest => a.op :: ((branch true).ids ++ (branch false).ids ++ rest.ids)

@[simp] theorem ids_append (p q : Prog) : (p ++ q).ids = p.ids ++ q.ids := by
  induction p with
  | nil => rfl
  | act a rest ih => simp [ids, ih]
  | loop a var body rest _ ih => simp [ids, ih]
  | cond a branch rest _ ih => simp [ids, ih]

/- The first statement of a program. -/
def head? : Prog → Option Act
  | nil => none
  | act a _ => some a
  | loop a _ _ _ => some a
  | cond a _ _ => some a

/- What is inside the first statement of a program. -/
def inner : Prog → List OpId
  | nil => []
  | act _ _ => []
  | loop _ _ body _ => body.ids
  | cond _ branch _ => (branch true).ids ++ (branch false).ids

/- What stands behind the first statement. -/
def tail : Prog → Prog
  | nil => nil
  | act _ rest => rest
  | loop _ _ _ rest => rest
  | cond _ _ rest => rest

theorem branch_sublist (branch : Bool → Prog) (taken : Bool) :
    (branch taken).ids.Sublist ((branch true).ids ++ (branch false).ids) := by
  cases taken with
  | true => exact sublist_append_left ..
  | false => exact sublist_append_right ..

theorem mem_branches {branch : Bool → Prog} {x : OpId} :
    x ∈ (branch true).ids ++ (branch false).ids ↔ ∃ taken, x ∈ (branch taken).ids := by
  rw [mem_append, Bool.exists_bool, or_comm]

theorem mem_ids_of_branch {a : Act} {branch : Bool → Prog} {rest : Prog} {taken : Bool} {x : OpId}
    (hMem : x ∈ (branch taken).ids) : x ∈ (cond a branch rest).ids :=
  mem_cons_of_mem _ (mem_append_left _ (mem_branches.mpr ⟨taken, hMem⟩))

end Prog

------
-- Programs of lists
------

namespace Graph

/- A region of an operation that consists of one block. -/
structure Holds (g : Graph) (x : OpId) (r : RegionId) (b : BlockId) (blk : Block) : Prop where
  region : g.region r = .ok { blocks := [b], parent := some x }
  block : g.block b = .ok blk
  parent : blk.parent = r

/- Operations that end in a yield and have no other terminator. -/
def Closed (g : Graph) (ops : List OpId) : Prop :=
  ∃ xs y o, ops = xs ++ [y] ∧ g.op y = .ok o ∧ o.kind = .yield ∧
    ∀ x ∈ xs, ∃ o, g.op x = .ok o ∧ o.kind.isTerminator = false

/-
  The operations that are executed in a region: those of its
  only block, or none if it has no blocks.
-/
inductive Branch (g : Graph) (x : OpId) (r : RegionId) (b : BlockId) : List OpId → Prop
  | empty (hRegion : g.region r = .ok { blocks := [], parent := some x }) : Branch g x r b []
  | block {blk : Block} (hHolds : g.Holds x r b blk) (hClosed : g.Closed blk.ops) :
      Branch g x r b blk.ops

theorem mem_regions {o : Operation} {r : Bool → RegionId} (hRegions : o.regions = [r true, r false])
    (taken : Bool) : r taken ∈ o.regions := by
  cases taken <;> simp [hRegions]

/- Operations of a block, and the program they stand for. -/
inductive Unfolds (g : Graph) : BlockId → List OpId → Prog → Prop
  | nil {b : BlockId} : Unfolds g b [] .nil
  | act {b : BlockId} {x : OpId} {xs : List OpId} {o : Operation} {p : Prog} (hOp : g.op x = .ok o)
      (hParent : o.parent = some b) (hKind : o.kind.isControl = false) (hRest : Unfolds g b xs p) :
      Unfolds g b (x :: xs) (.act (g.actOf x o) p)
  | loop {b b' : BlockId} {x : OpId} {xs : List OpId} {o : Operation}
      {lower upper : Affine.Map} {step : Int} {r : RegionId} {blk : Block}
      {v : ValueId} {body p : Prog} (hOp : g.op x = .ok o) (hParent : o.parent = some b)
      (hKind : o.kind = .loop lower upper step) (hRegions : o.regions = [r])
      (hHolds : g.Holds x r b' blk) (hArgs : blk.args = [v]) (hClosed : g.Closed blk.ops)
      (hBody : Unfolds g b' blk.ops body) (hRest : Unfolds g b xs p) :
      Unfolds g b (x :: xs) (.loop (g.actOf x o) v body p)
  | cond {b : BlockId} {x : OpId} {xs : List OpId} {o : Operation} {set : Affine.IntegerSet}
      {r : Bool → RegionId} {c : Bool → BlockId} {ys : Bool → List OpId} {branch : Bool → Prog}
      {p : Prog} (hOp : g.op x = .ok o) (hParent : o.parent = some b)
      (hKind : o.kind = .conditional set) (hRegions : o.regions = [r true, r false])
      (hBranch : ∀ taken, g.Branch x (r taken) (c taken) (ys taken))
      (hInner : ∀ taken, Unfolds g (c taken) (ys taken) (branch taken)) (hRest : Unfolds g b xs p) :
      Unfolds g b (x :: xs) (.cond (g.actOf x o) branch p)

variable {g : Graph} {b : BlockId}

/- The first block of a region with one block. -/
theorem Holds.entryBlock (hHolds : g.Holds x r b blk) : g.entryBlock? r = .ok (some b) := by
  unfold Graph.entryBlock?
  rw [hHolds.region]
  rfl

theorem bodyBlock_eq {reg : Region} (hOp : g.op x = .ok o) (hRegions : o.regions = r :: rest)
    (hRegion : g.region r = .ok reg) : g.bodyBlock x = entryAt reg.blocks 0 := by
  unfold Graph.bodyBlock
  rw [hOp]
  change (do
    let region ← entryAt o.regions 0
    entryAt (← g.region region).blocks 0 : Except Fault BlockId) = _
  rw [hRegions]
  change (do
    entryAt (← g.region r).blocks 0 : Except Fault BlockId) = _
  rw [hRegion]
  rfl

theorem Holds.bodyBlock (hHolds : g.Holds x r b blk) (hOp : g.op x = .ok o)
    (hRegions : o.regions = r :: rest) : g.bodyBlock x = .ok b :=
  bodyBlock_eq hOp hRegions hHolds.region

/- A first branch has the block of its operation. -/
theorem Branch.eq_of_bodyBlock (hBranch : g.Branch x r b xs) (hOp : g.op x = .ok o)
    (hRegions : o.regions = r :: rest) (hBody : g.bodyBlock x = .ok b') :
    b' = b ∧ ∃ blk, g.Holds x r b blk := by
  cases hBranch with
  | empty hRegion => cases hBody.symm.trans (bodyBlock_eq hOp hRegions hRegion)
  | block hHolds =>
    exact ⟨Except.ok.inj (hBody.symm.trans (hHolds.bodyBlock hOp hRegions)), _, hHolds⟩

/- A branch that does something has a block. -/
theorem Branch.nil_or_holds (hBranch : g.Branch x r b xs) (hUnfolds : g.Unfolds b xs p) :
    p = .nil ∨ ∃ blk, g.Holds x r b blk ∧ xs = blk.ops := by
  cases hBranch with
  | empty =>
    cases hUnfolds
    exact .inl rfl
  | block hHolds => exact .inr ⟨_, hHolds, rfl⟩

theorem Holds.inductionVar (hHolds : g.Holds x r b blk) (hOp : g.op x = .ok o)
    (hRegions : o.regions = r :: rest) (hArgs : blk.args = [v]) : g.inductionVar x = .ok v := by
  unfold Graph.inductionVar
  rw [hHolds.bodyBlock hOp hRegions]
  change (do
    entryAt (← g.block b).args 0 : Except Fault ValueId) = _
  rw [hHolds.block]
  change entryAt blk.args 0 = _
  rw [hArgs]
  rfl

/- Lists one after the other stand for programs one after the other. -/
theorem Unfolds.append (hFirst : g.Unfolds b xs p)
    (hSecond : g.Unfolds b ys q) : g.Unfolds b (xs ++ ys) (p ++ q) := by
  induction hFirst with
  | nil => exact hSecond
  | act hOp hParent hKind _ ih => exact .act hOp hParent hKind (ih hSecond)
  | loop hOp hParent hKind hRegions hHolds hArgs hClosed hBody _ _ ih =>
    exact .loop hOp hParent hKind hRegions hHolds hArgs hClosed hBody (ih hSecond)
  | cond hOp hParent hKind hRegions hBranch hInner _ _ ih =>
    exact .cond hOp hParent hKind hRegions hBranch hInner (ih hSecond)

/- The first operation of a list, and what stands behind it. -/
theorem Unfolds.uncons (hUnfolds : g.Unfolds b (x :: xs) p) :
    ∃ o first, g.op x = .ok o ∧ p.head? = some (g.actOf x o) ∧ g.Unfolds b xs p.tail ∧
      g.Unfolds b [x] first ∧ p = first ++ p.tail ∧ first.ids = x :: p.inner := by
  cases hUnfolds with
  | act hOp hParent hKind hRest =>
    exact ⟨_, _, hOp, rfl, hRest, .act hOp hParent hKind .nil, rfl, rfl⟩
  | loop hOp hParent hKind hRegions hHolds hArgs hClosed hBody hRest =>
    refine ⟨_, _, hOp, rfl, hRest, .loop hOp hParent hKind hRegions hHolds
      hArgs hClosed hBody .nil, rfl, ?_⟩
    simp [Prog.ids, Prog.inner, actOf]
  | cond hOp hParent hKind hRegions hBranch hInner hRest =>
    refine ⟨_, _, hOp, rfl, hRest, .cond hOp hParent hKind hRegions hBranch hInner .nil, rfl, ?_⟩
    simp [Prog.ids, Prog.inner, actOf]

theorem Unfolds.of_append (hBoth : g.Unfolds b (xs ++ ys) p) :
    ∃ p₁ p₂, p = p₁ ++ p₂ ∧ g.Unfolds b xs p₁ ∧ g.Unfolds b ys p₂ := by
  induction xs generalizing p with
  | nil => exact ⟨.nil, p, rfl, .nil, hBoth⟩
  | cons x xs ih =>
    obtain ⟨_, first, _, _, hTail, hFirst, hSplit, _⟩ := hBoth.uncons
    obtain ⟨p₁, p₂, hParts, hRest, hSecond⟩ := ih hTail
    refine ⟨first ++ p₁, p₂, hSplit.trans ?_, hFirst.append hRest, hSecond⟩
    rw [hParts, Prog.append_assoc]

/- The operations of a list are among those of its program. -/
theorem Unfolds.mem_ids (hUnfolds : g.Unfolds b xs p) (hMem : x ∈ xs) : x ∈ p.ids := by
  induction xs generalizing p with
  | nil => cases hMem
  | cons y xs ih =>
    obtain ⟨_, first, _, _, hTail, _, hSplit, hIds⟩ := hUnfolds.uncons
    rw [hSplit, Prog.ids_append, hIds, cons_append, mem_cons, mem_append]
    exact (mem_cons.mp hMem).imp_right fun hMem => .inr (ih hTail hMem)

/- The first statement of a program is the first operation of its list. -/
theorem Unfolds.head {a : Act} (hUnfolds : g.Unfolds b ys p) (hHead : p.head? = some a) :
    ∃ zs o, ys = a.op :: zs ∧ g.op a.op = .ok o ∧ a = g.actOf a.op o := by
  cases ys with
  | nil =>
    cases hUnfolds
    cases hHead
  | cons y zs =>
    obtain ⟨o, _, hOp, hFirst, _⟩ := hUnfolds.uncons
    cases hFirst.symm.trans hHead
    exact ⟨zs, o, rfl, hOp, rfl⟩

end Graph

------
-- Execution
------

namespace Exec

open Prog

variable {g : Graph}

theorem ops_cons (enter : RegionId → Exec Flow) (xs : List OpId) :
    ops g enter (x :: xs) = (tick x >>= fun _ => op g enter x) >>= fun flow =>
        match flow with
        | .done => ops g enter xs
        | flow => pure flow := by
  rw [bind_assoc]
  rfl

/- Entering a region with one block. -/
theorem follows_region {b : BlockId} (hHolds : g.Holds x r b blk)
    (hBlock : Follows k (ops g (region g (blockUpTo g k)) blk.ops) p.play) :
    Follows k (region g (blockUpTo g (k + 1)) r) p.play := by
  unfold region
  rw [hHolds.entryBlock]
  change Follows k (blockUpTo g (k + 1) b) p.play
  unfold blockUpTo
  rw [hHolds.block]
  change Follows k (ops g (region g (blockUpTo g k)) blk.ops >>= _) p.play
  apply Follows.congr (hBlock.seq (by exact Follows.done k))
  intro σ
  exact (andPlay_done (p.play σ)).symm

/- A loop runs its body for the values of its variable. -/
theorem follows_loop (hKind : o.kind = .loop lower upper step) (hVar : g.inductionVar x = .ok v)
    (hRegion : o.regions[0]? = some r) (hBody : Follows k (enter r) p.play) :
    Follows k (loop g enter x o lower upper step) fun σ =>
      orFail ((g.actOf x o).values? σ) σ fun is => playEach p.play v is σ := by
  have hBodies (i : Int) : Follows k (do
      assign v (.scalar (.index i))
      enter (← ask (entryAt o.regions 0)))
      fun σ => p.play (σ.count v i) := by
    have hEntry : entryAt o.regions 0 = .ok r := by
      unfold entryAt
      rw [hRegion]
    rw [hEntry]
    exact Follows.acts (acts_assign v _) fun _ => hBody
  unfold loop
  by_cases hStep : step ≤ 0
  · rw [if_pos hStep]
    apply Follows.congr (Follows.abort k (.trap (.nonPositiveStep x)) _)
    intro σ
    simp [Act.values?, Graph.actOf, hKind, hStep, orFail]
  · rw [if_neg hStep]
    rw [hVar]
    apply Follows.congr (Follows.read (Reads.ask o.lowerOperands) fun lowers =>
        Follows.read (reads_evalMap x lower lowers) fun lowers =>
          Follows.read (Reads.ask o.upperOperands) fun uppers =>
            Follows.read (reads_evalMap x upper uppers) fun uppers =>
              (show Follows k _ fun σ => orFail lowers.max? σ fun first =>
                  orFail uppers.min? σ fun last =>
                    playEach p.play v (Act.iterationsBetween first last step) σ by
                cases lowers.max? with
                | none => exact Follows.throw k _
                | some first =>
                  cases uppers.min? with
                  | none => exact Follows.throw k _
                  | some last => exact follows_iterate hBodies last step _ first))
    intro σ
    have hLowers : o.lowerOperands.toOption = lower.numInputs.toOption.bind fun n =>
          (entriesUpTo o.operands n).toOption := by
      simp only [Operation.lowerOperands, hKind]
      cases lower.numInputs <;> rfl
    have hUppers : o.upperOperands.toOption = lower.numInputs.toOption.bind fun n =>
          (entriesFrom o.operands n).toOption := by
      simp only [Operation.upperOperands, hKind]
      cases lower.numInputs <;> rfl
    simp only [Act.values?, Graph.actOf, hKind, hStep, if_false, hLowers, hUppers]
    cases lower.numInputs.toOption with
    | none => rfl
    | some n => simp only [Option.bind_some, Option.bind_assoc, orFail_bind, orFail_map]

theorem op_of_loop (hOp : g.op x = .ok o) (hKind : o.kind = .loop lower upper step) :
    op g enter x = loop g enter x o lower upper step := by
  unfold op
  rw [hOp]
  change (pure o : Exec Operation) >>= _ = _
  rw [pure_bind]
  simp only [hKind]

theorem op_of_conditional (hOp : g.op x = .ok o)
    (hKind : o.kind = .conditional set) : op g enter x = conditional enter x o set := by
  unfold op
  rw [hOp]
  change (pure o : Exec Operation) >>= _ = _
  rw [pure_bind]
  simp only [hKind]

/- A conditional runs one of its branches. -/
theorem follows_conditional {r : Bool → RegionId} {branch : Bool → Prog}
    (hKind : o.kind = .conditional set) (hRegions : o.regions = [r true, r false])
    (hBranch : ∀ taken, Follows k (enter (r taken)) (branch taken).play) :
    Follows k (conditional enter x o set) fun σ =>
      orFail ((g.actOf x o).holds? σ) σ fun taken => (branch taken).play σ := by
  unfold conditional
  rw [hRegions]
  apply Follows.congr (Follows.read (reads_evalSet x set o.operands) fun taken =>
      (show Follows k _ (branch taken).play by
        refine Follows.congr (r := fun σ => andPlay ((branch taken).play σ) fun σ => ([], .ok σ)) ?_
          fun σ => (andPlay_done _).symm
        cases taken <;> exact (hBranch _).seq (by exact Follows.done k)))
  intro σ
  simp only [Act.holds?, Graph.actOf, hKind]

/- Entering a branch, which does nothing if it has no block. -/
theorem follows_branch {b : BlockId} (hBranch : g.Branch x r b xs) (hUnfolds : g.Unfolds b xs p)
    (hOps : Follows k (ops g (region g (blockUpTo g k)) xs) p.play) :
    Follows k (region g (blockUpTo g (k + 1)) r) p.play := by
  cases hBranch with
  | block hHolds => exact follows_region hHolds hOps
  | empty hRegion =>
    have hEntry : g.entryBlock? r = .ok none := by
      unfold Graph.entryBlock?
      rw [hRegion]
      rfl
    cases hUnfolds
    unfold region
    rw [hEntry]
    exact Follows.done k

end Exec

namespace Graph

open Prog

variable {g : Graph} {b : BlockId}

/- Executing operations follows the program they unfold into. -/
theorem Unfolds.follows (hUnfolds : g.Unfolds b xs p) (fuel : Nat) :
    Exec.Follows fuel (Exec.ops g (Exec.region g (Exec.blockUpTo g fuel)) xs) p.play := by
  induction hUnfolds generalizing fuel with
  | nil => exact .done fuel
  | @act b x xs o p hOp hParent hKind hRest ih =>
    rw [Exec.ops_cons]
    have hStep (k : Nat) (_ : fuel = k + 1) :
        Exec.Follows k (Exec.op g (Exec.region g (Exec.blockUpTo g fuel)) x)
          fun σ => orFail ((g.actOf x o).step σ) σ fun σ' => ([], .ok σ') :=
      .of_acts (Exec.acts_op _ hOp hKind)
    exact (Exec.Follows.tick (g.actOf x o) hStep).seq (by exact ih fuel)
  | @loop b b' x xs o lower upper step r blk v body p hOp hParent hKind
      hRegions hHolds hArgs hClosed hBody hRest ihBody ih =>
    rw [Exec.ops_cons]
    have hStep (k : Nat) (hFuel : fuel = k + 1) :
        Exec.Follows k (Exec.op g (Exec.region g (Exec.blockUpTo g fuel)) x)
          fun σ => orFail ((g.actOf x o).values? σ) σ fun is =>
            playEach body.play v is σ := by
      subst hFuel
      rw [Exec.op_of_loop hOp hKind]
      exact Exec.follows_loop hKind (hHolds.inductionVar hOp hRegions hArgs)
        (by rw [hRegions]; rfl) (Exec.follows_region hHolds (ihBody k))
    exact (Exec.Follows.tick (g.actOf x o) hStep).seq (by exact ih fuel)
  | @cond b x xs o set r c ys branch p hOp hParent hKind hRegions hBranch hInner hRest ihInner ih =>
    rw [Exec.ops_cons]
    have hStep (k : Nat) (hFuel : fuel = k + 1) :
        Exec.Follows k (Exec.op g (Exec.region g (Exec.blockUpTo g fuel)) x)
          fun σ => orFail ((g.actOf x o).holds? σ) σ fun taken => (branch taken).play σ := by
      subst hFuel
      rw [Exec.op_of_conditional hOp hKind]
      exact Exec.follows_conditional hKind hRegions fun taken =>
        Exec.follows_branch (hBranch taken) (hInner taken) (ihInner taken k)
    exact (Exec.Follows.tick (g.actOf x o) hStep).seq (by exact ih fuel)

end Graph

------
-- Graphs that agree on a program
------

namespace Graph

variable {g g' : Graph} {b : BlockId}

/- What is directly in the regions of an operation is the same. -/
structure SameInside (g g' : Graph) (x : OpId) : Prop where
  ty {o : Operation} (hOp : g.op x = .ok o) : g'.resultTy? o = g.resultTy? o
  region {r : RegionId} {reg : Region} (hRegion : g.region r = .ok reg)
    (hParent : reg.parent = some x) : g'.region r = .ok reg
  block {b : BlockId} {blk : Block} {reg : Region} (hBlock : g.block b = .ok blk)
    (hRegion : g.region blk.parent = .ok reg) (hParent : reg.parent = some x) : g'.block b = .ok blk

/- An operation and what is directly in it are the same. -/
structure SameAt (g g' : Graph) (x : OpId) : Prop where
  op : g'.op x = g.op x
  inside : g.SameInside g' x

theorem SameInside.holds (hSame : g.SameInside g' x)
    (hHolds : g.Holds x r b blk) : g'.Holds x r b blk where
  region := hSame.region hHolds.region rfl
  block := hSame.block hHolds.block (hHolds.parent ▸ hHolds.region) rfl
  parent := hHolds.parent

theorem SameInside.actOf {q : Option BlockId} (hSame : g.SameInside g' x)
    (hOp : g.op x = .ok o) : g'.actOf x { o with parent := q } = g.actOf x o := by
  unfold Graph.actOf
  have hTy := hSame.ty hOp
  unfold resultTy? at hTy ⊢
  rw [hTy]

theorem Closed.congr {ops : List OpId} (hClosed : g.Closed ops)
    (hSame : ∀ x ∈ ops, g'.op x = g.op x) : g'.Closed ops := by
  obtain ⟨xs, y, o, rfl, hOp, hKind, hOthers⟩ := hClosed
  refine ⟨xs, y, o, rfl, ?_, hKind, ?_⟩
  · rwa [hSame y (by simp)]
  · intro x hMem
    rw [hSame x (by simp [hMem])]
    exact hOthers x hMem

theorem SameInside.branch (hSame : g.SameInside g' x) (hBranch : g.Branch x r b xs)
    (hOps : ∀ y ∈ xs, g'.op y = g.op y) : g'.Branch x r b xs := by
  cases hBranch with
  | empty hRegion => exact .empty (hSame.region hRegion rfl)
  | block hHolds hClosed => exact .block (hSame.holds hHolds) (hClosed.congr hOps)

/- Graphs that agree on the operations of a program both unfold into it. -/
theorem Unfolds.frame (hUnfolds : g.Unfolds b xs p)
    (hSame : ∀ x ∈ p.ids, g.SameAt g' x) : g'.Unfolds b xs p := by
  have hAct {x : OpId} {o : Operation} (hSame : g.SameAt g' x)
      (hOp : g.op x = .ok o) : g.actOf x o = g'.actOf x o :=
    (hSame.inside.actOf (q := o.parent) hOp).symm
  induction hUnfolds with
  | nil => exact .nil
  | @act b x xs o p hOp hParent hKind hRest ih =>
    have hHere := hSame x mem_cons_self
    rw [hAct hHere hOp]
    exact .act (hHere.op.trans hOp) hParent hKind
      (ih fun y hMem => hSame y (mem_cons_of_mem _ hMem))
  | @loop b b' x xs o lower upper step r blk v body p hOp hParent hKind
      hRegions hHolds hArgs hClosed hBody hRest ihBody ih =>
    have hHere := hSame x mem_cons_self
    have hInner (y : OpId) (hMem : y ∈ body.ids) : g.SameAt g' y :=
      hSame y (mem_cons_of_mem _ (mem_append_left _ hMem))
    rw [hAct hHere hOp]
    exact .loop (hHere.op.trans hOp) hParent hKind hRegions (hHere.inside.holds hHolds) hArgs
      (hClosed.congr fun y hMem => (hInner y (hBody.mem_ids hMem)).op)
      (ihBody hInner) (ih fun y hMem => hSame y
        (mem_cons_of_mem _ (mem_append_right _ hMem)))
  | @cond b x xs o set r c ys branch p hOp hParent hKind hRegions hBranch hInner hRest ihInner ih =>
    have hHere := hSame x mem_cons_self
    have hBelow (taken : Bool) (y : OpId) (hMem : y ∈ (branch taken).ids) : g.SameAt g' y :=
      hSame y (Prog.mem_ids_of_branch hMem)
    rw [hAct hHere hOp]
    exact .cond (hHere.op.trans hOp) hParent hKind hRegions
      (fun taken => hHere.inside.branch (hBranch taken) fun y hMem =>
        (hBelow taken y ((hInner taken).mem_ids hMem)).op)
      (fun taken => ihInner taken (hBelow taken)) (ih fun y hMem => hSame y
        (mem_cons_of_mem _ (mem_append_right _ hMem)))

end Graph

end AffineIR
