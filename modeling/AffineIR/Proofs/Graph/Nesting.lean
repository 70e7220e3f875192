import AffineIR.Function.Validation

/-
  The nesting of the operations of a valid function.

  Regions list blocks and blocks list operations; in a valid
  function all of them name what lists them.  So there is one
  way up from an operation, and it is inside at most one of the
  operations that have the same ones around them.

  Main result: `Graph.Inside.unique`
-/

namespace AffineIR

variable {ops : List OpId} {text : String} {parent : Option OpId}
  {nested : RegionId → OpId → Except Fault (List String)} {order : WalkOrder} {n : Nat}

------
-- Answers
------

namespace Answer

variable {ε α β : Type}

theorem ok_bind {a : α} {k : α → Except ε β} : (Except.ok a >>= k) = k a :=
  rfl

theorem error_bind {e : ε} {k : α → Except ε β} :
    (Except.error e >>= k) = .error e :=
  rfl

/- An answer that is asked for after another one. -/
theorem bind_eq_ok {x : Except ε α} {f : α → Except ε β}
    {b : β} : (x >>= f) = .ok b ↔ ∃ a, x = .ok a ∧ f a = .ok b := by
  cases x with
  | error e => simp [bind, Except.bind]
  | ok a => simp [bind, Except.bind]

theorem map_eq_ok {x : Except ε α} {f : α → β}
    {b : β} : f <$> x = .ok b ↔ ∃ a, x = .ok a ∧ f a = b := by
  cases x with
  | error e => simp [Functor.map, Except.map]
  | ok a => simp [Functor.map, Except.map]

theorem pure_eq_ok {a b : α} :
    (pure a : Except ε α) = .ok b ↔ a = b := by
  simp [pure, Except.pure]

theorem mapM_cons_eq_ok {f : α → Except ε β} {x : α} {xs : List α} {out : List β} :
    (x :: xs).mapM f = .ok out ↔ ∃ y ys, f x = .ok y ∧ xs.mapM f = .ok ys ∧ out = y :: ys := by
  simp only [List.mapM_cons, bind_eq_ok, pure_eq_ok, exists_and_left, eq_comm (a := out)]

theorem exists_of_mapM {f : α → Except ε β} {xs : List α} {ys : List β} {x : α}
    (hMap : xs.mapM f = .ok ys) (hMem : x ∈ xs) : ∃ y ∈ ys, f x = .ok y := by
  induction xs generalizing ys with
  | nil => cases hMem
  | cons x' xs ih =>
    obtain ⟨y, ys', hHead, hTail, rfl⟩ := mapM_cons_eq_ok.mp hMap
    grind

theorem exists_of_mem_mapM {f : α → Except ε β} {xs : List α} {ys : List β} {y : β}
    (hMap : xs.mapM f = .ok ys) (hMem : y ∈ ys) : ∃ x ∈ xs, f x = .ok y := by
  induction xs generalizing ys with
  | nil =>
    rw [List.mapM_nil, pure_eq_ok] at hMap
    subst hMap
    cases hMem
  | cons x xs ih =>
    obtain ⟨y', ys', hHead, hTail, rfl⟩ := mapM_cons_eq_ok.mp hMap
    grind

/- Lists of problems that are empty together are empty. -/
theorem nil_of_mapM {f : α → Except ε (List β)} {xs : List α} {ys : List (List β)} {x : α}
    (hMap : xs.mapM f = .ok ys) (hNil : ys.flatten = []) (hMem : x ∈ xs) : f x = .ok [] := by
  obtain ⟨y, hIn, hEq⟩ := exists_of_mapM hMap hMem
  rw [hEq, List.flatten_eq_nil_iff.mp hNil y hIn]

section Stateful

variable {σ : Type}

theorem run_bind_eq_ok {q : StateT σ (Except ε) α} {k : α → StateT σ (Except ε) β} {s s' : σ}
    {b : β} :
    (q >>= k).run s = .ok (b, s') ↔ ∃ a s₁, q.run s = .ok (a, s₁) ∧ (k a).run s₁ = .ok (b, s') := by
  rw [StateT.run_bind, bind_eq_ok, Prod.exists]

theorem run_pure_eq_ok {s s' : σ} {a b : α} :
    (pure a : StateT σ (Except ε) α).run s = .ok (b, s') ↔ a = b ∧ s = s' := by
  rw [StateT.run_pure, pure_eq_ok, Prod.mk.injEq]

theorem run_lift_eq_ok {e : Except ε α} {s s' : σ} {b : α} :
    (liftM e : StateT σ (Except ε) α).run s = .ok (b, s') ↔ e = .ok b ∧ s = s' := by
  rw [StateT.run_monadLift, bind_eq_ok]
  constructor
  · rintro ⟨a, hFirst, hSecond⟩
    cases hSecond
    exact ⟨hFirst, rfl⟩
  · rintro ⟨hFirst, rfl⟩
    exact ⟨b, hFirst, rfl⟩

theorem run_lift_bind {e : Except ε α} {k : α → StateT σ (Except ε) β} {a : α} {s : σ}
    (hAnswer : e = .ok a) : ((liftM e : StateT σ (Except ε) α) >>= k).run s = (k a).run s := by
  rw [hAnswer]
  rfl

theorem run_lift_bind_eq_ok {e : Except ε α} {k : α → StateT σ (Except ε) β} {s s' : σ} {b : β} :
    ((liftM e : StateT σ (Except ε) α) >>= k).run s = .ok (b, s') ↔
      ∃ a, e = .ok a ∧ (k a).run s = .ok (b, s') := by
  constructor
  · intro hRun
    obtain ⟨a, _, hLift, hRest⟩ := run_bind_eq_ok.mp hRun
    obtain ⟨hAnswer, rfl⟩ := run_lift_eq_ok.mp hLift
    exact ⟨a, hAnswer, hRest⟩
  · rintro ⟨a, hAnswer, hRest⟩
    exact (run_lift_bind hAnswer).trans hRest

/- What each step keeps is kept by all of them. -/
theorem forM_keeps
    {p : σ → Prop} {e : α → StateT σ (Except ε) Unit} {xs : List α} {s s' : σ} {u : Unit}
    (hEach : ∀ {x s s' u}, x ∈ xs → (e x).run s = .ok (u, s') → p s → p s')
    (hRun : (xs.forM e).run s = .ok (u, s')) (hStart : p s) : p s' := by
  induction xs generalizing s with
  | nil =>
    obtain ⟨-, rfl⟩ := run_pure_eq_ok.mp hRun
    exact hStart
  | cons x xs ih =>
    obtain ⟨_, s₁, hFirst, hRun⟩ := run_bind_eq_ok.mp hRun
    exact ih (fun hMem => hEach (List.mem_cons_of_mem x hMem)) hRun
      (hEach List.mem_cons_self hFirst hStart)

end Stateful

end Answer

open Answer List

namespace Validation

theorem problemIf_eq_nil {bad : Bool} : problemIf bad text = [] ↔ bad = false := by
  unfold problemIf
  cases bad <;> simp

theorem problemUnless_eq_nil {good : Bool} :
    problemUnless good text = [] ↔ good = true := by
  unfold problemUnless
  cases good <;> simp

end Validation

------
-- Links
------

namespace Graph

/- A region lists a block, and the block lists an operation. -/
structure Lists (g : Graph) (r : RegionId) (b : BlockId) (x : OpId) : Prop where
  region : ∃ reg, g.region r = .ok reg ∧ b ∈ reg.blocks
  block : ∃ blk, g.block b = .ok blk ∧ x ∈ blk.ops

/- An operation is listed in a region of another one. -/
def Holder (g : Graph) (z x : OpId) : Prop :=
  ∃ o r b, g.op z = .ok o ∧ r ∈ o.regions ∧ g.Lists r b x

/- The operations of a body, at all depths. -/
inductive Reached (g : Graph) (body : RegionId) : OpId → Prop
  | top {b : BlockId} {x : OpId} (hLists : g.Lists body b x) :
      Reached g body x
  | child {z x : OpId} (hOuter : Reached g body z) (hHolder : g.Holder z x) :
      Reached g body x

/- An operation, and what is nested in it. -/
inductive Inside (g : Graph) (x : OpId) : OpId → Prop
  | self : Inside g x x
  | child {z y : OpId} (hOuter : Inside g x z) (hHolder : g.Holder z y) :
      Inside g x y

/- What a region lists names what lists it. -/
structure Linked (g : Graph) (r : RegionId) (parent : Option OpId) : Prop where
  region : ∃ reg, g.region r = .ok reg ∧ reg.parent = parent
  block {b : BlockId} {reg : Region} (hRegion : g.region r = .ok reg) (hMem : b ∈ reg.blocks) :
    ∃ blk, g.block b = .ok blk ∧ blk.parent = r
  op {b : BlockId} {x : OpId} (hLists : g.Lists r b x) : ∃ o, g.op x = .ok o ∧ o.parent = some b

/- The regions of an operation are linked to it. -/
def LinkedIn (g : Graph) (z : OpId) : Prop :=
  ∀ {o r}, g.op z = .ok o → r ∈ o.regions → g.Linked r (some z)

variable {g : Graph} {body r : RegionId} {b : BlockId} {x y z : OpId}

/- The operation around one that a linked region lists. -/
theorem Linked.parentOp? (hLinked : g.Linked r parent)
    (hLists : g.Lists r b x) : g.parentOp? x = .ok parent := by
  obtain ⟨o, hOp, hPlace⟩ := hLinked.op hLists
  obtain ⟨reg, hRegion, hMem⟩ := hLists.region
  obtain ⟨blk, hBlock, hParent⟩ := hLinked.block hRegion hMem
  obtain ⟨reg', hRegion', hHolder⟩ := hLinked.region
  cases hRegion.symm.trans hRegion'
  unfold Graph.parentOp? Graph.parentRegion Graph.parentBlock
  simp only [hOp, hPlace, hBlock, hParent, hRegion, hHolder, bind, Except.bind, pure, Except.pure]

theorem Holder.parentOp? (hHolder : g.Holder z x)
    (hLinked : g.LinkedIn z) : g.parentOp? x = .ok (some z) := by
  obtain ⟨o, r, b, hOp, hMem, hLists⟩ := hHolder
  exact (hLinked hOp hMem).parentOp? hLists

theorem Inside.trans (hFirst : g.Inside x y) (hSecond : g.Inside y z) : g.Inside x z := by
  induction hSecond with
  | self => exact hFirst
  | child _ hHolder ih => exact .child ih hHolder

theorem Inside.reached (hInside : g.Inside x y)
    (hReached : g.Reached body x) : g.Reached body y := by
  induction hInside with
  | self => exact hReached
  | child _ hHolder ih => exact .child ih hHolder

------
-- Rising through the nesting
------

variable {ls ls' outer : List OpId}

/- An operation and all those around it, from the inside out. -/
inductive Rises (g : Graph) : OpId → List OpId → Prop
  | top {x : OpId} (hParent : g.parentOp? x = .ok none) : Rises g x [x]
  | child {x z : OpId} {ls : List OpId} (hParent : g.parentOp? x = .ok (some z))
      (hOuter : Rises g z ls) : Rises g x (x :: ls)

theorem Rises.unique (hFirst : g.Rises x ls) (hSecond : g.Rises x ls') : ls = ls' := by
  induction hFirst generalizing ls' with
  | top hParent =>
    cases hSecond with
    | top => rfl
    | child hParent' => cases hParent.symm.trans hParent'
  | child hParent _ ih =>
    cases hSecond with
    | top hParent' => cases hParent.symm.trans hParent'
    | child hParent' hOuter =>
      cases hParent.symm.trans hParent'
      rw [ih hOuter]

/- What is inside an operation rises to it, and then with it. -/
theorem Inside.rises (hInside : g.Inside x y) (hLinked : ∀ z, g.Inside x z → g.LinkedIn z)
    (hRises : g.Rises x ls) : ∃ inner, g.Rises y (inner ++ ls) := by
  induction hInside with
  | self => exact ⟨[], hRises⟩
  | @child z y hOuter hHolder ih =>
    obtain ⟨inner, hInner⟩ := ih
    exact ⟨y :: inner, .child (hHolder.parentOp? (hLinked z hOuter)) hInner⟩

/- Operations with the same ones around them have nothing in common. -/
theorem Inside.unique {x' : OpId} (hInside : g.Inside x y) (hInside' : g.Inside x' y)
    (hLinked : ∀ z, g.Inside x z → g.LinkedIn z) (hLinked' : ∀ z, g.Inside x' z → g.LinkedIn z)
    (hRises : g.Rises x (x :: outer)) (hRises' : g.Rises x' (x' :: outer)) : x = x' := by
  obtain ⟨inner, hUp⟩ := hInside.rises hLinked hRises
  obtain ⟨inner', hUp'⟩ := hInside'.rises hLinked' hRises'
  exact (List.cons.inj (append_inj' (hUp.unique hUp') rfl).2).1

end Graph

namespace Validation

/- What the check of one region says. -/
structure Sound (g : Graph) (depth : Nat) (r : RegionId) (parent : Option OpId) : Prop where
  linked : g.Linked r parent
  /- Terminators are last. -/
  last {b : BlockId} {reg : Region} {blk : Block} {i : Nat} {x : OpId}
    {o : Operation}
    (hRegion : g.region r = .ok reg) (hMem : b ∈ reg.blocks)
    (hBlock : g.block b = .ok blk) (hAt : blk.ops[i]? = some x)
    (hOp : g.op x = .ok o) (hTerminator : o.kind.isTerminator = true) :
    i + 1 = blk.ops.length
  /- Blocks end as what holds the region wants it. -/
  ends {b : BlockId} {reg : Region} {blk : Block}
    (hRegion : g.region r = .ok reg) (hMem : b ∈ reg.blocks) (hBlock : g.block b = .ok blk) :
    ∃ kind, parent.mapM g.kind = .ok kind ∧ endProblems g kind b blk.ops = .ok []
  /- Branches stay in the region. -/
  stays {b : BlockId} {x : OpId} {o : Operation} {s : BlockId}
    (hLists : g.Lists r b x) (hOp : g.op x = .ok o) (hMem : s ∈ o.successors) :
    ∃ blk, g.block s = .ok blk ∧ blk.parent = r
  /- Regions inside are checked too. -/
  inner {b : BlockId} {x : OpId} {o : Operation} {r' : RegionId}
    (hLists : g.Lists r b x) (hOp : g.op x = .ok o) (hMem : r' ∈ o.regions) :
    regionProblemsUpTo g depth r' (some x) = .ok []

variable {g : Graph} {r : RegionId} {b : BlockId} {x : OpId}

/- What the check of one operation says. -/
theorem of_placeProblems {isLast : Bool} (hNone : placeProblems g nested r b isLast x = .ok []) :
    ∃ o, g.op x = .ok o ∧ o.parent = some b ∧ (o.kind.isTerminator = true → isLast = true) ∧
      (∀ s ∈ o.successors, ∃ blk, g.block s = .ok blk ∧ blk.parent = r) ∧
      ∀ r' ∈ o.regions, nested r' x = .ok [] := by
  unfold placeProblems at hNone
  obtain ⟨o, hOp, hNone⟩ := bind_eq_ok.mp hNone
  obtain ⟨leaves, hLeaves, hNone⟩ := bind_eq_ok.mp hNone
  obtain ⟨inner, hInner, hNone⟩ := bind_eq_ok.mp hNone
  rw [pure_eq_ok] at hNone
  simp only [append_eq_nil_iff, problemIf_eq_nil] at hNone
  obtain ⟨⟨⟨hLink, hOrder⟩, hStay⟩, hNested⟩ := hNone
  refine ⟨o, hOp, by simpa using hLink, ?_, ?_, ?_⟩
  · intro hTerminator
    simpa [hTerminator] using hOrder
  · intro s hMem
    have hNil := nil_of_mapM hLeaves hStay hMem
    obtain ⟨blk, hBlock, hNil⟩ := bind_eq_ok.mp hNil
    rw [pure_eq_ok, problemIf_eq_nil] at hNil
    exact ⟨blk, hBlock, by simpa using hNil⟩
  · intro r' hMem
    have hNil := nil_of_mapM hInner hNested hMem
    exact hNil

/- What the check of one block says. -/
theorem of_blockProblems {parent : Option Kind}
    (hNone : blockProblems g nested r parent b = .ok []) :
    ∃ blk, g.block b = .ok blk ∧ blk.parent = r ∧
      endProblems g parent b blk.ops = .ok [] ∧
      ∀ i x, blk.ops[i]? = some x →
        placeProblems g nested r b (i + 1 == blk.ops.length) x = .ok [] := by
  unfold blockProblems at hNone
  obtain ⟨blk, hBlock, hNone⟩ := bind_eq_ok.mp hNone
  obtain ⟨inner, hInner, hNone⟩ := bind_eq_ok.mp hNone
  obtain ⟨ends, hEnds, hNone⟩ := bind_eq_ok.mp hNone
  rw [pure_eq_ok] at hNone
  simp only [append_eq_nil_iff, problemIf_eq_nil] at hNone
  obtain ⟨⟨hLink, hPlaces⟩, rfl⟩ := hNone
  refine ⟨blk, hBlock, by simpa using hLink, hEnds, ?_⟩
  intro i x hAt
  have hMem : (x, i) ∈ blk.ops.zipIdx := by
    rwa [mem_zipIdx_iff_getElem?]
  have hNil := nil_of_mapM hInner hPlaces hMem
  exact hNil

theorem sound_of_regionProblems {depth : Nat}
    (hNone : regionProblemsUpTo g (depth + 1) r parent = .ok []) : Sound g depth r parent := by
  unfold regionProblemsUpTo at hNone
  obtain ⟨reg, hRegion, hNone⟩ := bind_eq_ok.mp hNone
  obtain ⟨kind, hKind, hNone⟩ := bind_eq_ok.mp hNone
  obtain ⟨inner, hInner, hNone⟩ := bind_eq_ok.mp hNone
  rw [pure_eq_ok] at hNone
  simp only [append_eq_nil_iff, problemIf_eq_nil] at hNone
  obtain ⟨hLink, hBlocks⟩ := hNone
  have hBlock {b : BlockId} {reg' : Region} (hRegion' : g.region r = .ok reg')
      (hMem : b ∈ reg'.blocks) := by
    cases hRegion.symm.trans hRegion'
    exact of_blockProblems (nil_of_mapM hInner hBlocks hMem)
  have hPlace {b : BlockId} {x : OpId} (hLists : g.Lists r b x) :
      ∃ isLast, placeProblems g (fun region op =>
        regionProblemsUpTo g depth region (some op)) r b isLast x = .ok [] := by
    obtain ⟨reg', hRegion', hMem⟩ := hLists.region
    obtain ⟨blk', hBlock', hIn⟩ := hLists.block
    obtain ⟨blk, hEq, _, _, hPlaces⟩ := hBlock hRegion' hMem
    cases hBlock'.symm.trans hEq
    obtain ⟨i, hAt⟩ := List.getElem?_of_mem hIn
    exact ⟨_, hPlaces i x hAt⟩
  refine ⟨⟨⟨reg, hRegion, by simpa using hLink⟩, ?_, ?_⟩, ?_, ?_, ?_, ?_⟩
  · intro b reg' hRegion' hMem
    obtain ⟨blk, hEq, hParent, _⟩ := hBlock hRegion' hMem
    exact ⟨blk, hEq, hParent⟩
  · intro b x hLists
    obtain ⟨isLast, hNil⟩ := hPlace hLists
    obtain ⟨o, hOp, hParent, _⟩ := of_placeProblems hNil
    exact ⟨o, hOp, hParent⟩
  · intro b reg' blk' i x o hRegion' hMem hBlock' hAt hOp hTerminator
    obtain ⟨blk, hEq, _, _, hPlaces⟩ := hBlock hRegion' hMem
    cases hBlock'.symm.trans hEq
    obtain ⟨o', hOp', _, hLast, _⟩ := of_placeProblems (hPlaces i x hAt)
    cases hOp.symm.trans hOp'
    simpa using hLast hTerminator
  · intro b reg' blk' hRegion' hMem hBlock'
    obtain ⟨blk, hEq, _, hEnds, _⟩ := hBlock hRegion' hMem
    cases hBlock'.symm.trans hEq
    exact ⟨kind, hKind, hEnds⟩
  · intro b x o s hLists hOp hMem
    obtain ⟨isLast, hNil⟩ := hPlace hLists
    obtain ⟨o', hOp', _, _, hStays, _⟩ := of_placeProblems hNil
    cases hOp.symm.trans hOp'
    exact hStays s hMem
  · intro b x o r' hLists hOp hMem
    obtain ⟨isLast, hNil⟩ := hPlace hLists
    obtain ⟨o', hOp', _, _, _, hInside⟩ := of_placeProblems hNil
    cases hOp.symm.trans hOp'
    exact hInside r' hMem

end Validation

namespace Graph

variable {g : Graph} {body r : RegionId} {b : BlockId} {x y z : OpId}

theorem mem_regionOps_iff (hOps : g.regionOps r = .ok ops) : x ∈ ops ↔ ∃ b, g.Lists r b x := by
  unfold regionOps at hOps
  obtain ⟨reg, hRegion, hOps⟩ := bind_eq_ok.mp hOps
  obtain ⟨blocks, hBlocks, hOps⟩ := bind_eq_ok.mp hOps
  rw [pure_eq_ok] at hOps
  subst hOps
  rw [mem_flatMap]
  constructor
  · intro ⟨blk, hMem, hIn⟩
    obtain ⟨b, hListed, hBlock⟩ := Answer.exists_of_mem_mapM hBlocks hMem
    exact ⟨b, ⟨reg, hRegion, hListed⟩, blk, hBlock, hIn⟩
  · intro ⟨b, ⟨reg', hRegion', hListed⟩, blk, hBlock, hIn⟩
    cases hRegion.symm.trans hRegion'
    obtain ⟨blk', hMem, hBlock'⟩ := exists_of_mapM hBlocks hListed
    cases hBlock.symm.trans hBlock'
    exact ⟨blk, hMem, hIn⟩

theorem mem_children_iff (hOps : g.children z = .ok ops) : x ∈ ops ↔ g.Holder z x := by
  unfold children at hOps
  obtain ⟨o, hOp, hOps⟩ := bind_eq_ok.mp hOps
  obtain ⟨lists, hLists, hOps⟩ := bind_eq_ok.mp hOps
  rw [pure_eq_ok] at hOps
  subst hOps
  rw [mem_flatten]
  constructor
  · intro ⟨list, hMem, hIn⟩
    obtain ⟨r, hRegion, hList⟩ := Answer.exists_of_mem_mapM hLists hMem
    obtain ⟨b, hListed⟩ := (mem_regionOps_iff hList).mp hIn
    exact ⟨o, r, b, hOp, hRegion, hListed⟩
  · intro ⟨o', r, b, hOp', hRegion, hListed⟩
    cases hOp.symm.trans hOp'
    obtain ⟨list, hMem, hList⟩ := exists_of_mapM hLists hRegion
    exact ⟨list, hMem, (mem_regionOps_iff hList).mpr ⟨b, hListed⟩⟩

/- A walk visits an operation and exactly what is inside it. -/
theorem mem_walkFrom_iff {depth : Nat}
    (hWalk : g.walkFrom order depth x = .ok ops) : y ∈ ops ↔ g.Inside x y := by
  induction depth generalizing x y ops with
  | zero => cases hWalk
  | succ depth ih =>
    unfold walkFrom at hWalk
    obtain ⟨below, hChildren, hWalk⟩ := bind_eq_ok.mp hWalk
    obtain ⟨inner, hInner, hWalk⟩ := bind_eq_ok.mp hWalk
    rw [pure_eq_ok] at hWalk
    have hMem : y ∈ ops ↔ y = x ∨ y ∈ inner.flatten := by
      subst hWalk
      cases order <;> simp [or_comm]
    rw [hMem]
    constructor
    · intro hCases
      rcases hCases with rfl | hIn
      · exact .self
      · obtain ⟨list, hList, hIn⟩ := mem_flatten.mp hIn
        obtain ⟨z, hBelow, hWalked⟩ := Answer.exists_of_mem_mapM hInner hList
        have hFirst : g.Inside x z := .child .self ((mem_children_iff hChildren).mp hBelow)
        exact hFirst.trans ((ih hWalked).mp hIn)
    · intro hInside
      clear hMem
      induction hInside with
      | self => exact .inl rfl
      | @child z y hOuter hHolder ihOuter =>
        refine .inr (mem_flatten.mpr ?_)
        rcases ihOuter with rfl | hIn
        · have hBelow := (mem_children_iff hChildren).mpr hHolder
          obtain ⟨list, hList, hWalked⟩ := exists_of_mapM hInner hBelow
          exact ⟨list, hList, (ih hWalked).mpr .self⟩
        · obtain ⟨list, hList, hIn⟩ := mem_flatten.mp hIn
          obtain ⟨w, _, hWalked⟩ := Answer.exists_of_mem_mapM hInner hList
          exact ⟨list, hList, (ih hWalked).mpr (.child ((ih hWalked).mp hIn) hHolder)⟩

theorem mem_walkRegion_of_reached (hWalk : g.walkRegion order body = .ok ops)
    (hReached : g.Reached body x) : x ∈ ops := by
  unfold walkRegion at hWalk
  obtain ⟨top, hTop, hWalk⟩ := bind_eq_ok.mp hWalk
  obtain ⟨lists, hLists, hWalk⟩ := bind_eq_ok.mp hWalk
  rw [pure_eq_ok] at hWalk
  subst hWalk
  rw [mem_flatten]
  induction hReached with
  | top hListed =>
    have hMem := (mem_regionOps_iff hTop).mpr ⟨_, hListed⟩
    obtain ⟨list, hList, hWalked⟩ := exists_of_mapM hLists hMem
    exact ⟨list, hList, (mem_walkFrom_iff hWalked).mpr .self⟩
  | child _ hHolder ih =>
    obtain ⟨list, hList, hIn⟩ := ih
    obtain ⟨w, _, hWalked⟩ := Answer.exists_of_mem_mapM hLists hList
    exact ⟨list, hList, (mem_walkFrom_iff hWalked).mpr
      (.child ((mem_walkFrom_iff hWalked).mp hIn) hHolder)⟩

end Graph

------
-- Valid functions
------

namespace Function

variable {f : Function} {x : OpId}

section

variable (hValid : f.problems = .ok [])

include hValid

/- A function without problems has none in its parts. -/
theorem checks_of_problems :
    Validation.regionProblems f.graph f.body = .ok [] ∧
      ∃ ops, f.graph.walkRegion .pre f.body = .ok ops ∧
        ∀ x ∈ ops, Validation.opProblems f x = .ok [] := by
  unfold problems at hValid
  obtain ⟨structural, hStructure, hFound⟩ := bind_eq_ok.mp hValid
  cases structural with
  | nil =>
    obtain ⟨ops, hOps, hFound⟩ := bind_eq_ok.mp hFound
    obtain ⟨lists, hLists, hFound⟩ := bind_eq_ok.mp hFound
    obtain ⟨found, hSame, hNone⟩ := bind_eq_ok.mp hFound
    rw [pure_eq_ok] at hSame hNone
    rw [map_eq_nil_iff] at hNone
    refine ⟨hStructure, ops, hOps, ?_⟩
    intro x hMem
    exact nil_of_mapM hLists (hSame.trans hNone) hMem
  | cons problem rest =>
    obtain ⟨found, hSame, hNone⟩ := bind_eq_ok.mp hFound
    rw [pure_eq_ok] at hSame hNone
    subst hSame
    cases hNone

theorem sound_body : Validation.Sound f.graph f.graph.ops.slots.size f.body none :=
  Validation.sound_of_regionProblems (checks_of_problems hValid).1

theorem sound_of_reached (hReached : f.graph.Reached f.body x) :
    ∃ depth, ∀ {o r}, f.graph.op x = .ok o → r ∈ o.regions →
      Validation.Sound f.graph depth r (some x) := by
  have hInner : ∃ depth, ∀ {o r}, f.graph.op x = .ok o → r ∈ o.regions →
      Validation.regionProblemsUpTo f.graph depth r (some x) = .ok [] := by
    induction hReached with
    | top hLists => exact ⟨_, fun hOp hMem => (sound_body hValid).inner hLists hOp hMem⟩
    | child _ hHolder ih =>
      obtain ⟨depth, hInner⟩ := ih
      obtain ⟨o, r, b, hOp, hMem, hLists⟩ := hHolder
      have hNone := hInner hOp hMem
      cases depth with
      | zero => cases hNone
      | succ depth =>
        have hSound := Validation.sound_of_regionProblems hNone
        exact ⟨depth, fun hOp hMem => hSound.inner hLists hOp hMem⟩
  obtain ⟨depth, hInner⟩ := hInner
  cases depth with
  | zero =>
    refine ⟨0, fun hOp hMem => ?_⟩
    have hNone := hInner hOp hMem
    cases hNone
  | succ depth =>
    exact ⟨depth, fun hOp hMem => Validation.sound_of_regionProblems (hInner hOp hMem)⟩

theorem linkedIn_of_reached (hReached : f.graph.Reached f.body x) : f.graph.LinkedIn x := by
  obtain ⟨depth, hSound⟩ := sound_of_reached hValid hReached
  intro o r hOp hMem
  exact (hSound hOp hMem).linked

theorem checked_of_reached
    (hReached : f.graph.Reached f.body x) : Validation.opProblems f x = .ok [] := by
  obtain ⟨ops, hWalk, hChecked⟩ := (checks_of_problems hValid).2
  exact hChecked x (Graph.mem_walkRegion_of_reached hWalk hReached)

end

end Function

end AffineIR
