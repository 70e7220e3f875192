import AffineIR.Proofs.Graph.Removal

/-
  Graphs that grow from the empty one.

  A graph is changed by mutations only, one after another.
  What is nested in an operation that is erased must not be
  used elsewhere; all other mutations are free, even a move of
  an operation into itself.  Every graph that mutations give is
  intact: uses are recorded where the operands are, values
  are defined where they say, and what is placed is listed once,
  at its place.

  Main result: `Graph.intact_of_grown`
-/

namespace AffineIR

open Answer Option Arena Edit

variable {x : OpId} {v : ValueId} {i : Nat} {b : BlockId}

/- A single change of a graph. -/
inductive Mutation where
  | createRegion (holder : Option OpId)
  | createBlock (region : RegionId) (args : List Ty)
  | createOp (kind : Kind) (operands : List ValueId) (results : List Ty) (successors : List BlockId)
  | append (block : BlockId) (op : OpId)
  | prepend (block : BlockId) (op : OpId)
  | insertBefore (anchor op : OpId)
  | insertAfter (anchor op : OpId)
  | moveBefore (op anchor : OpId)
  | moveAfter (op anchor : OpId)
  | moveToEnd (op : OpId) (block : BlockId)
  | setOperand (op : OpId) (index : Nat) (value : ValueId)
  | replaceUses (source target : ValueId)
  | erase (op : OpId)

namespace Mutation

def apply : Mutation → Edit Unit
  | createRegion holder => do
      let _ ← Edit.createRegion holder
      return ()
  | createBlock region args => do
      let _ ← Edit.createBlock region args
      return ()
  | createOp kind operands results successors => do
      let _ ← Edit.createOp kind operands results successors
      return ()
  | append block op => Edit.append block op
  | prepend block op => Edit.prepend block op
  | insertBefore anchor op => Edit.insertBefore anchor op
  | insertAfter anchor op => Edit.insertAfter anchor op
  | moveBefore op anchor => Edit.moveBefore op anchor
  | moveAfter op anchor => Edit.moveAfter op anchor
  | moveToEnd op block => Edit.moveToEnd op block
  | setOperand op index value => Edit.setOperand op index value
  | replaceUses source target => Edit.replaceUses source target
  | erase op => Edit.erase op

/- What is nested in an erased operation is not used elsewhere. -/
def Allowed (g : Graph) : Mutation → Prop
  | erase op => g.Sealed op
  | _ => True

/- Nothing restricts a mutation that erases nothing. -/
def isFree : Mutation → Bool
  | erase _ => false
  | _ => true

end Mutation

/- The graphs that mutations make out of the empty one. -/
inductive Graph.Grown : Graph → Prop
  | empty : Grown {}
  | step {g g' : Graph} (m : Mutation) (hGrown : Grown g)
      (hAllowed : m.Allowed g) (hRun : m.apply.run g = .ok ((), g')) : Grown g'

namespace Graph

variable {g g' : Graph}

theorem Coherent.empty : ({} : Graph).Coherent := by
  have hOps : ∀ x, ({} : Graph).ops.get? x = none := fun _ => rfl
  have hBlocks : ∀ b, ({} : Graph).blocks.get? b = none := fun _ => rfl
  have hRegions : ∀ r, ({} : Graph).regions.get? r = none := fun _ => rfl
  have hValues : ∀ v, ({} : Graph).values.get? v = none := fun _ => rfl
  refine ⟨⟨⟨?_, ?_⟩, ?_⟩, ⟨?_, ?_⟩, ⟨?_, ?_⟩, ⟨?_, ?_⟩⟩
  case refine_3 =>
    intro v d
    cases d <;> simp [definedBy, Arena.view, hOps, hBlocks, hValues]
  all_goals simp [operandAt, blockOf, holderOf, Arena.view, hOps, hBlocks, hRegions, hValues]

/- Each mutation keeps the links of a graph. -/
theorem Coherent.apply {m : Mutation} (hCoherent : g.Coherent) (hAllowed : m.Allowed g)
    (hRun : m.apply.run g = .ok ((), g')) : g'.Coherent := by
  cases m with
  | createRegion holder =>
    obtain ⟨_, _, hCreate, hRun⟩ := run_bind_eq_ok.mp hRun
    obtain ⟨-, rfl⟩ := run_pure_eq_ok.mp hRun
    exact coherent_createRegion hCreate hCoherent
  | createBlock region args =>
    obtain ⟨_, _, hCreate, hRun⟩ := run_bind_eq_ok.mp hRun
    obtain ⟨-, rfl⟩ := run_pure_eq_ok.mp hRun
    exact coherent_createBlock hCreate hCoherent
  | createOp kind operands results successors =>
    obtain ⟨_, _, hCreate, hRun⟩ := run_bind_eq_ok.mp hRun
    obtain ⟨-, rfl⟩ := run_pure_eq_ok.mp hRun
    exact coherent_createOp hCreate hCoherent
  | append block op => exact coherent_append hRun hCoherent
  | prepend block op => exact coherent_prepend hRun hCoherent
  | insertBefore anchor op => exact coherent_insertBefore hRun hCoherent
  | insertAfter anchor op => exact coherent_insertAfter hRun hCoherent
  | moveBefore op anchor =>
    obtain ⟨_, _, hDetach, hInsert⟩ := run_bind_eq_ok.mp hRun
    exact coherent_insertBefore hInsert (coherent_detach hDetach hCoherent)
  | moveAfter op anchor =>
    obtain ⟨_, _, hDetach, hInsert⟩ := run_bind_eq_ok.mp hRun
    exact coherent_insertAfter hInsert (coherent_detach hDetach hCoherent)
  | moveToEnd op block =>
    obtain ⟨_, _, hDetach, hAppend⟩ := run_bind_eq_ok.mp hRun
    exact coherent_append hAppend (coherent_detach hDetach hCoherent)
  | setOperand op index value => exact coherent_setOperand hRun hCoherent
  | replaceUses source target => exact coherent_replaceUses hRun hCoherent
  | erase op => exact coherent_erase hRun hAllowed hCoherent

/- Mutations that nothing restricts, one after another. -/
theorem Grown.applyAll {ms : List Mutation} {u : Unit} (hGrown : g.Grown)
    (hFree : ms.all Mutation.isFree = true)
    (hRun : (ms.forM Mutation.apply).run g = .ok (u, g')) : g'.Grown := by
  refine Answer.forM_keeps (fun {m g _ _} hMem hRun hGrown => hGrown.step m ?_ hRun) hRun hGrown
  have hHere := List.all_eq_true.mp hFree m hMem
  cases m with
  | erase => cases hHere
  | _ => trivial

theorem Grown.coherent (hGrown : g.Grown) : g.Coherent := by
  induction hGrown with
  | empty => exact .empty
  | step m _ hAllowed hRun ih => exact ih.apply hAllowed hRun

------
-- Intact graphs
------

/- Both ends of every reference of a graph agree. -/
structure Intact (g : Graph) : Prop where
  /- The value of an operand is live and lists the operand once. -/
  operand {x : OpId} {o : Operation} {i : Nat} {v : ValueId}
    (hOp : g.op x = .ok o) (hAt : o.operands[i]? = some v) :
    ∃ val, g.value v = .ok val ∧ val.uses.count ⟨x, i⟩ = 1
  /- A use that a value lists is an operand of a live operation. -/
  use {v : ValueId} {val : Value} {d : Use} (hValue : g.value v = .ok val) (hUse : d ∈ val.uses) :
    ∃ o, g.op d.op = .ok o ∧ o.operands[d.operand]? = some v
  /- A value stands where it says that it is defined. -/
  definer {v : ValueId} {val : Value} (hValue : g.value v = .ok val) :
    match val.definer with
    | .result x i => ∃ o, g.op x = .ok o ∧ o.results[i]? = some v
    | .argument b i => ∃ blk, g.block b = .ok blk ∧ blk.args[i]? = some v
  result {x : OpId} {o : Operation} {i : Nat} {v : ValueId}
    (hOp : g.op x = .ok o) (hAt : o.results[i]? = some v) :
    ∃ val, g.value v = .ok val ∧ val.definer = .result x i
  argument {b : BlockId} {blk : Block} {i : Nat} {v : ValueId}
    (hBlock : g.block b = .ok blk) (hAt : blk.args[i]? = some v) :
    ∃ val, g.value v = .ok val ∧ val.definer = .argument b i
  /- An operation stands in the block that it names, and only there. -/
  place {x : OpId} {o : Operation} {b : BlockId} (hOp : g.op x = .ok o) :
    o.parent = some b ↔ (∃ blk, g.block b = .ok blk ∧ blk.ops.count x = 1) ∧
        ∀ c blk, g.block c = .ok blk → x ∈ blk.ops → c = b
  placed {x : OpId} {b : BlockId} {blk : Block}
    (hBlock : g.block b = .ok blk) (hMem : x ∈ blk.ops) :
    ∃ o, g.op x = .ok o ∧ o.parent = some b
  /- A block is listed once, by the region that it names. -/
  block {b : BlockId} {blk : Block} (hBlock : g.block b = .ok blk) :
    ∃ reg, g.region blk.parent = .ok reg ∧ reg.blocks.count b = 1
  listed {r : RegionId} {reg : Region} {b : BlockId}
    (hRegion : g.region r = .ok reg) (hMem : b ∈ reg.blocks) :
    ∃ blk, g.block b = .ok blk ∧ blk.parent = r
  /- A region is listed once, by the operation that it names. -/
  region {r : RegionId} {reg : Region} {x : OpId}
    (hRegion : g.region r = .ok reg) (hParent : reg.parent = some x) :
    ∃ o, g.op x = .ok o ∧ o.regions.count r = 1
  held {x : OpId} {o : Operation} {r : RegionId} (hOp : g.op x = .ok o) (hMem : r ∈ o.regions) :
    ∃ reg, g.region r = .ok reg ∧ reg.parent = some x

theorem operandAt_eq_some {d : Use} :
    g.operandAt d = some v ↔ ∃ o, g.op d.op = .ok o ∧ o.operands[d.operand]? = some v := by
  simp [operandAt, bind_eq_some_iff, view_eq_some, op, get_eq_ok_iff]

theorem definedBy_result_eq_some :
    g.definedBy (.result x i) = some v ↔ ∃ o, g.op x = .ok o ∧ o.results[i]? = some v := by
  simp [definedBy_result, bind_eq_some_iff, view_eq_some, op, get_eq_ok_iff]

theorem definedBy_argument_eq_some :
    g.definedBy (.argument b i) = some v ↔ ∃ blk, g.block b = .ok blk ∧ blk.args[i]? = some v := by
  simp [definedBy_argument, bind_eq_some_iff, view_eq_some, block, get_eq_ok_iff]

theorem blockOf_eq_some : g.blockOf x = some b ↔ ∃ o, g.op x = .ok o ∧ o.parent = some b := by
  simp [blockOf, join_eq_some_iff, view_eq_some, op, get_eq_ok_iff]

theorem holderOf_eq_some
    {r : RegionId} : g.holderOf r = some x ↔ ∃ reg, g.region r = .ok reg ∧ reg.parent = some x := by
  simp [holderOf, join_eq_some_iff, view_eq_some, region, get_eq_ok_iff]

end Graph

section Listing

variable {tag : String} {α β : Type} [DecidableEq β] {holder : β → Option (Handle tag)}
  {a : Arena tag α} {part : α → List β} {c : β} {h : Handle tag} {x : α}

/- What names a holder is listed there once. -/
theorem Links.once (hLinks : Links holder (a.view part))
    (hHolder : holder c = some h) : ∃ x, a.get h = .ok x ∧ (part x).count c = 1 := by
  obtain ⟨xs, hView⟩ := hLinks.live hHolder
  have hCount := hLinks.count hView c
  rw [if_pos hHolder] at hCount
  obtain ⟨x, hGet, rfl⟩ := view_eq_some.mp hView
  exact ⟨x, get_eq_ok_iff.mpr hGet, hCount⟩

/- What is listed names the holder that lists it. -/
theorem Links.holder_of_mem (hLinks : Links holder (a.view part)) (hGet : a.get h = .ok x)
    (hMem : c ∈ part x) : holder c = some h :=
  (hLinks.mem_iff (view_eq_some.mpr ⟨x, get_eq_ok_iff.mp hGet, rfl⟩)).mp hMem

end Listing

namespace Graph

variable {g : Graph}

theorem intact_of_coherent (hCoherent : g.Coherent) : g.Intact := by
  have hUses := hCoherent.values.uses
  have hDefiners := hCoherent.values.definers
  have hOps := hCoherent.places.ops
  have hBlocks := hCoherent.places.blocks
  have hRegions := hCoherent.places.regions
  constructor
  case operand =>
    intro x o i v hOp hAt
    exact hUses.once (operandAt_eq_some.mpr ⟨o, hOp, hAt⟩)
  case use =>
    intro v val d hValue hUse
    exact operandAt_eq_some.mp (hUses.holder_of_mem hValue hUse)
  case definer =>
    intro v val hValue
    have hView := (hDefiners v val.definer).mp
      (view_eq_some.mpr ⟨val, get_eq_ok_iff.mp hValue, rfl⟩)
    cases hDefiner : val.definer with
    | result x i =>
      rw [hDefiner] at hView
      exact definedBy_result_eq_some.mp hView
    | argument b i =>
      rw [hDefiner] at hView
      exact definedBy_argument_eq_some.mp hView
  case result =>
    intro x o i v hOp hAt
    have hView := (hDefiners v (.result x i)).mpr (definedBy_result_eq_some.mpr ⟨o, hOp, hAt⟩)
    obtain ⟨val, hGet, hDefiner⟩ := view_eq_some.mp hView
    exact ⟨val, get_eq_ok_iff.mpr hGet, hDefiner⟩
  case argument =>
    intro b blk i v hBlock hAt
    have hView := (hDefiners v (.argument b i)).mpr
      (definedBy_argument_eq_some.mpr ⟨blk, hBlock, hAt⟩)
    obtain ⟨val, hGet, hDefiner⟩ := view_eq_some.mp hView
    exact ⟨val, get_eq_ok_iff.mpr hGet, hDefiner⟩
  case place =>
    intro x o b hOp
    constructor
    · intro hParent
      have hPlace := blockOf_eq_some.mpr ⟨o, hOp, hParent⟩
      refine ⟨hOps.once hPlace, fun c blk hBlock hMem => ?_⟩
      have hThere := hOps.holder_of_mem hBlock hMem
      rw [hPlace, Option.some.injEq] at hThere
      exact hThere.symm
    · intro ⟨⟨blk, hBlock, hCount⟩, _⟩
      have hMem : x ∈ blk.ops := List.count_pos_iff.mp (by omega)
      obtain ⟨o', hOp', hParent⟩ := blockOf_eq_some.mp (hOps.holder_of_mem hBlock hMem)
      cases hOp.symm.trans hOp'
      exact hParent
  case placed =>
    intro x b blk hBlock hMem
    exact blockOf_eq_some.mp (hOps.holder_of_mem hBlock hMem)
  case block =>
    intro b blk hBlock
    exact hBlocks.once (view_eq_some.mpr ⟨blk, get_eq_ok_iff.mp hBlock, rfl⟩)
  case listed =>
    intro r reg b hRegion hMem
    obtain ⟨blk, hGet, hParent⟩ := view_eq_some.mp (hBlocks.holder_of_mem hRegion hMem)
    exact ⟨blk, get_eq_ok_iff.mpr hGet, hParent⟩
  case region =>
    intro r reg x hRegion hParent
    exact hRegions.once (holderOf_eq_some.mpr ⟨reg, hRegion, hParent⟩)
  case held =>
    intro x o r hOp hMem
    exact holderOf_eq_some.mp (hRegions.holder_of_mem hOp hMem)

/- Every graph that mutations give is intact. -/
theorem intact_of_grown (hGrown : g.Grown) : g.Intact := intact_of_coherent hGrown.coherent

/- The graph that mutations make, if all of them are possible. -/
def ofHistory (history : List Mutation) : Graph :=
  match (history.forM Mutation.apply).run {} with
  | .ok (_, g) => g
  | .error _ => {}

theorem coherent_ofHistory (history : List Mutation)
    (hFree : history.all Mutation.isFree = true) : (ofHistory history).Coherent := by
  unfold ofHistory
  split
  next hRun => exact (Grown.empty.applyAll hFree hRun).coherent
  next => exact .empty

/- A test of all operations of a graph. -/
def everyOp (g : Graph) (test : Operation → Bool) : Bool :=
  (List.range g.ops.slots.size).all fun i => (g.ops.get? ⟨i⟩).all test

theorem test_of_everyOp {test : Operation → Bool} {o : Operation} (hAll : g.everyOp test = true)
    (hOp : g.op x = .ok o) : test o = true := by
  have hGet := get_eq_ok_iff.mp hOp
  have hHere := List.all_eq_true.mp hAll x.index (List.mem_range.mpr (index_lt_of_get? hGet))
  rwa [hGet] at hHere

/-
  An operation that uses one value twice and holds two others,
  which use values of theirs and from outside.
-/
def nestedHistory : List Mutation :=
  let kind := Kind.generic "op" none {}
  [ .createRegion none,
    .createBlock ⟨0⟩ [.i32],
    .createOp kind [] [.i32] [],
    .append ⟨0⟩ ⟨0⟩,
    .createOp kind [⟨0⟩, ⟨0⟩] [] [],
    .append ⟨0⟩ ⟨1⟩,
    .createRegion (some ⟨1⟩),
    .createBlock ⟨1⟩ [.index],
    .createOp kind [⟨2⟩] [.i32] [],
    .append ⟨1⟩ ⟨2⟩,
    .createOp kind [⟨3⟩, ⟨1⟩] [] [],
    .insertAfter ⟨2⟩ ⟨3⟩,
    .createOp kind [⟨1⟩] [] [],
    .prepend ⟨0⟩ ⟨4⟩,
    .setOperand ⟨1⟩ 1 ⟨1⟩,
    .replaceUses ⟨0⟩ ⟨1⟩,
    .moveBefore ⟨1⟩ ⟨4⟩,
    .moveAfter ⟨4⟩ ⟨1⟩,
    .moveToEnd ⟨0⟩ ⟨0⟩ ]

def nestedGraph : Graph :=
  match (nestedHistory.forM Mutation.apply).run {} with
  | .ok (_, g) => g
  | .error _ => {}

theorem run_nestedHistory :
    (nestedHistory.forM Mutation.apply).run {} = .ok ((), nestedGraph) := by
  unfold nestedGraph
  have hOk : ((nestedHistory.forM Mutation.apply).run {}).isOk = true := by decide +kernel
  split
  next hRun => exact hRun
  next hRun =>
    rw [hRun] at hOk
    cases hOk

/- What a walk visits says whether an operation is sealed. -/
theorem sealed_of_walk {order : WalkOrder} {ys : List OpId} (hWalk : g.walkOp order x = .ok ys)
    (hResults : ∀ y ∈ ys, y ≠ x → ∀ v ∈ (g.ops.view Operation.results y).getD [],
      ∀ d ∈ (g.values.view Value.uses v).getD [], d.op ∈ ys)
    (hArgs : ∀ y ∈ ys, ∀ r ∈ (g.ops.view Operation.regions y).getD [],
      ∀ b ∈ (g.regions.view Region.blocks r).getD [], ∀ v ∈ (g.blocks.view Block.args b).getD [],
      ∀ d ∈ (g.values.view Value.uses v).getD [], d.op ∈ ys) : g.Sealed x := by
  have hInside : ∀ {y}, g.Inside x y ↔ y ∈ ys := (mem_walkFrom_iff hWalk).symm
  constructor
  · intro y o v val hIn hOther hOp hMem hValue d hUse
    rw [hInside] at hIn ⊢
    refine hResults y hIn hOther v ?_ d ?_
    · simpa [Arena.view, get_eq_ok_iff.mp hOp] using hMem
    · simpa [Arena.view, get_eq_ok_iff.mp hValue] using hUse
  · intro y o r reg b blk v val hIn hOp hHeld hRegion hListed hBlock hMem hValue d hUse
    rw [hInside] at hIn ⊢
    refine hArgs y hIn r ?_ b ?_ v ?_ d ?_
    · simpa [Arena.view, get_eq_ok_iff.mp hOp] using hHeld
    · simpa [Arena.view, get_eq_ok_iff.mp hRegion] using hListed
    · simpa [Arena.view, get_eq_ok_iff.mp hBlock] using hMem
    · simpa [Arena.view, get_eq_ok_iff.mp hValue] using hUse

theorem nestedGraph_sealed : nestedGraph.Sealed ⟨1⟩ := by
  have hWalk : nestedGraph.walkOp .post ⟨1⟩ = .ok [⟨2⟩, ⟨3⟩, ⟨1⟩] := by decide +kernel
  exact sealed_of_walk hWalk (by decide +kernel) (by decide +kernel)

/- The history goes on with an erasure. -/
theorem intact_after_erasure :
    ∃ g, (do
        nestedHistory.forM Mutation.apply
        (Mutation.erase ⟨1⟩).apply).run {} = .ok ((), g) ∧
      nestedGraph.Sealed ⟨1⟩ ∧ g.Intact := by
  have hGrown : nestedGraph.Grown := Grown.empty.applyAll rfl run_nestedHistory
  have hOk : ((Mutation.erase ⟨1⟩).apply.run nestedGraph).isOk = true := by decide +kernel
  cases hErase : (Mutation.erase ⟨1⟩).apply.run nestedGraph with
  | error e =>
    rw [hErase] at hOk
    cases hOk
  | ok done =>
    obtain ⟨_, g⟩ := done
    exact ⟨g, run_bind_eq_ok.mpr ⟨(), _, run_nestedHistory, hErase⟩, nestedGraph_sealed,
      intact_of_grown (.step (.erase ⟨1⟩) hGrown nestedGraph_sealed hErase)⟩

end Graph

end AffineIR
