import AffineIR.Proofs.Graph.Removal
import AffineIR.Proofs.Memory.Sources

/-
  Why the work on a load ends.

  A load that gets its value from a guarded store is replaced by
  a new load, which is looked at again.  The guard is erased on
  the way and no edit makes a conditional, so that this happens
  at most as often as there are conditionals, for one load and
  for all loads together.

  Main result: `Function.retries_end`
-/

namespace AffineIR

open Answer List Arena

variable {α β : Type} {g g' : Graph} {x : OpId}

------
-- Conditionals
------

namespace Graph

def conditionals (g : Graph) : List OpId :=
  g.ops.handles.filter fun x => (g.ops.get? x).any (·.kind.isConditional)

theorem mem_conditionals :
    x ∈ g.conditionals ↔ ∃ o, g.ops.get? x = some o ∧ o.kind.isConditional = true := by
  unfold conditionals
  rw [mem_filter, Option.any_eq_true]
  refine and_iff_right_of_imp ?_
  rintro ⟨o, hGet, _⟩
  exact mem_filter.mpr ⟨mem_map.mpr ⟨x.index, mem_range.mpr (index_lt_of_get? hGet), rfl⟩,
    contains_of_get? hGet⟩

theorem numConditionals_eq (g : Graph) : Forward.numConditionals g = g.conditionals.length := by
  unfold Forward.numConditionals conditionals Arena.entries
  rw [countP_filterMap, countP_eq_length_filter]
  congr 2
  funext x
  cases g.ops.get? x <;> rfl

theorem nodup_conditionals (g : Graph) : g.conditionals.Nodup := by
  refine ((nodup_range.map fun i j hSame => ?_).filter _).filter _
  exact congrArg Handle.index hSame

theorem numConditionals_le (hOld : g'.conditionals ⊆ g.conditionals) :
    Forward.numConditionals g' ≤ Forward.numConditionals g := by
  rw [numConditionals_eq, numConditionals_eq]
  exact (g'.nodup_conditionals.subperm hOld).length_le

theorem numConditionals_lt (hOld : g'.conditionals ⊆ g.conditionals) (hMem : x ∈ g.conditionals)
    (hGone : x ∉ g'.conditionals) : Forward.numConditionals g' < Forward.numConditionals g := by
  rw [numConditionals_eq, numConditionals_eq]
  have hRest : g'.conditionals ⊆ g.conditionals.erase x := fun y hY =>
    (mem_erase_of_ne (ne_of_mem_of_not_mem hY hGone)).mpr (hOld hY)
  have hLength := (g'.nodup_conditionals.subperm hRest).length_le
  have hPos := length_pos_of_mem hMem
  rw [length_erase_of_mem hMem] at hLength
  omega

end Graph

------
-- Edits that make no conditional
------

def Graph.Fewer (g g' : Graph) : Prop := g'.conditionals ⊆ g.conditionals

instance : IsPreorder Graph Graph.Fewer where
  refl g := List.Subset.refl g.conditionals
  trans _ _ _ hFirst hSecond := List.Subset.trans hSecond hFirst

namespace Edit

theorem fewer_of_ops {e : Edit α} (hSame : ∀ ⦃a g g'⦄, e.run g = .ok (a, g') → g'.ops = g.ops) :
    Takes Graph.Fewer e := by
  intro a g g' hRun
  unfold Graph.Fewer Graph.conditionals
  rw [hSame hRun]
  exact List.Subset.refl _

theorem fewer_modifyValue (v : ValueId) (k : Value → Value) :
    Takes Graph.Fewer (modifyValue v k) := by
  refine fewer_of_ops fun _ g g' hRun => ?_
  obtain ⟨_, _, rfl⟩ := eq_of_modifyValue hRun
  rfl

theorem fewer_modifyBlock (b : BlockId) (k : Block → Block) :
    Takes Graph.Fewer (modifyBlock b k) := by
  refine fewer_of_ops fun _ g g' hRun => ?_
  obtain ⟨_, _, rfl⟩ := eq_of_modifyBlock hRun
  rfl

/- A change of an operation that leaves its kind. -/
theorem fewer_modifyOp (x : OpId) {k : Operation → Operation} (hKind : ∀ o, (k o).kind = o.kind) :
    Takes Graph.Fewer (modifyOp x k) := by
  intro _ g g' hRun y hMem
  obtain ⟨o, hGet, rfl⟩ := eq_of_modifyOp hRun
  obtain ⟨o', hGet', hIs⟩ := Graph.mem_conditionals.mp hMem
  refine Graph.mem_conditionals.mpr ?_
  dsimp only at hGet'
  rw [get?_set hGet] at hGet'
  split at hGet'
  next hSame =>
    cases hGet'
    exact ⟨o, hSame ▸ hGet, hKind o ▸ hIs⟩
  next => exact ⟨o', hGet', hIs⟩

theorem fewer_newOp {o : Operation} (hKind : o.kind.isConditional = false) :
    Takes Graph.Fewer (newOp o) := by
  intro _ g g' hRun y hMem
  cases hRun
  obtain ⟨o', hGet, hIs⟩ := Graph.mem_conditionals.mp hMem
  dsimp only at hGet
  rw [get?_push] at hGet
  split at hGet
  next =>
    cases hGet
    cases hKind.symm.trans hIs
  next => exact Graph.mem_conditionals.mpr ⟨o', hGet, hIs⟩

theorem fewer_create {kind : Kind} (anchor : OpId) (operands : List ValueId) (results : List Ty)
    (hKind : kind.isConditional = false) :
    Takes Graph.Fewer (Build.create (.before anchor) kind operands results) := by
  refine Takes.bind ((fewer_newOp hKind).bind fun x => (Takes.forM fun e _ => ?_).bind fun _ =>
    (Takes.forM fun e _ => ?_).bind fun _ => .pure x) fun x => (Takes.insertBefore
      fewer_modifyBlock (fun y _ => fewer_modifyOp y fun _ => rfl) anchor x).bind fun _ => .pure x
  · refine Takes.bind (fewer_of_ops fun _ g g' hRun => ?_) fun _ => fewer_modifyOp x fun _ => rfl
    cases hRun
    rfl
  · exact (fewer_modifyValue _ _).bind fun _ => fewer_modifyOp x fun _ => rfl

theorem fewer_setOperand (x : OpId) (i : Nat) (v : ValueId) :
    Takes Graph.Fewer (setOperand x i v) :=
  (Takes.ask _).bind fun _ => (fewer_modifyValue _ _).bind fun _ =>
    (fewer_modifyValue _ _).bind fun _ => fewer_modifyOp x fun _ => rfl

theorem fewer_replaceUses (v w : ValueId) : Takes Graph.Fewer (replaceUses v w) :=
  .replaceUses fewer_modifyValue (fun x _ => fewer_modifyOp x fun _ => rfl) v w

/- What is erased is gone. -/
theorem conditionals_erase {u : Unit} (hRun : (erase x).run g = .ok (u, g')) :
    g'.conditionals ⊆ g.conditionals ∧ x ∉ g'.conditionals := by
  obtain ⟨doomed, hDoomed, _, hClipped, _⟩ := clipped_erase hRun
  constructor
  · intro y hMem
    obtain ⟨o, hGet, hIs⟩ := Graph.mem_conditionals.mp hMem
    exact Graph.mem_conditionals.mpr ⟨o, ((hClipped.ops y o).mp hGet).2, hIs⟩
  · intro hMem
    obtain ⟨o, hGet, _⟩ := Graph.mem_conditionals.mp hMem
    exact ((hClipped.ops x o).mp hGet).1 ((hDoomed x).mpr .self)

end Edit

namespace Forward

variable {s s' : ForwardState} {load store guard : OpId}

/- The guard of a store goes away when the store is made unconditional. -/
theorem conditionals_unguard {old : OpId}
    (hRun : (unguard store guard load).run g = .ok (old, g')) :
    g'.conditionals ⊆ g.conditionals ∧ guard ∉ g'.conditionals := by
  obtain ⟨_, g₁, hMove, hRun⟩ := run_bind_eq_ok.mp hRun
  obtain ⟨parts, _, hRun⟩ := Edit.run_ask_bind.mp hRun
  obtain ⟨condition, _, hRun⟩ := Edit.run_ask_bind.mp hRun
  obtain ⟨new, g₂, hLoad, hRun⟩ := run_bind_eq_ok.mp hRun
  obtain ⟨oldValue, _, hRun⟩ := Edit.run_ask_bind.mp hRun
  obtain ⟨chosen, g₃, hSelect, hRun⟩ := run_bind_eq_ok.mp hRun
  obtain ⟨_, g₄, hSet, hRun⟩ := run_bind_eq_ok.mp hRun
  obtain ⟨_, g₅, hErase, hRun⟩ := run_bind_eq_ok.mp hRun
  obtain ⟨loaded, _, hRun⟩ := Edit.run_ask_bind.mp hRun
  obtain ⟨_, g₆, hReplace, hRun⟩ := run_bind_eq_ok.mp hRun
  obtain ⟨_, rfl⟩ := run_pure_eq_ok.mp hRun
  have hMoved : Graph.Fewer g g₁ :=
    Edit.Takes.moveBefore Edit.fewer_modifyBlock (fun x _ => Edit.fewer_modifyOp x fun _ => rfl) _ _
      hMove
  have hCreated : Graph.Fewer g₁ g₂ :=
    Edit.Takes.bind ((Edit.Takes.ask _).bind fun _ => .pure _)
      (fun _ => Edit.fewer_create _ _ _ rfl) hLoad
  have hChosen : Graph.Fewer g₂ g₃ :=
    (Edit.Takes.ask _).bind (fun _ => (Edit.fewer_create _ _ _ rfl).bind fun _ => .ask _) hSelect
  obtain ⟨hLeft, hGone⟩ := Edit.conditionals_erase hErase
  have hUsed := Edit.fewer_replaceUses _ _ hReplace
  exact ⟨List.Subset.trans hUsed <| List.Subset.trans hLeft <| List.Subset.trans
    (Edit.fewer_setOperand _ _ _ hSet) <| List.Subset.trans hChosen <|
    List.Subset.trans hCreated hMoved,
    fun hMem => hGone (hUsed hMem)⟩

/- A sole guard is a conditional. -/
theorem mem_conditionals_of_soleGuard (hGuard : g.soleGuard? store = .ok (some guard)) :
    guard ∈ g.conditionals := by
  obtain ⟨parent, _, hGuard⟩ := bind_eq_ok.mp hGuard
  cases parent with
  | none => cases hGuard
  | some parent =>
    obtain ⟨kind, hKind, hGuard⟩ := bind_eq_ok.mp hGuard
    obtain ⟨o, hOp, rfl⟩ := op_of_kind hKind
    split at hGuard
    next => cases hGuard
    next hIs =>
      obtain ⟨other, _, hGuard⟩ := bind_eq_ok.mp hGuard
      split at hGuard
      next => cases hGuard
      next =>
        obtain ⟨b, _, hGuard⟩ := bind_eq_ok.mp hGuard
        obtain ⟨c, _, hGuard⟩ := bind_eq_ok.mp hGuard
        split at hGuard
        next => cases hGuard
        next =>
          obtain ⟨blk, _, hGuard⟩ := bind_eq_ok.mp hGuard
          split at hGuard
          next => cases hGuard
          next =>
            cases pure_eq_ok.mp hGuard
            exact Graph.mem_conditionals.mpr ⟨o, get_eq_ok_iff.mp hOp, by simpa using hIs⟩

/- What a load that is looked at again has cost. -/
structure Retried (s s' : ForwardState) (store guard : OpId) : Prop where
  isStore : ∃ o, s.graph.op store = .ok o ∧ o.kind.isAffineStore = true
  sole : s.graph.soleGuard? store = .ok (some guard)
  before : guard ∈ s.graph.conditionals
  after : guard ∉ s'.graph.conditionals

theorem conditionals_of_forwardStore {out : Outcome}
    (hRun : (forwardStore load).run s = .ok (out, s')) :
    s'.graph.conditionals ⊆ s.graph.conditionals ∧
      ∀ next, out = .retry next → ∃ store guard, Retried s s' store guard := by
  rcases cases_of_forwardStore hRun with ⟨rfl, hKept⟩ | ⟨target, users, store, start, s₁, o, v,
    loaded, _, _, hStores, _, _, _, hUse⟩
  · rw [hKept.graph]
    exact ⟨List.Subset.refl _, by simp⟩
  · obtain ⟨hKept, hReach⟩ := run_reachingStores hStores
    obtain ⟨hPoint, ⟨kind, hKind, hStore⟩, _⟩ := hReach _ (mem_singleton_self _)
    obtain ⟨o, hOp, rfl⟩ := op_of_kind hKind
    rcases cases_of_useStored hUse with ⟨_, rfl, hReplace⟩ | ⟨hOther, old, rfl, hUnguard⟩
    · rw [hKept.graph] at hReplace
      exact ⟨Edit.fewer_replaceUses _ _ hReplace, by simp⟩
    · rw [hKept.graph] at hUnguard
      obtain ⟨hOld, hGone⟩ := conditionals_unguard hUnguard
      refine ⟨hOld, fun _ _ => ?_⟩
      obtain ⟨found, hGuard, hPoint⟩ := bind_eq_ok.mp hPoint
      cases found with
      | none => exact absurd (pure_eq_ok.mp hPoint).symm hOther
      | some guard =>
        obtain ⟨_, _, hPoint⟩ := bind_eq_ok.mp hPoint
        obtain ⟨_, _, hPoint⟩ := bind_eq_ok.mp hPoint
        obtain ⟨encloses, _, hPoint⟩ := bind_eq_ok.mp hPoint
        have hStart := pure_eq_ok.mp hPoint
        split at hStart
        next =>
          subst hStart
          exact ⟨store, _, ⟨o, hOp, hStore⟩, hGuard, mem_conditionals_of_soleGuard hGuard, hGone⟩
        next => exact absurd hStart.symm hOther

theorem conditionals_of_mergeLoad {u : Unit} (hRun : (mergeLoad load).run s = .ok (u, s')) :
    s'.graph.conditionals ⊆ s.graph.conditionals := by
  rcases cases_of_mergeLoad hRun with hKept | ⟨_, _, _, _, hReplace⟩
  · rw [hKept.graph]
    exact List.Subset.refl _
  · exact Edit.fewer_replaceUses _ _ hReplace

------
-- Retries
------

/- A load that there is work on. -/
def Waits (s : ForwardState) (load : OpId) : Prop :=
  s.graph.ops.contains load = true ∧ s.pending.contains load = false

/-
  Work on a load and on those that take its place, how often
  one does, and what comes of it.
-/
inductive Processes : ForwardState → OpId → Nat → Except Fault (Unit × ForwardState) → Prop
  | gone {s : ForwardState} {load : OpId} (hGone : ¬Waits s load) :
      Processes s load 0 (.ok ((), s))
  | fails {s : ForwardState} {load : OpId} {e : Fault} (hWaits : Waits s load)
      (hRun : (forwardStore load).run s = .error e) : Processes s load 0 (.error e)
  | replaced {s s' : ForwardState} {load : OpId} (hWaits : Waits s load)
      (hRun : (forwardStore load).run s = .ok (.replaced, s')) : Processes s load 0 (.ok ((), s'))
  | unchanged {s s' : ForwardState} {load : OpId} (hWaits : Waits s load)
      (hRun : (forwardStore load).run s = .ok (.unchanged, s')) :
      Processes s load 0 ((mergeLoad load).run s')
  | retry {s s' : ForwardState} {load next : OpId} {n : Nat}
      {r : Except Fault (Unit × ForwardState)} (hWaits : Waits s load)
      (hRun : (forwardStore load).run s = .ok (.retry next, s'))
      (hNext : Processes s' next n r) : Processes s load (n + 1) r

/- Every retry costs a conditional. -/
theorem Processes.numConditionals {n : Nat} {r : Except Fault (Unit × ForwardState)}
    (hProcesses : Processes s load n r) :
    n ≤ numConditionals s.graph ∧
      ∀ s', r = .ok ((), s') → n + Forward.numConditionals s'.graph ≤
        Forward.numConditionals s.graph := by
  induction hProcesses with
  | gone =>
    refine ⟨Nat.zero_le _, fun s' hDone => ?_⟩
    cases hDone
    exact (Nat.zero_add _).le
  | fails => exact ⟨Nat.zero_le _, by simp⟩
  | replaced _ hRun =>
    refine ⟨Nat.zero_le _, fun s' hDone => ?_⟩
    cases hDone
    rw [Nat.zero_add]
    exact Graph.numConditionals_le (conditionals_of_forwardStore hRun).1
  | unchanged _ hRun =>
    refine ⟨Nat.zero_le _, fun s' hDone => ?_⟩
    rw [Nat.zero_add]
    exact Graph.numConditionals_le
      (List.Subset.trans (conditionals_of_mergeLoad hDone) (conditionals_of_forwardStore hRun).1)
  | retry _ hRun _ ih =>
    obtain ⟨hOld, hCost⟩ := conditionals_of_forwardStore hRun
    obtain ⟨store, guard, hRetried⟩ := hCost _ rfl
    have hLess := Graph.numConditionals_lt hOld hRetried.before hRetried.after
    obtain ⟨hNow, hLater⟩ := ih
    refine ⟨by omega, fun s' hDone => ?_⟩
    have hRest := hLater s' hDone
    omega

end Forward

end AffineIR
