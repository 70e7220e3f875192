import AffineIR.Graph.Nesting
import AffineIR.Graph.Parts

/-
  Effects of operations on memory.

  An operation declares a list of effects, possibly none, or
  it declares nothing.  One that declares nothing has the
  effects of the operations nested in it if its traits say so,
  and may do anything otherwise.

  Key definitions include:
    * `Graph.effectsOn`
-/

namespace AffineIR

/- An effect, on a value or on memory that is not named. -/
structure MemoryEffect where
  kind : EffectKind
  value : Option ValueId
deriving DecidableEq, Inhabited, Repr

/- The declared effects; none if nothing is declared. -/
def Operation.effects (o : Operation) :
    Except Fault (Option (List MemoryEffect)) := do
  match o.kind with
  | .constant _ | .arith _ | .compare _ | .select | .apply _
  | .affineSelect _ | .yield | .branch | .condBranch | .ret =>
      return some []
  | .affineLoad _ | .load =>
      return some [⟨.read, some (← entryAt o.operands 0)⟩]
  | .affineStore _ | .store =>
      return some [⟨.write, some (← entryAt o.operands 1)⟩]
  | .alloc => return some [⟨.allocate, some (← entryAt o.results 0)⟩]
  | .dealloc => return some [⟨.free, some (← entryAt o.operands 0)⟩]
  | .loop _ _ _ | .conditional _ | .call _ => return none
  | .generic _ effects _ =>
      return effects.map fun declared =>
        declared.map fun e =>
          ⟨e.kind, e.operand.bind fun i => o.operands[i]?⟩

namespace Graph

variable (g : Graph)

/- The declared effects of an operation. -/
def memoryEffects (h : OpId) : Except Fault (Option (List MemoryEffect)) := do
  (← g.op h).effects

/-
  Whether an operation declares effects on a value and all of
  them are of one kind.
-/
def hasSingleEffect
    (h : OpId)
    (kind : EffectKind)
    (value : ValueId) : Except Fault Bool := do
  match ← g.memoryEffects h with
  | none => return false
  | some effects =>
      let onValue := effects.filter (·.value = some value)
      return !onValue.isEmpty && onValue.all (·.kind = kind)

/- Whether a buffer comes from an operation that allocates it. -/
def isLocallyAllocated (memref : ValueId) : Except Fault Bool := do
  match ← g.definingOp? memref with
  | some h => g.hasSingleEffect h .allocate memref
  | none => return false

end Graph

------
-- Summaries
------

/- Which kinds of effects there may be. -/
structure EffectSet where
  read : Bool := false
  write : Bool := false
  allocate : Bool := false
  free : Bool := false
deriving DecidableEq, Inhabited, Repr

namespace EffectSet

/- Nothing is known. -/
def unknown : EffectSet :=
  ⟨true, true, true, true⟩

def ofKind : EffectKind → EffectSet
  | .read => { read := true }
  | .write => { write := true }
  | .allocate => { allocate := true }
  | .free => { free := true }

def union (a b : EffectSet) : EffectSet :=
  ⟨a.read || b.read, a.write || b.write,
    a.allocate || b.allocate, a.free || b.free⟩

def isPure (s : EffectSet) : Bool :=
  s = {}

def bits (s : EffectSet) : Nat :=
  bitOf s.read 0 + bitOf s.write 1 + bitOf s.allocate 2 + bitOf s.free 3

/- The union of several summaries. -/
def unions (sets : List EffectSet) : EffectSet :=
  sets.foldl union {}

end EffectSet

namespace Graph

variable (g : Graph)

/- Effects on a value down to a depth of nesting. -/
def effectsOnUpTo (value : ValueId) : Nat → OpId → Except Fault EffectSet
  | 0, _ => .error .endless
  | depth + 1, h => do
      match ← g.memoryEffects h with
      | some effects =>
          let relevant :=
            effects.filter fun e => e.value.all (· = value)
          return .unions (relevant.map fun e => .ofKind e.kind)
      | none =>
          if (← g.kind h).traits.recursiveEffects then
            let inner ← g.children h
            return .unions (← inner.mapM (effectsOnUpTo value depth))
          else
            return .unknown

end Graph

end AffineIR
