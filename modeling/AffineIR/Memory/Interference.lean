import AffineIR.Memory.Dependence
import AffineIR.Memory.Effects

/-
  Interference: whether something between two operations may
  have an effect on the element that the second one accesses.

  Different buffers count as different memory.  The answer is
  that there is an effect whenever the question cannot be
  settled.

  Key definitions include:
    * `Graph.hasEffectBetween`
-/

namespace AffineIR

/- An effect, a start, and the access at the end. -/
structure Stretch where
  kind : EffectKind
  start : OpId
  target : Access
  /- The loops that start and end have in common. -/
  minLoops : Nat
deriving Inhabited

namespace Graph

variable (g : Graph) (s : Stretch)

/- Whether an effect is on a local buffer other than the target's. -/
def isElsewhere (e : MemoryEffect) : Except Fault Bool := do
  match e.value with
  | none => return false
  | some v =>
      if v = s.target.memref then return false
      else if !(← g.isLocallyAllocated v) then return false
      else g.isLocallyAllocated s.target.memref

/- Whether the target may depend on an access at one of the depths. -/
def dependsAt (source : Access) : List Nat → Except Fault Bool
  | [] => .ok false
  | depth :: rest => do
      if (← g.dependence source s.target depth).isPossible then
        return true
      else
        dependsAt source rest

/- The depths `low + 1` to `high + 1`, deepest first. -/
def depthsBetween (low high : Nat) : List Nat :=
  ((List.range (high + 1 - low)).map (low + 1 + ·)).reverse

/- Whether an effect of the kind in question hits the target. -/
def effectInterferes (h : OpId) : Except Fault Bool := do
  let kind ← g.kind h
  if !(kind.isAffineLoad || kind.isAffineStore) then
    return true
  if (← g.op h).memref? ≠ some s.target.memref then
    return false
  let scope ← g.affineScope? h
  if scope ≠ (← g.affineScope? s.start) then
    return true
  if scope ≠ (← g.affineScope? s.target.op) then
    return true
  match ← g.access? h with
  | none => return true
  | some source =>
      let common ← g.numCommonLoops h s.target.op
      g.dependsAt s source (depthsBetween s.minLoops common)

/- The first effect that is not elsewhere settles the question. -/
def effectsInterfere (h : OpId) : List MemoryEffect → Except Fault Bool
  | [] => .ok false
  | e :: rest => do
      if ← g.isElsewhere s e then effectsInterfere h rest
      else g.effectInterferes s h

/- Whether an operation may interfere, down to a depth of nesting. -/
def mayInterfereUpTo : Nat → OpId → Except Fault Bool
  | 0, _ => .error .endless
  | depth + 1, h => do
      match ← g.memoryEffects h with
      | some effects =>
          g.effectsInterfere s h (effects.filter (·.kind = s.kind))
      | none =>
          if (← g.kind h).traits.recursiveEffects then
            (← g.children h).anyM (mayInterfereUpTo depth)
          else
            return true

/- Whether an operation or something in it may interfere. -/
def mayInterfere (h : OpId) : Except Fault Bool :=
  g.mayInterfereUpTo s g.depthBound h

------
-- Paths
------

/-
  Look at the blocks on a worklist and those they lead to, for
  at most a number of blocks taken from it.  The search does
  not go on behind `stop`.
-/
def scanBlocks (stop : OpId) :
    Nat → List BlockId → List BlockId → Except Fault Bool
  | 0, _, _ => .error .endless
  | _ + 1, _, [] => .ok false
  | fuel + 1, done, block :: todo => do
      if done.contains block then
        scanBlocks stop fuel done todo
      else
        let ops := (← g.block block).ops
        if ← (ops.takeWhile (· ≠ stop)).anyM (g.mayInterfere s) then
          return true
        else
          let next ←
            if ops.contains stop then pure [] else g.blockSuccessors block
          scanBlocks stop fuel (block :: done) (next.reverse ++ todo)

/- As often as a block can be put on the worklist, and once more. -/
def scanFuel : Nat :=
  g.ops.entries.foldl (fun n e => n + 2 * e.2.successors.length) 2

/-
  Whether something interferes on a path from one operation to
  another one of the same region.
-/
def interferesInRegion (start stop : OpId) : Except Fault Bool := do
  let block ← g.parentBlock start
  let ops := (← g.block block).ops
  let after := (← g.position start) + 1
  let stretch := (← entriesFrom ops after).takeWhile (· ≠ stop)
  if ← stretch.anyM (g.mayInterfere s) then
    return true
  let todo ←
    if (← g.parentBlock stop) ≠ block then g.blockSuccessors block
    else pure []
  g.scanBlocks s stop g.scanFuel [] todo.reverse

/-
  Whether something interferes on a path from an operation
  into the region of another one.  The operations around the
  other one are checked as a whole.
-/
def interferesOnPaths (start : OpId) : Nat → OpId → Except Fault Bool
  | 0, _ => .error .endless
  | levels + 1, stop => do
      if (← g.parentRegion start) = (← g.parentRegion stop) then
        g.interferesInRegion s start stop
      else
        match ← g.parentOp? stop with
        | none => return true
        | some parent =>
            if ← interferesOnPaths start levels parent then return true
            else g.mayInterfere s parent

/-
  Whether an operation between a start and an access may have
  an effect of a kind on the element that is accessed.
-/
def hasEffectBetween
    (kind : EffectKind)
    (start stop : OpId) : Except Fault Bool := do
  match ← g.access? stop with
  | none => return true
  | some target =>
      let around ←
        g.regionIsAncestor (← g.parentRegion start) (← g.parentRegion stop)
      if !around then
        return true
      else
        let minLoops ← g.numCommonLoops start stop
        g.interferesOnPaths ⟨kind, start, target, minLoops⟩ start
          g.depthBound stop

end Graph

end AffineIR
