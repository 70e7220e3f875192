import AffineIR.Dominance.Regions
import AffineIR.Function.Build
import AffineIR.Graph.Erasure
import AffineIR.Memory.Interference
import AffineIR.Transform.Log

/-
  Forwarding of affine stores.

  The transformation of one function:
    * a load takes the value of the one store that reaches it;
      a store that is the only statement of a conditional is
      first made unconditional, with a select that keeps the
      old element outside the set,
    * a load takes the result of an equal load before it,
    * a store that is overwritten before it is read goes away,
    * a local buffer that is only written and freed goes away.

  Different buffers count as different memory.

  Key definitions include:
    * `Function.forwardStores`
-/

namespace AffineIR

/- How often each part of the transformation succeeded. -/
structure ForwardStats where
  forwarded : Nat := 0
  eliminated : Nat := 0
  dead : Nat := 0
  reaped : Nat := 0
deriving DecidableEq, Inhabited, Repr

namespace ForwardStats

def total (s : ForwardStats) : Nat :=
  s.forwarded + s.eliminated + s.dead + s.reaped

def add (s t : ForwardStats) : ForwardStats :=
  ⟨s.forwarded + t.forwarded, s.eliminated + t.eliminated,
    s.dead + t.dead, s.reaped + t.reaped⟩

def text (s : ForwardStats) : String :=
  "ForwardStats \x7b forwarded_loads: " ++ toString s.forwarded ++
    ", eliminated_loads: " ++ toString s.eliminated ++
    ", dead_stores: " ++ toString s.dead ++
    ", reaped_buffers: " ++ toString s.reaped ++ " \x7d"

end ForwardStats

/- The graph with what is known about it. -/
structure ForwardState where
  graph : Graph
  dom : DominanceCache := .fresh .forward
  postDom : DominanceCache := .fresh .backward
  /- Operations that will be erased. -/
  pending : List OpId := []
  /- Buffers that may have become useless. -/
  memrefs : List ValueId := []
  stats : ForwardStats := {}
  log : List LogEntry := []
deriving Inhabited

abbrev Forward :=
  StateT ForwardState (Except Fault)

namespace Forward

------
-- State
------

def ask {α : Type} (question : Graph → Except Fault α) : Forward α := do
  question (← get).graph

def edit {α : Type} (e : Edit α) : Forward α := do
  let s ← get
  let (a, graph) ← e.run s.graph
  set { s with graph := graph }
  return a

/- Ask about dominance with the kept trees. -/
def askDom {α : Type} (q : Graph → DominanceQuery α) : Forward α := do
  let s ← get
  let (a, dom) ← (q s.graph).run s.dom
  set { s with dom := dom }
  return a

/- Ask about post-dominance with the kept trees. -/
def askPostDom {α : Type} (q : Graph → DominanceQuery α) : Forward α := do
  let s ← get
  let (a, postDom) ← (q s.graph).run s.postDom
  set { s with postDom := postDom }
  return a

/- Where it is known which operations dominate which others. -/
class Oracle where
  dominates (d : Direction) (a b : OpId) : Forward Bool

/- Ask the kept trees. -/
instance keptTrees : Oracle where
  dominates
    | .forward, a, b => askDom fun g => g.dominates a b
    | .backward, a, b => askPostDom fun g => g.dominates a b

def invalidate : Forward Unit :=
  modify fun s =>
    { s with dom := s.dom.invalidate, postDom := s.postDom.invalidate }

def debug (text : String) : Forward Unit :=
  modify fun s => { s with log := s.log ++ [⟨.debug, text⟩] }

def count (t : ForwardStats) : Forward Unit :=
  modify fun s => { s with stats := s.stats.add t }

def isPending (op : OpId) : Forward Bool := do
  return (← get).pending.contains op

/- Erase an operation later. -/
def scheduleErase (op : OpId) : Forward Unit :=
  modify fun s =>
    if s.pending.contains op then s
    else { s with pending := s.pending ++ [op] }

/- Look at a buffer again at the end. -/
def recheck (memref : ValueId) : Forward Unit :=
  modify fun s =>
    if s.memrefs.contains memref then s
    else { s with memrefs := s.memrefs ++ [memref] }

/- Erase the operations that wait for it and are still there. -/
def flush : Forward Unit := do
  let pending := (← get).pending
  modify fun s => { s with pending := [] }
  pending.forM fun op => do
    if (← get).graph.ops.contains op then
      edit (Edit.erase op)
  invalidate

------
-- Stores into loads
------

/-
  What stands for a store when it is compared with another
  operation: the conditional around it, if the store is its
  only statement and its region encloses the other operation.
-/
def startPoint (g : Graph) (store other : OpId) : Except Fault OpId := do
  match ← g.soleGuard? store with
  | none => return store
  | some guard =>
      let encloses ←
        g.regionIsAncestor (← g.parentRegion guard) (← g.parentRegion other)
      return if encloses then guard else store

/- Whether an operation is an access to the same element. -/
def accessesElement (target : Access) (h : OpId) : Forward Bool := do
  match ← ask (·.access? h) with
  | some a => return a.sameElement target
  | none => return false

/- The point from which a store reaches a load, if it does. -/
def reachingPoint? [Oracle]
    (target : Access)
    (load store : OpId) : Forward (Option OpId) := do
  if !(← ask (·.kind store)).isAffineStore then
    return none
  if !(← accessesElement target store) then
    return none
  let start ← ask fun g => startPoint g store load
  if !(← Oracle.dominates .forward start load) then
    return none
  if ← ask fun g => g.hasEffectBetween .write start load then
    return none
  return some start

/- The stores that reach a load, each with its point. -/
def reachingStores [Oracle] (target : Access) (load : OpId) :
    List OpId → Forward (List (OpId × OpId))
  | [] => return []
  | user :: rest => do
      let start ← reachingPoint? target load user
      let others ← reachingStores target load rest
      return match start with
        | some s => (user, s) :: others
        | none => others

/- What became of a load. -/
inductive Outcome where
  | unchanged
  | replaced
  /- A new load took its place and has to be looked at. -/
  | retry (load : OpId)

/-
  Make a guarded store unconditional and give its value to a
  load.  The result is the new load of the old element.
-/
def unguard (store guard load : OpId) : Edit OpId := do
  Edit.moveBefore store guard
  let parts ← Edit.ask (·.storeParts store)
  let (set, operands) ← Edit.ask (·.condition guard)
  let point : InsertPoint := .before store
  let old ← Build.affineLoad point parts.memref parts.map parts.indices
  let oldValue ← Edit.ask (·.result old)
  let chosen ← Build.affineSelect point set operands parts.value oldValue
  Edit.setOperand store 0 chosen
  Edit.erase guard
  let loaded ← Edit.ask (·.result load)
  Edit.replaceUses loaded chosen
  return old

/- Give the value of a store to a load. -/
def useStored
    (memref stored loaded : ValueId)
    (store start load : OpId) : Forward Outcome := do
  if start = store then
    edit (Edit.replaceUses loaded stored)
    recheck memref
    scheduleErase load
    count { forwarded := 1 }
    debug ("forwarded " ++ store.text ++ " into " ++ load.text)
    return .replaced
  else
    let old ← edit (unguard store start load)
    scheduleErase load
    invalidate
    count { forwarded := 1 }
    debug ("forwarded guarded " ++ store.text ++ " into " ++ load.text ++
      " through a select")
    return .retry old

/- Forward the one store that reaches a load, if there is one. -/
def forwardStore [Oracle] (load : OpId) : Forward Outcome := do
  match ← ask (·.access? load) with
  | none => return .unchanged
  | some target =>
      let users ← ask (·.users target.memref)
      match ← reachingStores target load users with
      | [] => return .unchanged
      | [(store, start)] =>
          match (← ask (·.op store)).stored? with
          | none => return .unchanged
          | some stored =>
              let loaded ← ask (·.result load)
              let storedTy ← ask (·.valueTy stored)
              let loadedTy ← ask (·.valueTy loaded)
              if storedTy ≠ loadedTy then
                return .unchanged
              else
                useStored target.memref stored loaded store start load
      | stores => throw (.ambiguousStores stores.length load)

------
-- Equal loads
------

/- Whether a load can take the result of another operation. -/
def canReuse [Oracle]
    (target : Access)
    (loaded : ValueId)
    (load user : OpId) : Forward Bool := do
  if user = load then
    return false
  if !(← ask (·.kind user)).isAffineLoad then
    return false
  if ← isPending user then
    return false
  if !(← accessesElement target user) then
    return false
  let userTy ← ask fun g => do g.valueTy (← g.result user)
  let loadedTy ← ask (·.valueTy loaded)
  if userTy ≠ loadedTy then
    return false
  if !(← Oracle.dominates .forward user load) then
    return false
  return !(← ask fun g => g.hasEffectBetween .write user load)

/- The first of some operations that dominates all of them. -/
def firstDominator [Oracle] (all : List OpId) :
    List OpId → Forward (Option OpId)
  | [] => return none
  | c :: rest => do
      if ← all.allM fun d => Oracle.dominates .forward c d then
        return some c
      else
        firstDominator all rest

/- Let a load take the result of an equal load before it. -/
def mergeLoad [Oracle] (load : OpId) : Forward Unit := do
  match ← ask (·.access? load) with
  | none => pure ()
  | some target =>
      let loaded ← ask (·.result load)
      let users ← ask (·.users target.memref)
      let candidates ← users.filterM (canReuse target loaded load)
      match ← firstDominator candidates candidates with
      | none => pure ()
      | some chosen =>
          let replacement ← ask (·.result chosen)
          edit (Edit.replaceUses loaded replacement)
          scheduleErase load
          count { eliminated := 1 }
          debug ("replaced " ++ load.text ++ " by the equivalent " ++
            chosen.text)

/-
  Work on a load and on the loads that take its place.  Each
  of these costs a conditional, which bounds their number.
-/
def processLoad [Oracle] : Nat → OpId → Forward Unit
  | 0, _ => throw .endless
  | fuel + 1, load => do
      if !(← get).graph.ops.contains load || (← isPending load) then
        pure ()
      else
        match ← forwardStore load with
        | .replaced => pure ()
        | .retry next => processLoad fuel next
        | .unchanged => mergeLoad load

/- How many conditionals a graph has. -/
def numConditionals (g : Graph) : Nat :=
  g.ops.entries.countP fun e => e.2.kind.isConditional

------
-- Dead stores
------

/-
  The operations to compare for two stores to one element: the
  first one's sole guard stands for it, and then also that of
  the second one if it has the same condition.
-/
def comparedPoints
    (g : Graph)
    (first second : OpId) : Except Fault (OpId × OpId) := do
  let start ← startPoint g first second
  if start = first then
    return (first, second)
  else
    match ← g.soleGuard? second with
    | none => return (start, second)
    | some guard =>
        let a ← g.op start
        let b ← g.op guard
        let sameGuard :=
          a.kind.integerSet? = b.kind.integerSet? &&
            a.operands = b.operands
        return (start, if sameGuard then guard else second)

/- What to erase because a store is overwritten by another one. -/
def overwrittenAt? [Oracle]
    (target : Access)
    (first second : OpId) : Forward (Option OpId) := do
  if second = first then
    return none
  if !(← ask (·.kind second)).isAffineStore then
    return none
  if !(← accessesElement target second) then
    return none
  let (pointA, pointB) ← ask fun g => comparedPoints g first second
  let regionA ← ask (·.parentRegion pointA)
  let regionB ← ask (·.parentRegion pointB)
  if regionA ≠ regionB then
    return none
  if !(← Oracle.dominates .backward pointB pointA) then
    return none
  if ← ask fun g => g.hasEffectBetween .read pointA second then
    return none
  return some pointA

/- Schedule a store that one of the users overwrites. -/
def findOverwriter [Oracle] (target : Access) (store : OpId) :
    List OpId → Forward Unit
  | [] => pure ()
  | user :: rest => do
      match ← overwrittenAt? target store user with
      | none => findOverwriter target store rest
      | some point =>
          scheduleErase point
          count { dead := 1 }
          debug (store.text ++ " is overwritten by " ++ user.text ++
            "; erasing " ++ point.text)

/- Whether operations only store to a buffer or free it. -/
def onlyWritten
    (g : Graph)
    (memref : ValueId)
    (users : List OpId) : Except Fault Bool :=
  users.allM fun u => do
    if (← g.kind u).isAffineStore then return true
    else g.hasSingleEffect u .free memref

/- Look whether a store is overwritten and its buffer useless. -/
def dropDeadStore [Oracle] (store : OpId) : Forward Unit := do
  if !(← get).graph.ops.contains store || (← isPending store) then
    pure ()
  else
    match ← ask (·.access? store) with
    | none => pure ()
    | some target =>
        let users ← ask (·.users target.memref)
        findOverwriter target store users
        if ← ask fun g => onlyWritten g target.memref users then
          recheck target.memref

------
-- Useless buffers
------

/- Remove a local buffer that is only written and freed. -/
def reapBuffer (memref : ValueId) : Forward Unit := do
  if !(← get).graph.values.contains memref then
    return
  match ← ask (·.definingOp? memref) with
  | none => pure ()
  | some source =>
      if !(← ask fun g => g.hasSingleEffect source .allocate memref) then
        return
      let users ← ask (·.users memref)
      if !(← ask fun g => onlyWritten g memref users) then
        return
      users.forM fun user => edit (Edit.erase user)
      edit (Edit.erase source)
      count { reaped := 1 }
      debug ("removed write-only buffer " ++ memref.text)

/- Look at all buffers that may be useless, by their handles. -/
def reapBuffers : Forward Unit := do
  let memrefs := (← get).memrefs.mergeSort fun a b => a.index ≤ b.index
  modify fun s => { s with memrefs := [] }
  memrefs.forM reapBuffer

/- The whole transformation. -/
def all [Oracle] (f : Function) : Forward Unit := do
  let loads ← ask fun g => g.collectOps f.body Kind.isAffineLoad
  loads.forM fun load => do
    processLoad (numConditionals (← get).graph + 1) load
  flush
  let stores ← ask fun g => g.collectOps f.body Kind.isAffineStore
  stores.forM dropDeadStore
  flush
  reapBuffers
  debug ("affine-store-forward on '" ++ f.name ++ "': " ++
    (← get).stats.text)

end Forward

/- What forwarding did to a function. -/
structure Forwarded where
  function : Function
  stats : ForwardStats
  log : List LogEntry

/- Forward the stores of a function. -/
def Function.forwardStores (f : Function) : Except Fault Forwarded := do
  let (_, s) ← (Forward.all f).run { graph := f.graph }
  return ⟨{ f with graph := s.graph }, s.stats, s.log⟩

end AffineIR
