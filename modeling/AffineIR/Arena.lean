import AffineIR.Fault

/-
  Arenas: storage that hands out a fresh handle for every
  entity and never uses a handle twice.

  A removed entity leaves an empty slot behind, so the handles
  of the others keep their meaning.  The number of entities
  that are still there is kept beside the slots.

  Key definitions include:
    * `Arena.handles`, `Arena.entries`
-/

namespace AffineIR

structure Arena (tag : String) (α : Type) where
  slots : Array (Option α) := #[]
  live : Nat := 0

namespace Arena

variable {tag : String} {α : Type}

instance : Inhabited (Arena tag α) :=
  ⟨{}⟩

/- The entity that a handle names, if it is still there. -/
def get? (a : Arena tag α) (h : Handle tag) : Option α :=
  a.slots[h.index]?.join

/- The entity that a handle names; dangling handles fail. -/
def get (a : Arena tag α) (h : Handle tag) : Except Fault α :=
  match a.get? h with
  | some x => .ok x
  | none => .error (.danglingHandle tag h.index)

def contains (a : Arena tag α) (h : Handle tag) : Bool :=
  (a.get? h).isSome

/- How many entities the arena holds. -/
def size (a : Arena tag α) : Nat :=
  a.live

def isEmpty (a : Arena tag α) : Bool :=
  a.live == 0

/- The handle that the next entity will get. -/
def next (a : Arena tag α) : Handle tag :=
  ⟨a.slots.size⟩

/- Store an entity under the next handle. -/
def push (a : Arena tag α) (x : α) : Arena tag α :=
  { slots := a.slots.push (some x), live := a.live + 1 }

/- Store an entity and give its handle. -/
def alloc (a : Arena tag α) (x : α) : Handle tag × Arena tag α :=
  (a.next, a.push x)

/- Overwrite a live entity; other handles change nothing. -/
def set (a : Arena tag α) (h : Handle tag) (x : α) : Arena tag α :=
  if a.contains h then
    { a with slots := a.slots.setIfInBounds h.index (some x) }
  else
    a

/- Change a live entity; dangling handles fail. -/
def modify
    (a : Arena tag α)
    (h : Handle tag)
    (f : α → α) : Except Fault (Arena tag α) :=
  match a.get h with
  | .ok x => .ok (a.set h (f x))
  | .error e => .error e

/- Empty a slot; a handle without an entity changes nothing. -/
def remove (a : Arena tag α) (h : Handle tag) : Arena tag α :=
  if a.contains h then
    { slots := a.slots.setIfInBounds h.index none
      live := a.live - 1 }
  else
    a

/- The handles of the live entities, oldest first. -/
def handles (a : Arena tag α) : List (Handle tag) :=
  ((List.range a.slots.size).map Handle.mk).filter a.contains

/- The live entities with their handles, oldest first. -/
def entries (a : Arena tag α) : List (Handle tag × α) :=
  a.handles.filterMap fun h => (a.get? h).map fun x => (h, x)

/- The live entities between braces, each after its handle. -/
def text (render : α → String) (a : Arena tag α) : String :=
  let entry (e : Handle tag × α) := e.1.text ++ ": " ++ render e.2
  "\x7b" ++ ", ".intercalate (a.entries.map entry) ++ "\x7d"

end Arena

end AffineIR
