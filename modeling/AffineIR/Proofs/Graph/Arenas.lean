import AffineIR.Proofs.Graph.Links
import Mathlib.Algebra.Order.Ring.Nat

/-
  Arenas as partial maps.

  To its users an arena is what happened to it: the handles
  that it gave, and what was stored under them.  Every handle
  is new and names what was stored last under it until it is
  removed, whatever happens to others.  A copy shares the past
  of its original and not what happens to either afterwards.

  Main result: `Arena.refines_past`
-/

namespace AffineIR

open List

namespace Arena

variable {tag : String} {α : Type} {a : Arena tag α} {h : Handle tag} {x : α}

------
-- Pasts
------

/- What happened to an arena. -/
inductive Event (tag : String) (α : Type)
  | given (h : Handle tag) (x : α)
  | changed (h : Handle tag) (change : α → α)
  | removed (h : Handle tag)

/- What a handle names after an event, by what it named before. -/
def Event.update (h : Handle tag) : Option α → Event tag α → Option α
  | old, given k x => if h = k then some x else old
  | old, changed k change => if h = k then old.map change else old
  | old, removed k => if h = k then none else old

def Event.given? : Event tag α → Option (Handle tag)
  | given h _ => some h
  | _ => none

/- The handles that were given, in this order. -/
def givenIn (past : List (Event tag α)) : List (Handle tag) := past.filterMap Event.given?

/- What is named by a handle in the end. -/
def namedBy (past : List (Event tag α)) (h : Handle tag) : Option α := past.foldl (Event.update h) none

/- An arena, with its past. -/
structure Lived (tag : String) (α : Type) where
  arena : Arena tag α := {}
  past : List (Event tag α) := []

/- Dangling handles change nothing, but must not be used as an index. -/
inductive Uses : Lived tag α → Lived tag α → Prop
  | alloc (s : Lived tag α) (x : α) :
      Uses s ⟨(s.arena.alloc x).2, s.past ++ [.given (s.arena.alloc x).1 x]⟩
  | remove (s : Lived tag α) (h : Handle tag) :
      Uses s ⟨s.arena.remove h, s.past ++ [.removed h]⟩
  | set (s : Lived tag α) (h : Handle tag) (x : α) :
      Uses s ⟨s.arena.set h x, s.past ++ [.changed h fun _ => x]⟩
  | modify {s : Lived tag α} {h : Handle tag} {change : α → α} {a : Arena tag α}
      (hModify : s.arena.modify h change = .ok a) : Uses s ⟨a, s.past ++ [.changed h change]⟩

/- The arenas that come from a new one by uses and copies. -/
inductive Family : List (Lived tag α) → Prop
  | new : Family [{}]
  | use {family : List (Lived tag α)} {i : Nat} {s s' : Lived tag α} (hFamily : Family family)
      (hAt : family[i]? = some s) (hUses : Uses s s') : Family (family.set i s')
  | copy {family : List (Lived tag α)} {s : Lived tag α} (hFamily : Family family)
      (hMem : s ∈ family) : Family (family ++ [s])

------
-- Live handles
------

theorem slots_set (a : Arena tag α) (h : Handle tag) (x : α) :
    (a.set h x).slots.size = a.slots.size := by
  unfold set
  split <;> simp

theorem slots_remove (a : Arena tag α) (h : Handle tag) :
    (a.remove h).slots.size = a.slots.size := by
  unfold remove
  split <;> simp

theorem nodup_handles (a : Arena tag α) : a.handles.Nodup :=
  (nodup_range.map fun _ _ hSame => congrArg Handle.index hSame).filter _

theorem mem_handles_of_get? (hGet : a.get? h = some x) : h ∈ a.handles :=
  mem_filter.mpr ⟨mem_map.mpr ⟨h.index, mem_range.mpr (index_lt_of_get? hGet), rfl⟩,
    contains_of_get? hGet⟩

theorem handles_push (a : Arena tag α) (x : α) : (a.push x).handles = a.handles ++ [a.next] := by
  have hOld : ∀ h ∈ (range a.slots.size).map (Handle.mk : Nat → Handle tag),
      (a.push x).contains h = a.contains h := by
    intro h hMem
    obtain ⟨i, hLess, rfl⟩ := mem_map.mp hMem
    have hOther : (⟨i⟩ : Handle tag) ≠ a.next := by
      simp [next, (mem_range.mp hLess).ne]
    rw [contains, get?_push, if_neg hOther, contains]
  have hNew : (a.push x).contains a.next = true := by
    rw [contains, get?_push, if_pos rfl]
    rfl
  have hSize : (a.push x).slots.size = a.slots.size + 1 := by simp [push]
  unfold handles
  rw [hSize, range_succ, map_append, filter_append, filter_congr hOld]
  exact congrArg _ (filter_cons_of_pos hNew)

theorem handles_set (hGet : a.get? h = some x) (y : α) : (a.set h y).handles = a.handles := by
  unfold handles
  rw [slots_set]
  refine filter_congr fun k _ => ?_
  rw [contains, get?_set hGet, contains]
  split
  next hSame =>
    rw [hSame, hGet]
    rfl
  next => rfl

theorem handles_remove (a : Arena tag α) (h : Handle tag) :
    (a.remove h).handles = a.handles.erase h := by
  rw [(nodup_handles a).erase_eq_filter]
  unfold handles
  rw [slots_remove, filter_filter]
  refine filter_congr fun k _ => ?_
  rw [contains, get?_remove, contains]
  by_cases hSame : k = h <;> simp [hSame]

------
-- The past tells
------

/- What is kept beside an arena agrees with it. -/
structure Sound (s : Lived tag α) : Prop where
  given : givenIn s.past = (range s.arena.slots.size).map Handle.mk
  named (h : Handle tag) : s.arena.get? h = namedBy s.past h
  live : s.arena.live = s.arena.handles.length

theorem namedBy_append (past : List (Event tag α)) (e : Event tag α) (h : Handle tag) :
    namedBy (past ++ [e]) h = e.update h (namedBy past h) := by
  simp [namedBy]

theorem givenIn_append (past : List (Event tag α)) (e : Event tag α) :
    givenIn (past ++ [e]) = givenIn past ++ e.given?.toList := by
  simp only [givenIn, filterMap_append]
  cases e <;> rfl

variable {s s' : Lived tag α} {family : List (Lived tag α)}

theorem sound_push (hSound : Sound s) (x : α) :
    Sound ⟨s.arena.push x, s.past ++ [.given s.arena.next x]⟩ where
  given := by
    have hSize : (s.arena.push x).slots.size = s.arena.slots.size + 1 := by simp [push]
    rw [givenIn_append, hSound.given, hSize, range_succ, map_append]
    rfl
  named h := by rw [get?_push, namedBy_append, ← hSound.named, Event.update]
  live := by
    rw [handles_push, length_append, ← hSound.live]
    rfl

theorem sound_remove (hSound : Sound s) (h : Handle tag) :
    Sound ⟨s.arena.remove h, s.past ++ [.removed h]⟩ where
  given := by
    rw [givenIn_append, hSound.given, slots_remove]
    exact append_nil _
  named k := by rw [get?_remove, namedBy_append, ← hSound.named, Event.update]
  live := by
    rw [handles_remove]
    unfold remove
    split
    next hContains =>
      obtain ⟨x, hGet⟩ := Option.isSome_iff_exists.mp hContains
      rw [length_erase_of_mem (mem_handles_of_get? hGet), ← hSound.live]
    next hContains =>
      have hOut : h ∉ s.arena.handles := fun hMem => hContains (mem_filter.mp hMem).2
      rw [erase_of_not_mem hOut, ← hSound.live]

theorem sound_changed (hSound : Sound s) (hGet : s.arena.get? h = some x) (change : α → α) :
    Sound ⟨s.arena.set h (change x), s.past ++ [.changed h change]⟩ where
  given := by
    rw [givenIn_append, hSound.given, slots_set]
    exact append_nil _
  named k := by
    rw [get?_set hGet, namedBy_append, ← hSound.named, Event.update]
    split
    next hSame =>
      rw [hSame, hGet]
      rfl
    next => rfl
  live := by
    rw [handles_set hGet, ← hSound.live]
    unfold set
    split <;> rfl

theorem Uses.sound (hUses : Uses s s') (hSound : Sound s) : Sound s' := by
  cases hUses with
  | alloc x => exact sound_push hSound x
  | remove h => exact sound_remove hSound h
  | modify hModify =>
    obtain ⟨x, hGet, rfl⟩ := modify_eq_ok.mp hModify
    exact sound_changed hSound hGet _
  | set h y =>
    cases hGet : s.arena.get? h with
    | some x => exact sound_changed hSound hGet fun _ => y
    | none =>
      have hSame : s.arena.set h y = s.arena := by simp [Arena.set, contains, hGet]
      rw [hSame]
      refine ⟨?_, fun k => ?_, hSound.live⟩
      · rw [givenIn_append, hSound.given]
        exact append_nil _
      · rw [namedBy_append, ← hSound.named, Event.update]
        split
        next hSame => simp [hSame, hGet]
        next => rfl

theorem Family.sound (hFamily : Family family) (hMem : s ∈ family) : Sound s := by
  induction hFamily generalizing s with
  | new =>
    cases mem_singleton.mp hMem
    exact ⟨rfl, fun _ => rfl, rfl⟩
  | use _ hAt hUses ih =>
    rcases mem_or_eq_of_mem_set hMem with hIn | rfl
    · exact ih hIn
    · exact hUses.sound (ih (mem_of_getElem? hAt))
  | copy _ hMem' ih =>
    rcases mem_append.mp hMem with hIn | hIn
    · exact ih hIn
    · exact ih (mem_singleton.mp hIn ▸ hMem')

/-
  An arena that gave fewer than 2³² handles gave none of them
  twice, and gives another one next, all of 32 bits.  A
  handle names what its past tells.  The handles that name
  something are counted and listed, in the order in which they
  were given.
-/
theorem refines_past (hFamily : Family family) (hMem : s ∈ family)
    (hFew : (givenIn s.past).length < 2 ^ 32) :
    (givenIn s.past).Nodup ∧ (∀ x, (s.arena.alloc x).1 ∉ givenIn s.past) ∧
      (∀ h, h = s.arena.next ∨ h ∈ givenIn s.past → Handle.ofNumber h.index = h) ∧
      (∀ h, s.arena.get? h = namedBy s.past h) ∧
      (∀ h, h ∉ givenIn s.past → s.arena.get? h = none) ∧
      s.arena.size = ((givenIn s.past).filter fun h => (namedBy s.past h).isSome).length ∧
      s.arena.handles = (givenIn s.past).filter (fun h => (namedBy s.past h).isSome) ∧
      s.arena.entries = (givenIn s.past).filterMap
        fun h => (namedBy s.past h).map fun x => (h, x) := by
  have hSound := hFamily.sound hMem
  have hHandles : s.arena.handles = (givenIn s.past).filter fun h => (namedBy s.past h).isSome := by
    rw [handles, hSound.given]
    exact filter_congr fun h _ => by rw [contains, hSound.named]
  have hIndex {h : Handle tag} (hGiven : h ∈ givenIn s.past) : h.index < s.arena.slots.size := by
    rw [hSound.given] at hGiven
    obtain ⟨i, hLess, rfl⟩ := mem_map.mp hGiven
    exact mem_range.mp hLess
  have hSize : (givenIn s.past).length = s.arena.slots.size := by simp [hSound.given]
  refine ⟨?_, fun x hGiven => (hIndex hGiven).ne rfl, ?_, hSound.named, ?_, ?_, hHandles, ?_⟩
  · rw [hSound.given]
    exact nodup_range.map fun _ _ hSame => congrArg Handle.index hSame
  · intro h hKnown
    have hLess : h.index < 2 ^ 32 := by
      rcases hKnown with rfl | hGiven
      · exact hSize.ge.trans_lt hFew
      · exact (hIndex hGiven).trans (hSize.ge.trans_lt hFew)
    exact congrArg Handle.mk (Nat.mod_eq_of_lt hLess)
  · intro h hOut
    by_contra hSome
    obtain ⟨x, hGet⟩ := Option.ne_none_iff_exists'.mp hSome
    have hListed := mem_handles_of_get? hGet
    rw [hHandles] at hListed
    exact hOut (mem_filter.mp hListed).1
  · rw [size, hSound.live, hHandles]
  · rw [entries, hHandles, filterMap_filter]
    refine filterMap_congr fun h _ => ?_
    rw [hSound.named]
    cases namedBy s.past h <;> rfl

/- One of two entities is removed, twice, and the other one is changed; the copy has both. -/
theorem twins_refine_past : ∃ s t : Lived "n" Nat, Family [s, t] ∧
    s.arena.entries = [(⟨1⟩, 9)] ∧ s.arena.size = 1 ∧ t.arena.entries = [(⟨0⟩, 7), (⟨1⟩, 8)] := by
  have hOne := Family.use (i := 0) .new rfl (.alloc ({} : Lived "n" Nat) 7)
  have hBoth := (hOne.use (i := 0) rfl (.alloc _ 8)).copy mem_cons_self
  have hTwins := ((hBoth.use (i := 0) rfl (.remove _ ⟨0⟩)).use (i := 0) rfl (.remove _ ⟨0⟩)).use
    (i := 0) rfl (@Uses.modify _ _ _ ⟨1⟩ (· + 1) _ rfl)
  obtain ⟨_, _, _, _, _, hSize, _, hEntries⟩ := refines_past hTwins mem_cons_self (by decide)
  obtain ⟨_, _, _, _, _, _, _, hEntries'⟩ :=
    refines_past hTwins (mem_cons_of_mem _ mem_cons_self) (by decide)
  exact ⟨_, _, hTwins, hEntries, hSize, hEntries'⟩

end Arena

end AffineIR
