import AffineIR.Graph.Erasure
import AffineIR.Proofs.Graph.Editing
import Mathlib.Data.List.Nodup
import Mathlib.Data.Set.Insert

/-
  Links between the entities of a graph.

  An entity that is held by another one names its holder, and
  the holder lists it.  Links that match go both ways: what is
  listed names the holder, and what names a holder is listed
  there, once.  Operand positions and values, operations and
  blocks, blocks and regions, regions and operations are linked
  in this way; values and what defines them even one to one.

  Main declarations:
    * `Graph.ValuesMatch`, `Graph.PlacesMatch`, `Graph.Coherent`
-/

namespace AffineIR

open List

------
-- Matching links
------

/-
  What names its holder, if it has one, is listed by the
  holder once, and by no other one.
-/
structure Links {α β : Type} [DecidableEq α] [DecidableEq β] (holder : α → Option β)
    (lists : β → Option (List α)) : Prop where
  count {p : β} {xs : List α} (hLists : lists p = some xs) (c : α) :
    xs.count c = if holder c = some p then 1 else 0
  live {c : α} {p : β} (hHolder : holder c = some p) : ∃ xs, lists p = some xs

namespace Links

variable {α β : Type} [DecidableEq α] [DecidableEq β] {holder holder' : α → Option β}
  {lists lists' : β → Option (List α)} {c : α} {p q : β} {xs ys : List α}

section

variable (hLinks : Links holder lists)

include hLinks

theorem mem_iff (hLists : lists p = some xs) : c ∈ xs ↔ holder c = some p := by
  have hCount := hLinks.count hLists c
  rw [← count_pos_iff, hCount]
  by_cases hHolder : holder c = some p <;> simp [hHolder]

theorem congr (hHolder : holder' = holder) (hLists : lists' = lists) : Links holder' lists' := by
  rwa [hHolder, hLists]

/- A holder that lists nothing yet. -/
theorem new (hFresh : lists p = none)
    (hLists : ∀ q, lists' q = if q = p then some [] else lists q) : Links holder lists' where
  count {q ys} hHere c := by
    rw [hLists] at hHere
    by_cases hSame : q = p
    · subst hSame
      rw [if_pos rfl, Option.some.injEq] at hHere
      have hOther : holder c ≠ some q := by
        intro hHolder
        obtain ⟨xs, hSome⟩ := hLinks.live hHolder
        cases hFresh.symm.trans hSome
      rw [if_neg hOther, ← hHere, count_nil]
    · rw [if_neg hSame] at hHere
      exact hLinks.count hHere c
  live {c q} hHolder := by
    obtain ⟨xs, hSome⟩ := hLinks.live hHolder
    have hOther : q ≠ p := by
      intro hSame
      rw [hSame, hFresh] at hSome
      cases hSome
    exact ⟨xs, by rw [hLists, if_neg hOther, hSome]⟩

/- An entity without a holder gets one. -/
theorem add (hFree : holder c = none) (hHere : lists p = some xs) (hMore : ys.Perm (c :: xs))
    (hHolder : ∀ d, holder' d = if d = c then some p else holder d)
    (hLists : ∀ q, lists' q = if q = p then some ys else lists q) : Links holder' lists' where
  count {q zs} hThere d := by
    rw [hLists] at hThere
    rw [hHolder]
    by_cases hSame : q = p
    · subst hSame
      rw [if_pos rfl, Option.some.injEq] at hThere
      rw [← hThere, hMore.count_eq, count_cons, hLinks.count hHere]
      by_cases hNew : d = c
      · subst hNew
        simp [hFree]
      · have hOther : c ≠ d := fun h => hNew h.symm
        simp [hNew, hOther]
    · rw [if_neg hSame] at hThere
      rw [hLinks.count hThere]
      by_cases hNew : d = c
      · subst hNew
        simp [hFree, Ne.symm hSame]
      · rw [if_neg hNew]
  live {d q} hThere := by
    rw [hHolder] at hThere
    by_cases hSame : q = p
    · exact ⟨ys, by rw [hLists, if_pos hSame]⟩
    · rw [hLists, if_neg hSame]
      by_cases hNew : d = c
      · rw [if_pos hNew, Option.some.injEq] at hThere
        exact absurd hThere.symm hSame
      · rw [if_neg hNew] at hThere
        exact hLinks.live hThere

/-
  Some entities and holders go away.  What is left has a holder
  that is left, which lists what it listed apart from the others.
-/
theorem prune (gone : Set α) (away : Set β)
    (hKept : ∀ {c p}, holder c = some p → c ∉ gone → p ∉ away)
    (hHolder : ∀ c p, holder' c = some p ↔ c ∉ gone ∧ holder c = some p)
    (hLists : ∀ {p ys}, lists' p = some ys → ∃ xs, lists p = some xs ∧
      ∀ c, (c ∈ gone → c ∉ ys) ∧ (c ∉ gone → ys.count c = xs.count c))
    (hLive : ∀ {p xs}, lists p = some xs → p ∉ away → ∃ ys, lists' p = some ys) :
    Links holder' lists' where
  count {p ys} hThere c := by
    obtain ⟨xs, hBefore, hSame⟩ := hLists hThere
    have hHeld := hHolder c p
    by_cases hGone : c ∈ gone
    · rw [count_eq_zero.mpr ((hSame c).1 hGone), if_neg fun h => (hHeld.mp h).1 hGone]
    · rw [(hSame c).2 hGone, hLinks.count hBefore]
      simp [hHeld, hGone]
  live {c p} hThere := by
    obtain ⟨hHere, hHeld⟩ := (hHolder c p).mp hThere
    obtain ⟨xs, hSome⟩ := hLinks.live hHeld
    exact hLive hSome (hKept hHeld hHere)

/- An entity loses its holder. -/
theorem remove (hHere : lists p = some xs) (hHeld : holder c = some p)
    (hHolder : ∀ d, holder' d = if d = c then none else holder d)
    (hLists : ∀ q, lists' q =
      if q = p then some (xs.filter (· ≠ c)) else lists q) :
    Links holder' lists' := by
  refine hLinks.prune {c} ∅ (by simp) (fun d q => ?_) (fun {q ys} hThere => ?_)
    (fun {q ys} hBefore _ => ?_)
  · rw [hHolder]
    by_cases hSame : d = c <;> simp [hSame]
  · rw [hLists] at hThere
    by_cases hSame : q = p
    · subst hSame
      rw [if_pos rfl, Option.some.injEq] at hThere
      subst hThere
      refine ⟨xs, hHere, fun d => ⟨fun hGone => by simp [Set.mem_singleton_iff.mp hGone], ?_⟩⟩
      exact fun hOther => count_filter (by simpa using hOther)
    · rw [if_neg hSame] at hThere
      refine ⟨ys, hThere, fun d => ⟨fun hGone hMem => hSame ?_, fun _ => rfl⟩⟩
      rw [hLinks.mem_iff hThere, Set.mem_singleton_iff.mp hGone, hHeld] at hMem
      exact (Option.some.inj hMem).symm
  · rw [hLists]
    by_cases hSame : q = p
    · exact ⟨_, if_pos hSame⟩
    · exact ⟨ys, (if_neg hSame).trans hBefore⟩

/- All that one holder has goes to another one. -/
theorem redirect (hOther : p ≠ q) (hSource : lists p = some xs) (hTarget : lists q = some ys)
    (hHolder : ∀ d, holder' d =
      if holder d = some p then some q else holder d)
    (hLists : ∀ s, lists' s =
      if s = q then some (ys ++ xs)
      else if s = p then some []
      else lists s) :
    Links holder' lists' where
  count {s zs} hThere d := by
    rw [hLists] at hThere
    rw [hHolder]
    by_cases hLast : s = q
    · subst hLast
      rw [if_pos rfl, Option.some.injEq] at hThere
      rw [← hThere, count_append, hLinks.count hSource, hLinks.count hTarget]
      by_cases hMoved : holder d = some p
      · simp [hMoved, hOther]
      · simp [hMoved]
    · rw [if_neg hLast] at hThere
      by_cases hFirst : s = p
      · subst hFirst
        rw [if_pos rfl, Option.some.injEq] at hThere
        subst hThere
        by_cases hMoved : holder d = some s
        · simp [hMoved, Ne.symm hOther]
        · simp [hMoved]
      · rw [if_neg hFirst] at hThere
        rw [hLinks.count hThere]
        by_cases hMoved : holder d = some p
        · simp [hMoved, Ne.symm hFirst, Ne.symm hLast]
        · rw [if_neg hMoved]
  live {d s} hThere := by
    rw [hLists]
    by_cases hLast : s = q
    · exact ⟨_, if_pos hLast⟩
    · rw [if_neg hLast]
      by_cases hFirst : s = p
      · exact ⟨_, if_pos hFirst⟩
      · rw [hHolder] at hThere
        rw [if_neg hFirst]
        by_cases hMoved : holder d = some p
        · rw [if_pos hMoved, Option.some.injEq] at hThere
          exact absurd hThere.symm hLast
        · rw [if_neg hMoved] at hThere
          exact hLinks.live hThere

/- Holders that go away take all with them that they hold. -/
theorem restrict (gone : Set α) (away : Set β)
    (hKept : ∀ c p, holder c = some p → (c ∈ gone ↔ p ∈ away))
    (hHolder : ∀ c p, holder' c = some p ↔ c ∉ gone ∧ holder c = some p)
    (hLists : ∀ p xs, lists' p = some xs ↔ p ∉ away ∧ lists p = some xs) :
    Links holder' lists' := by
  refine hLinks.prune gone away (fun hHeld hHere => mt (hKept _ _ hHeld).mpr hHere) hHolder
    (fun {p ys} hThere => ?_) (fun {p xs} hBefore hStays => ⟨xs, (hLists p xs).mpr ⟨hStays, hBefore⟩⟩)
  obtain ⟨hStays, hBefore⟩ := (hLists p ys).mp hThere
  refine ⟨ys, hBefore, fun c => ⟨fun hGone hMem => hStays ?_, fun _ => rfl⟩⟩
  exact (hKept c p ((hLinks.mem_iff hBefore).mp hMem)).mp hGone

end

end Links

------
-- Arenas
------

namespace Arena

variable {tag : String} {α β : Type} {a : Arena tag α} {h : Handle tag} {x y : α}

theorem get?_remove (a : Arena tag α)
    (h k : Handle tag) : (a.remove h).get? k = if k = h then none else a.get? k := by
  unfold remove
  cases hGet : a.get? h with
  | none =>
    have hContains : a.contains h = false := by
      unfold contains
      rw [hGet]
      rfl
    rw [hContains]
    by_cases hSame : k = h
    · subst hSame
      simp [hGet]
    · simp [hSame]
  | some x =>
    rw [if_pos (contains_of_get? hGet)]
    exact get?_setIfInBounds _ _ _ _ (index_lt_of_get? hGet) k

theorem get?_foldl_remove (a : Arena tag α) (hs : List (Handle tag))
    (k : Handle tag) : (hs.foldl remove a).get? k = if k ∈ hs then none else a.get? k := by
  induction hs generalizing a with
  | nil => simp
  | cons h hs ih =>
    rw [foldl_cons, ih, get?_remove]
    by_cases hSame : k = h
    · simp [hSame]
    · simp [hSame]

/- One part of the entities of an arena. -/
def view (a : Arena tag α) (part : α → β) (h : Handle tag) : Option β := (a.get? h).map part

variable {part : α → β}

theorem view_eq_some {p : β} : a.view part h = some p ↔ ∃ x, a.get? h = some x ∧ part x = p :=
  Option.map_eq_some_iff

theorem view_next (a : Arena tag α) (part : α → β) : a.view part a.next = none := by
  unfold view
  rw [get?_next]
  rfl

theorem view_push (a : Arena tag α) (x : α) (part : α → β) (k : Handle tag) :
    (a.push x).view part k =
      if k = a.next then some (part x) else a.view part k := by
  unfold view
  rw [get?_push]
  split <;> rfl

theorem view_set (hGet : a.get? h = some x) (part : α → β) (k : Handle tag) :
    (a.set h y).view part k =
      if k = h then some (part y) else a.view part k := by
  unfold view
  rw [get?_set hGet]
  split <;> rfl

/- Changing an entity elsewhere does not change a part. -/
theorem view_set_eq (hGet : a.get? h = some x)
    (hPart : part y = part x) : (a.set h y).view part = a.view part := by
  funext k
  rw [view_set hGet]
  by_cases hSame : k = h
  · rw [if_pos hSame, hSame, hPart]
    unfold view
    rw [hGet]
    rfl
  · rw [if_neg hSame]

end Arena

------
-- Links of graphs
------

namespace Graph

variable (g : Graph)

/- The value at an operand position. -/
def operandAt (u : Use) : Option ValueId :=
  (g.ops.view Operation.operands u.op).bind (·[u.operand]?)

/- The block that an operation names. -/
def blockOf (x : OpId) : Option BlockId := (g.ops.view Operation.parent x).join

/- The operation that a region names. -/
def holderOf (r : RegionId) : Option OpId := (g.regions.view Region.parent r).join

/- The value that is defined at a place. -/
def definedBy : Definer → Option ValueId
  | .result x i => (g.ops.view Operation.results x).bind (·[i]?)
  | .argument b i => (g.blocks.view Block.args b).bind (·[i]?)

theorem definedBy_result (x : OpId) (i : Nat) :
    g.definedBy (.result x i) = (g.ops.view Operation.results x).bind (·[i]?) := rfl

theorem definedBy_argument (b : BlockId) (i : Nat) :
    g.definedBy (.argument b i) = (g.blocks.view Block.args b).bind (·[i]?) := rfl

/- Operands and uses match, and values and what defines them. -/
structure ValuesMatch : Prop where
  uses : Links g.operandAt (g.values.view Value.uses)
  definers (v : ValueId) (d : Definer) :
    g.values.view Value.definer v = some d ↔ g.definedBy d = some v

/- What is placed matches what lists it. -/
structure PlacesMatch : Prop where
  ops : Links g.blockOf (g.blocks.view Block.ops)
  blocks : Links (g.blocks.view Block.parent) (g.regions.view Region.blocks)
  regions : Links g.holderOf (g.ops.view Operation.regions)

/- All links of a graph match. -/
structure Coherent : Prop where
  values : g.ValuesMatch
  places : g.PlacesMatch

variable {g} {g' : Graph}

theorem operandAt_congr (hSame : g'.ops.view Operation.operands = g.ops.view Operation.operands) :
    g'.operandAt = g.operandAt := by
  unfold operandAt
  rw [hSame]

theorem blockOf_congr (hSame : g'.ops.view Operation.parent = g.ops.view Operation.parent) :
    g'.blockOf = g.blockOf := by
  unfold blockOf
  rw [hSame]

/- An operation whose parent is set names that block. -/
theorem blockOf_set {x : OpId} {o : Operation} {place : Option BlockId}
    (hOp : g.ops.get? x = some o) (hOps : g'.ops = g.ops.set x { o with parent := place })
    (y : OpId) : g'.blockOf y = if y = x then place else g.blockOf y := by
  unfold blockOf
  rw [hOps, Arena.view_set hOp]
  split <;> rfl

theorem holderOf_congr (hSame : g'.regions.view Region.parent = g.regions.view Region.parent) :
    g'.holderOf = g.holderOf := by
  unfold holderOf
  rw [hSame]

theorem definedBy_congr (hResults : g'.ops.view Operation.results = g.ops.view Operation.results)
    (hArgs : g'.blocks.view Block.args = g.blocks.view Block.args) :
    g'.definedBy = g.definedBy := by
  funext d
  cases d with
  | result x i => rw [definedBy_result, definedBy_result, hResults]
  | argument b i => rw [definedBy_argument, definedBy_argument, hArgs]

/- Other operands, and the same values at the same places. -/
theorem ValuesMatch.rewire (hMatch : g.ValuesMatch)
    (hUses : Links g'.operandAt (g'.values.view Value.uses))
    (hDefiners : g'.values.view Value.definer = g.values.view Value.definer)
    (hDefined : g'.definedBy = g.definedBy) : g'.ValuesMatch where
  uses := hUses
  definers := by
    rw [hDefiners, hDefined]
    exact hMatch.definers

theorem ValuesMatch.congr (hMatch : g.ValuesMatch) (hOperands : g'.operandAt = g.operandAt)
    (hDefined : g'.definedBy = g.definedBy) (hValues : g'.values = g.values) : g'.ValuesMatch := by
  refine hMatch.rewire ?_ (by rw [hValues]) hDefined
  rw [hOperands, hValues]
  exact hMatch.uses

end Graph

end AffineIR
