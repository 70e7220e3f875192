import AffineIR.Proofs.Memory.Interference
import AffineIR.Proofs.Run.Pacts

/-
  Every element of a buffer has one place in its contents.

  Row-major addressing goes one to one from the indices inside
  a shape to the positions below its number of elements.  The
  contents of a buffer have as many entries as its shape has
  elements when it is created, and no run changes that.

  Main result: `Function.addressing_in_range`
-/

namespace AffineIR

------
-- Shapes
------

namespace Shape

variable {shape : Shape} {indices : List Int} {total offset n r : Nat}

/- One index for each dimension, and each within its extent. -/
def Inside (shape : Shape) (indices : List Int) : Prop :=
  List.Forall₂ (fun extent index => 0 ≤ index ∧ index < extent) shape indices

theorem productFrom_cons {extent : Int} (hProduct : productFrom total (extent :: shape) = .ok n) :
    total * extent.toNat < 2 ^ 64 ∧ productFrom (total * extent.toNat) shape = .ok n := by
  unfold productFrom Word.count at hProduct
  by_cases hFits : total * extent.toNat < Nat.pow 2 64
  · rw [if_pos hFits] at hProduct
    exact ⟨hFits, hProduct⟩
  · rw [if_neg hFits] at hProduct
    cases hProduct

/- The next index adds less than one step of those before it. -/
theorem next_lt {extent index : Int} (hLess : offset < total) (hLow : 0 ≤ index)
    (hHigh : index < extent) : offset * extent.toNat + index.toNat < total * extent.toNat := by
  calc offset * extent.toNat + index.toNat < offset * extent.toNat + extent.toNat := by omega
    _ = (offset + 1) * extent.toNat := (Nat.succ_mul ..).symm
    _ ≤ total * extent.toNat := Nat.mul_le_mul_right _ hLess

theorem offsetFrom_step {extent index : Int} (hLess : offset < total)
    (hFits : total * extent.toNat < 2 ^ 64) (hLow : 0 ≤ index) (hHigh : index < extent) :
    offsetFrom offset (extent :: shape) (index :: indices) =
      offsetFrom (offset * extent.toNat + index.toNat) shape indices := by
  have hNext := next_lt hLess hLow hHigh
  have hIn : ¬(index < 0 ∨ extent ≤ index) := by omega
  have hScaled : offset * extent.toNat < Nat.pow 2 64 := by
    change _ < 2 ^ 64
    omega
  have hSum : offset * extent.toNat + index.toNat < Nat.pow 2 64 := by
    change _ < 2 ^ 64
    omega
  rw [offsetFrom, if_neg hIn]
  simp only [Word.count, if_pos hScaled, if_pos hSum]

/- Indices inside a shape have a position, without overflow. -/
theorem offsetFrom_of_inside (hProduct : productFrom total shape = .ok n) (hLess : offset < total)
    (hInside : shape.Inside indices) : ∃ r < n, offsetFrom offset shape indices = .ok (some r) := by
  induction hInside generalizing total offset with
  | nil =>
    cases hProduct
    exact ⟨offset, hLess, rfl⟩
  | cons hIn hRest ih =>
    obtain ⟨hFits, hProduct⟩ := productFrom_cons hProduct
    rw [offsetFrom_step hLess hFits hIn.1 hIn.2]
    exact ih hProduct (next_lt hLess hIn.1 hIn.2)

/- Other indices have none. -/
theorem offsetFrom_of_not_inside (hProduct : productFrom total shape = .ok n)
    (hLess : offset < total)
    (hOutside : ¬shape.Inside indices) : offsetFrom offset shape indices = .ok none := by
  induction shape generalizing total offset indices with
  | nil =>
    cases indices with
    | nil => exact absurd .nil hOutside
    | cons index indices => rfl
  | cons extent shape ih =>
    cases indices with
    | nil => rfl
    | cons index indices =>
      by_cases hIn : 0 ≤ index ∧ index < extent
      · obtain ⟨hFits, hProduct⟩ := productFrom_cons hProduct
        rw [offsetFrom_step hLess hFits hIn.1 hIn.2]
        exact ih hProduct (next_lt hLess hIn.1 hIn.2) fun hRest => hOutside (.cons hIn hRest)
      · rw [offsetFrom, if_pos (by omega)]

/- Every position belongs to indices: quotients and remainders by the extents. -/
theorem exists_offsetFrom (hProduct : productFrom total shape = .ok n) (hLess : r < n) :
    ∃ offset < total, ∃ indices, shape.Inside indices ∧
      offsetFrom offset shape indices = .ok (some r) := by
  induction shape generalizing total with
  | nil =>
    cases hProduct
    exact ⟨r, hLess, [], .nil, rfl⟩
  | cons extent shape ih =>
    obtain ⟨hFits, hProduct⟩ := productFrom_cons hProduct
    obtain ⟨next, hNext, indices, hInside, hRest⟩ := ih hProduct
    have hPos : 0 < extent.toNat := Nat.pos_of_ne_zero fun hZero => by simp [hZero] at hNext
    have hOffset : next / extent.toNat < total := Nat.div_lt_of_lt_mul (Nat.mul_comm .. ▸ hNext)
    have hIndex := Nat.mod_lt next hPos
    refine ⟨next / extent.toNat, hOffset, (next % extent.toNat : Nat) :: indices,
      .cons (by omega) hInside, ?_⟩
    rw [offsetFrom_step hOffset hFits (by omega) (by omega), Int.toNat_natCast, Nat.mul_comm,
      Nat.div_add_mod]
    exact hRest

theorem offset?_of_inside (hCount : shape.numElements = .ok n)
    (hInside : shape.Inside indices) : ∃ r < n, shape.offset? indices = .ok (some r) := by
  rw [offset?, if_pos hInside.length_eq.symm]
  exact offsetFrom_of_inside hCount Nat.zero_lt_one hInside

theorem offset?_of_not_inside (hCount : shape.numElements = .ok n)
    (hOutside : ¬shape.Inside indices) : shape.offset? indices = .ok none := by
  unfold offset?
  split
  · exact offsetFrom_of_not_inside hCount Nat.zero_lt_one hOutside
  · rfl

theorem exists_offset? (hCount : shape.numElements = .ok n)
    (hLess : r < n) : ∃ indices, shape.Inside indices ∧ shape.offset? indices = .ok (some r) := by
  obtain ⟨offset, hZero, indices, hInside, hOffset⟩ := exists_offsetFrom hCount hLess
  have hStart : offset = 0 := by omega
  subst hStart
  refine ⟨indices, hInside, ?_⟩
  rwa [offset?, if_pos hInside.length_eq.symm]

theorem lt_of_offset? (hCount : shape.numElements = .ok n)
    (hOffset : shape.offset? indices = .ok (some r)) : r < n := by
  by_cases hInside : shape.Inside indices
  · obtain ⟨r', hLess, hOffset'⟩ := offset?_of_inside hCount hInside
    cases hOffset.symm.trans hOffset'
    exact hLess
  · cases hOffset.symm.trans (offset?_of_not_inside hCount hInside)

end Shape

------
-- Buffers
------

/- The contents of every buffer are as many as its shape has elements. -/
def Sized (buffers : Array Buffer) : Prop :=
  ∀ (id : Nat) (b : Buffer), buffers[id]? = some b → b.shape.numElements = .ok b.data.size

namespace Sized

variable {buffers : Array Buffer} {id : Nat}

theorem push {b : Buffer} (hSized : Sized buffers)
    (hSize : b.shape.numElements = .ok b.data.size) : Sized (buffers.push b) := by
  intro i b' hAt
  rw [Array.getElem?_push] at hAt
  split at hAt
  · cases hAt
    exact hSize
  · exact hSized i b' hAt

theorem modify {f : Buffer → Buffer} (hSized : Sized buffers)
    (hSame : ∀ b, (f b).shape = b.shape ∧ (f b).data.size = b.data.size) :
    Sized (buffers.modify id f) := by
  intro i b' hAt
  rw [Array.getElem?_modify] at hAt
  split at hAt
  · obtain ⟨b, hBefore, rfl⟩ := Option.map_eq_some_iff.mp hAt
    rw [(hSame b).1, (hSame b).2]
    exact hSized i b hBefore
  · exact hSized i b' hAt

end Sized

namespace Pact

/- Machines with sized buffers come to no element outside them. -/
def sized : Pact where
  holds m := Sized m.buffers
  shares e := ∀ id offset, e ≠ .overrun id offset
  own hOther id offset hSame := by
    subst hSame
    cases hOther

theorem keeps_sized (o : Operation) : sized.Keeps o where
  unbound _ _ _ := nofun
  overrun {_ id _ b _} hHolds hBuffer hOffset hOut := by
    have hLess := Shape.lt_of_offset? (hHolds id b hBuffer) hOffset
    omega
  scalar _ _ := id
  copy _ _ _ := id
  alloc _ hSize hHolds := hHolds.push hSize
  read _ _ _ := id
  write offset l _ _ hHolds := hHolds.modify (by simp)
  free _ _ hHolds := hHolds.modify (by simp)

theorem passes_sized (f : Function) (args : List Datum) : sized.Passes (f.run args) := by
  have hChain : Chain (fun _ => sized) f.graph fun _ => True :=
    { tick := sides_tick _ id fun _ hBuffers hSized => (hBuffers ▸ hSized : Sized _)
      keeps := fun _ _ _ _ _ => keeps_sized _
      branch := fun _ _ _ _ _ _ => trivial
      enter := fun _ _ _ _ _ _ _ => trivial }
  refine sides_run args (fun hHolds => hHolds) fun b k l _ hLimits => ?_
  cases hLimits
  have hBody := hChain.sides_blockUpTo (b := b) (i := 0) 0 0 (k + 1)
    (fun _ _ _ => .fail nofun) trivial (Nat.zero_le _)
  rwa [Nat.zero_add] at hBody

end Pact

theorem Sized.run {m : Machine} (hSized : Sized m.buffers) (f : Function) (args : List Datum) :
    Sized (Exec.outcome (f.run args) m).2.buffers ∧
      ∀ id offset, (Exec.outcome (f.run args) m).1 ≠ .error (.overrun id offset) := by
  rcases (Pact.passes_sized f args).same (.refl (m := m) rfl) hSized fun _ _ _ => id with
    ⟨_, _, hSized', hShares⟩
  exact ⟨hSized', fun id offset hSame => hShares _ hSame id offset rfl⟩

theorem Function.Session.sized {f : Function} {m : Machine}
    (hSession : f.Session m) : Sized m.buffers := by
  induction hSession with
  | new => exact nofun
  | limit n hBefore ih => exact ih
  | @alloc m ty init hBefore ih =>
    rcases Exec.outcome_allocBuffer ty init with ⟨e, _, hSame⟩ | ⟨b, hSize, hSame⟩
    · rw [hSame]
      exact ih
    · rw [hSame]
      exact ih.push hSize
  | run args hBefore ih => exact (ih.run f args).1

/-
  Addressing goes one to one from the indices inside a shape
  to the positions below its number of elements, and nowhere
  from other indices.  So over any allocations and runs the
  contents of buffers have the size of their shapes, and no
  run asks for an element outside them.
-/
theorem Function.addressing_in_range (f : Function) :
    (∀ (shape : Shape) (n : Nat), shape.numElements = .ok n →
      (∀ indices, shape.Inside indices → ∃ r < n, shape.offset? indices = .ok (some r)) ∧
      (∀ indices, ¬shape.Inside indices → shape.offset? indices = .ok none) ∧
      ∀ r < n, ∃! indices, shape.Inside indices ∧ shape.offset? indices = .ok (some r)) ∧
    ∀ m, f.Session m →
      (∀ (id : Nat) (b : Buffer), m.buffers[id]? = some b → b.shape.numElements = .ok b.data.size) ∧
      ∀ args id offset, ((f.run args).outcome m).1 ≠ .error (.overrun id offset) := by
  refine ⟨fun shape n hCount => ⟨?_, ?_, ?_⟩, fun m hSession => ⟨?_, ?_⟩⟩
  · exact fun indices => Shape.offset?_of_inside hCount
  · exact fun indices => Shape.offset?_of_not_inside hCount
  · intro r hLess
    obtain ⟨indices, hInside, hOffset⟩ := Shape.exists_offset? hCount hLess
    refine ⟨indices, ⟨hInside, hOffset⟩, fun indices' ⟨_, hOffset'⟩ => ?_⟩
    exact Shape.eq_of_offset? hOffset' hOffset
  · exact hSession.sized
  · exact fun args => (hSession.sized.run f args).2

theorem Function.addressing_in_range_storesAndLoad :
    (Shape.numElements [2, 3] = .ok 6 ∧
      ∃! indices, Shape.Inside [2, 3] indices ∧ Shape.offset? [2, 3] indices = .ok (some 4)) ∧
    ∀ args id offset,
      ((storesAndLoad.run args).outcome (Exec.outcome (Exec.allocBuffer (.memref [2] .i32) none)
        {}).2).1 ≠ .error (.overrun id offset) := by
  have hRange := addressing_in_range storesAndLoad
  exact ⟨⟨by decide, (hRange.1 [2, 3] 6 (by decide)).2.2 4 (by decide)⟩,
    (hRange.2 _ (.alloc _ none .new)).2⟩

end AffineIR
