import AffineIR.Handle

/-
  Tables: partial maps from handles.

  The entry of a handle is kept in the cell with its index, so
  reading and writing take the same time for all handles.

  Key definitions include:
    * `Table.insert`
-/

namespace AffineIR

structure Table (tag : String) (α : Type) where
  cells : Array (Option α) := #[]

namespace Table

variable {tag : String} {α : Type}

instance : Inhabited (Table tag α) :=
  ⟨{}⟩

def get? (t : Table tag α) (h : Handle tag) : Option α :=
  t.cells[h.index]?.join

/- Cells for all indices up to the given one. -/
def grow (cells : Array (Option α)) (n : Nat) : Array (Option α) :=
  if n < cells.size then cells
  else cells ++ Array.replicate (n + 1 - cells.size) none

def insert (t : Table tag α) (h : Handle tag) (x : α) : Table tag α :=
  ⟨(grow t.cells h.index).setIfInBounds h.index (some x)⟩

end Table

end AffineIR
