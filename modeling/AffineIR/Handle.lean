/-
  Handles: typed names of the entities that a store holds.

  A handle is an index whose kind is part of its type, so that
  the handle of an operation cannot stand for a block.  The
  text of a handle is its tag followed by its index.  A number
  from outside names the entity at its lowest 32 bits.

  Key definitions include:
    * `OpId`, `BlockId`, `RegionId`, `ValueId`
-/

namespace AffineIR

/- An index into the store of the entities tagged `tag`. -/
structure Handle (tag : String) where
  index : Nat
deriving DecidableEq, Hashable, Inhabited, Repr

namespace Handle

variable {tag : String}

/- The handle that a number names: its lowest 32 bits count. -/
def ofNumber (n : Nat) : Handle tag :=
  ⟨n % Nat.pow 2 32⟩

/- The tag followed by the index, as in `op3`. -/
def text (h : Handle tag) : String :=
  tag ++ toString h.index

/- Handles are ordered by their indices. -/
instance : LT (Handle tag) :=
  ⟨fun a b => a.index < b.index⟩

instance (a b : Handle tag) : Decidable (a < b) :=
  inferInstanceAs (Decidable (a.index < b.index))

end Handle

abbrev OpId := Handle "op"

abbrev BlockId := Handle "bb"

abbrev RegionId := Handle "region"

abbrev ValueId := Handle "v"

end AffineIR
