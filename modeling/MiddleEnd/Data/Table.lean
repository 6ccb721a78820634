import MiddleEnd.Fault

/-!
# Tables

A table hands out a fresh key for every entry and never hands out a key twice, also after its entry
is gone. A side table attaches data to keys that some table handed out. Keys are unbounded, so a
table is never full.
-/

namespace MiddleEnd

/-- One slot for every key handed out; the slot of a removed entry is empty. -/
structure Table (κ α : Type) where
  slots : Array (Option α) := #[]
  deriving Repr, Inhabited

namespace Table

variable {κ α : Type} [Key κ]

def bound (t : Table κ α) : Nat := t.slots.size

def add (t : Table κ α) (a : α) : κ × Table κ α :=
  (Key.ofIndex t.slots.size, ⟨t.slots.push (some a)⟩)

def get? (t : Table κ α) (k : κ) : Option α := t.slots[Key.index k]?.join

def get (t : Table κ α) (k : κ) : Checked α := .ofOption .keyAbsent (t.get? k)

def contains (t : Table κ α) (k : κ) : Bool := (t.get? k).isSome

def set (t : Table κ α) (k : κ) (a : α) : Checked (Table κ α) :=
  if t.contains k then .ok ⟨t.slots.setIfInBounds (Key.index k) (some a)⟩ else .error .keyAbsent

def update (t : Table κ α) (k : κ) (f : α → α) : Table κ α :=
  ⟨t.slots.modify (Key.index k) (·.map f)⟩

def remove (t : Table κ α) (k : κ) : Checked (α × Table κ α) := do
  let a ← t.get k
  .ok (a, ⟨t.slots.setIfInBounds (Key.index k) none⟩)

def toList (t : Table κ α) : List (κ × α) :=
  t.slots.toList.zipIdx.filterMap fun (slot, n) => slot.map fun a => (Key.ofIndex n, a)

def keys (t : Table κ α) : List κ := t.toList.map (·.1)

def values (t : Table κ α) : List α := t.toList.map (·.2)

def size (t : Table κ α) : Nat := t.toList.length

def isEmpty (t : Table κ α) : Bool := t.size == 0

def map {β : Type} (f : α → β) (t : Table κ α) : Table κ β := ⟨t.slots.map (·.map f)⟩

end Table

/-- Data attached to keys. -/
structure SideTable (κ α : Type) where
  slots : Array (Option α) := #[]
  deriving Repr, Inhabited

namespace SideTable

variable {κ α : Type} [Key κ]

def get? (t : SideTable κ α) (k : κ) : Option α := t.slots[Key.index k]?.join

def get (t : SideTable κ α) (k : κ) : Checked α := .ofOption .dataAbsent (t.get? k)

def contains (t : SideTable κ α) (k : κ) : Bool := (t.get? k).isSome

def write (t : SideTable κ α) (k : κ) (slot : Option α) : SideTable κ α :=
  ⟨(t.slots ++ Array.replicate (Key.index k + 1 - t.slots.size) none).setIfInBounds
    (Key.index k) slot⟩

def attach (t : SideTable κ α) (k : κ) (a : α) : Checked (SideTable κ α) :=
  if t.contains k then .error .keyTaken else .ok (t.write k (some a))

def set (t : SideTable κ α) (k : κ) (a : α) : Checked (SideTable κ α) :=
  if t.contains k then .ok (t.write k (some a)) else .error .dataAbsent

def detach (t : SideTable κ α) (k : κ) : Option α × SideTable κ α :=
  match t.get? k with
  | some a => (some a, t.write k none)
  | none => (none, t)

end SideTable

end MiddleEnd
