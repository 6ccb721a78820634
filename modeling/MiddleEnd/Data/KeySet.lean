import MiddleEnd.Key

/-!
# Sets of keys

A set of keys is kept as a strictly ascending list, so that it is read in key order and equal sets
are equal as values.
-/

namespace MiddleEnd

structure KeySet (κ : Type) [Key κ] where
  toList : List κ
  ascending : toList.Pairwise fun a b => Key.index a < Key.index b

namespace KeySet

variable {κ : Type} [Key κ]

def insertInto (k : κ) : List κ → List κ
  | [] => [k]
  | x :: xs =>
    if Key.index k < Key.index x then k :: x :: xs
    else if Key.index k = Key.index x then x :: xs
    else x :: insertInto k xs

theorem mem_insertInto {k a : κ} {xs : List κ} : a ∈ insertInto k xs ↔ a = k ∨ a ∈ xs := by
  induction xs with
  | nil => simp [insertInto]
  | cons x xs ih =>
    unfold insertInto
    split
    · simp
    · split
      · rename_i h
        have : k = x := Key.index_inj h
        subst this
        simp
      · simp only [List.mem_cons, ih]
        constructor
        · rintro (h | h | h)
          · exact .inr (.inl h)
          · exact .inl h
          · exact .inr (.inr h)
        · rintro (h | h | h)
          · exact .inr (.inl h)
          · exact .inl h
          · exact .inr (.inr h)

theorem ascending_insertInto (k : κ) {xs : List κ}
    (h : xs.Pairwise fun a b => Key.index a < Key.index b) :
    (insertInto k xs).Pairwise fun a b => Key.index a < Key.index b := by
  induction xs with
  | nil => exact List.pairwise_singleton _ _
  | cons x xs ih =>
    rw [List.pairwise_cons] at h
    unfold insertInto
    split
    · rename_i hlt
      refine List.pairwise_cons.2 ⟨fun a ha => ?_, List.pairwise_cons.2 h⟩
      rcases List.mem_cons.1 ha with rfl | ha
      · exact hlt
      · exact Nat.lt_trans hlt (h.1 a ha)
    · split
      · exact List.pairwise_cons.2 h
      · rename_i hlt hne
        refine List.pairwise_cons.2 ⟨fun a ha => ?_, ih h.2⟩
        rcases mem_insertInto.1 ha with rfl | ha
        · omega
        · exact h.1 a ha

def empty : KeySet κ := ⟨[], List.Pairwise.nil⟩

instance : EmptyCollection (KeySet κ) := ⟨empty⟩
instance : Inhabited (KeySet κ) := ⟨empty⟩

def insert (s : KeySet κ) (k : κ) : KeySet κ :=
  ⟨insertInto k s.toList, ascending_insertInto k s.ascending⟩

def ofList (xs : List κ) : KeySet κ :=
  xs.foldl insert empty

instance : Membership κ (KeySet κ) := ⟨fun s k => k ∈ s.toList⟩

def isEmpty (s : KeySet κ) : Bool := s.toList.isEmpty

def size (s : KeySet κ) : Nat := s.toList.length

section

variable [DecidableEq κ]

def contains (s : KeySet κ) (k : κ) : Bool := decide (k ∈ s.toList)

def erase (s : KeySet κ) (k : κ) : KeySet κ :=
  ⟨s.toList.filter (· ≠ k), s.ascending.filter _⟩

end

@[simp]
theorem mem_insert {s : KeySet κ} {k a : κ} : a ∈ s.insert k ↔ a = k ∨ a ∈ s :=
  mem_insertInto

@[simp]
theorem not_mem_empty {a : κ} : ¬ a ∈ (empty : KeySet κ) := List.not_mem_nil

@[simp]
theorem mem_erase [DecidableEq κ] {s : KeySet κ} {k a : κ} : a ∈ s.erase k ↔ a ∈ s ∧ a ≠ k := by
  show a ∈ s.toList.filter (· ≠ k) ↔ a ∈ s.toList ∧ a ≠ k
  simp

end KeySet

end MiddleEnd
