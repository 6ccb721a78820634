import MiddleEnd.Fault

/-!
# Dictionaries

A dictionary lists its entries in the order in which their keys first came in. Writing a key again
changes its entry in place.
-/

namespace MiddleEnd

structure Dict (κ α : Type) where
  entries : List (κ × α) := []
  deriving Repr, Inhabited

namespace Dict

variable {κ α : Type} [DecidableEq κ]

def find (k : κ) : List (κ × α) → Option α
  | [] => none
  | (k', a) :: rest => if k' = k then some a else find k rest

def write (k : κ) (a : α) : List (κ × α) → List (κ × α)
  | [] => [(k, a)]
  | (k', a') :: rest => if k' = k then (k, a) :: rest else (k', a') :: write k a rest

instance : EmptyCollection (Dict κ α) := ⟨⟨[]⟩⟩

def get? (d : Dict κ α) (k : κ) : Option α := find k d.entries

def get (d : Dict κ α) (k : κ) : Checked α := .ofOption .entryAbsent (d.get? k)

def contains (d : Dict κ α) (k : κ) : Bool := (d.get? k).isSome

def insert (d : Dict κ α) (k : κ) (a : α) : Dict κ α := ⟨write k a d.entries⟩

def erase (d : Dict κ α) (k : κ) : Dict κ α := ⟨d.entries.filter (·.1 ≠ k)⟩

def keys (d : Dict κ α) : List κ := d.entries.map (·.1)

theorem find_write (k k' : κ) (a : α) (xs : List (κ × α)) :
    find k' (write k a xs) = if k = k' then some a else find k' xs := by
  induction xs with
  | nil => simp [write, find]
  | cons p xs ih =>
    obtain ⟨k₀, a₀⟩ := p
    unfold write
    by_cases h₀ : k₀ = k
    · subst h₀
      by_cases h : k₀ = k' <;> simp [find, h]
    · by_cases h : k₀ = k'
      · subst h
        have : ¬ k = k₀ := fun e => h₀ e.symm
        simp [find, h₀, this]
      · simp [find, h₀, h, ih]

@[simp]
theorem get?_insert (d : Dict κ α) (k k' : κ) (a : α) :
    (d.insert k a).get? k' = if k = k' then some a else d.get? k' :=
  find_write k k' a d.entries

theorem find_filter_ne (k k' : κ) (xs : List (κ × α)) :
    find k' (xs.filter (·.1 ≠ k)) = if k = k' then none else find k' xs := by
  induction xs with
  | nil => simp [find]
  | cons p xs ih =>
    obtain ⟨k₀, a₀⟩ := p
    by_cases h₀ : k₀ = k
    · subst h₀
      by_cases h : k₀ = k'
      · subst h
        simpa [find] using ih
      · simpa [find, h] using ih
    · by_cases h : k₀ = k'
      · subst h
        have : ¬ k = k₀ := fun e => h₀ e.symm
        simp [find, h₀, this]
      · simpa [find, h₀, h] using ih

@[simp]
theorem get?_erase (d : Dict κ α) (k k' : κ) :
    (d.erase k).get? k' = if k = k' then none else d.get? k' :=
  find_filter_ne k k' d.entries

end Dict

end MiddleEnd
