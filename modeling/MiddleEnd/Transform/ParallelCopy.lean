/-!
# Parallel copies

A list of copies from sources to targets, meant to happen at once, is put into an order in which no
target is written before all copies that read it. Where copies form a cycle, one target is first
saved in a temporary, and the copies that read it read the temporary.
-/

namespace MiddleEnd.ParallelCopy

variable {α : Type} [DecidableEq α] {m : Type → Type} [Monad m]

def atOnce {β : Type} (copies : List (α × α)) (regs : α → β) : α → β := fun x =>
  match copies.find? (·.1 = x) with
  | some c => regs c.2
  | none => regs x

def inSequence {β : Type} (copies : List (α × α)) (regs : α → β) : α → β :=
  copies.foldl (fun regs c => fun x => if x = c.1 then regs c.2 else regs x) regs

theorem inSequence_cons {β : Type} (c : α × α) (copies : List (α × α)) (regs : α → β) :
    inSequence (c :: copies) regs =
      inSequence copies (fun x => if x = c.1 then regs c.2 else regs x) := rfl

def isFree (pending : List (α × α)) (c : α × α) : Bool := !pending.any (·.2 = c.1)

def redirect (old new : α) (copies : List (α × α)) : List (α × α) :=
  copies.map fun c => (c.1, if c.2 = old then new else c.2)

/-- Write the first target that is free; if there is none, save the first target. -/
def orderWithin (temp : α → m α) : Nat → List (α × α) → m (List (α × α))
  | 0, _ => pure []
  | _, [] => pure []
  | fuel + 1, c :: rest => do
    match (c :: rest).find? (isFree (c :: rest)) with
    | some free =>
      let later ← orderWithin temp fuel ((c :: rest).erase free)
      return free :: later
    | none =>
      let saved ← temp c.1
      let later ← orderWithin temp fuel (redirect c.1 saved (c :: rest))
      return (saved, c.1) :: later

/-- Order copies, given as pairs of target and source with different targets. `temp` yields a place
to save a target in. Each copy is written once, and each save in a place that no copy mentions makes
a copy free; copies mention at most two places each, so that four steps for each copy are enough
even if `temp` comes up with all of them first. -/
def order (temp : α → m α) (copies : List (α × α)) : m (List (α × α)) :=
  let pending := copies.filter fun c => c.1 ≠ c.2
  orderWithin temp (4 * pending.length) pending

end MiddleEnd.ParallelCopy
