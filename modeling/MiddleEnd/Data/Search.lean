import MiddleEnd.Fault

/-!
# Depth-first search

A search follows a list of neighbours for every node and visits each node once. It records the nodes
in the order in which they were finished, the last one first: a reverse post-order. Since a search
descends into unseen nodes only, the number of nodes bounds its depth.
-/

namespace MiddleEnd.Search

variable {α : Type} [DecidableEq α]

/-- The nodes met and the nodes finished so far, the latest first. -/
structure State (α : Type) where
  seen : List α := []
  finished : List α := []
  deriving Repr, Inhabited

/-- Visit a node and all that is reached from it through unseen nodes. A search that descends
further than `depth` nodes fails. -/
def visit (next : α → Checked (List α)) (depth : Nat) (s : State α) (x : α) : Checked (State α) :=
  if x ∈ s.seen then .ok s
  else match depth with
    | 0 => .error .unfinished
    | depth + 1 => do
      let s ← (← next x).foldlM (visit next depth) { s with seen := x :: s.seen }
      .ok { s with finished := x :: s.finished }

def reversePostOrder (next : α → Checked (List α)) (depth : Nat) (roots : List α) :
    Checked (List α) := do
  .ok (← roots.foldlM (visit next depth) {}).finished

/-- All that is reached from the roots without entering the nodes of `stop`. -/
def reach (next : α → Checked (List α)) (depth : Nat) (stop roots : List α) : Checked (List α) := do
  .ok (← roots.foldlM (visit next depth) { seen := stop }).seen

end MiddleEnd.Search
