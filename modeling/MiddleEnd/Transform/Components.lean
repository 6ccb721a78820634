import MiddleEnd.ControlFlow.Dominators

/-!
# Strongly connected components

The instructions of reachable blocks form a graph, with an edge from an instruction to those that
produce its operands. A depth-first search numbers the instructions and keeps those whose component
is not complete on a stack; an instruction that leads back to none before it completes a component.
A component comes after those it depends on.
-/

namespace MiddleEnd

namespace Components

structure State where
  /-- The numbers of the instructions met so far. -/
  numbers : Dict InstId Nat := ∅
  /-- The instructions whose component is not complete, the latest first. -/
  stack : List InstId := []
  components : List (List InstId) := []

namespace State

def next (s : State) : Nat := s.numbers.entries.length

def meet (s : State) (i : InstId) : State :=
  { s with numbers := s.numbers.insert i s.next, stack := i :: s.stack }

/-- Complete a component, all that is on the stack down to the instruction. -/
def complete (s : State) (i : InstId) : State :=
  { s with
    stack := (s.stack.dropWhile (· ≠ i)).tail
    components := s.components ++ [s.stack.takeWhile (· ≠ i) ++ [i]] }

end State

/-- The producers of the operands of an instruction that are in reachable blocks. -/
def operands (f : Func) (t : DominatorTree) (i : InstId) : Checked (List InstId) := do
  let producers ← f.flow.definers (← f.flow.inst i).args
  return producers.filter fun j => (f.layout.blockOf? j).any t.isReachable

/-- Look at one more operand. The number is the least one on the stack that the operands led to so
far. -/
def look (visit : State → InstId → Checked (State × Nat)) :
    State × Nat → InstId → Checked (State × Nat)
  | (s, low), j => do
    match s.numbers.get? j with
    | some n => return (s, if j ∈ s.stack then min low n else low)
    | none =>
      let (s, n) ← visit s j
      return (s, min low n)

/-- Number an instruction and all it depends on. Yields the least number on the stack that it leads
to. -/
def visit (operands : InstId → Checked (List InstId)) : Nat → State → InstId → Checked (State × Nat)
  | 0, _, _ => .error .unfinished
  | depth + 1, s, i => do
    let (c, low) ← (← operands i).foldlM (look (visit operands depth)) (s.meet i, s.next)
    return (if low < s.next then c else c.complete i, low)

def explore (operands : InstId → Checked (List InstId)) (depth : Nat) (s : State) (i : InstId) :
    Checked State := do
  if (s.numbers.get? i).isSome then
    return s
  let (s, _) ← visit operands depth s i
  return s

end Components

def Func.components (f : Func) (t : DominatorTree) : Checked (List (List InstId)) := do
  let roots ← t.order.mapM f.insts
  let s ← roots.flatten.foldlM (Components.explore (Components.operands f t)
      (f.flow.insts.size + 1)) {}
  return s.components

end MiddleEnd
