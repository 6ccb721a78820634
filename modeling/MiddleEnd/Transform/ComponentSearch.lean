import MiddleEnd.ControlFlow.DominatorSearch
import MiddleEnd.Transform.Components

/-!
# The search for strongly connected components, turn by turn

The search with a stack of frames in place of the recursion. A frame holds an instruction and those
of its operands that were not looked at yet; on the way out of a frame what its instruction leads to
counts for the frame below. Nothing bounds the loop.
-/

namespace MiddleEnd

namespace Components

structure Frame where
  inst : InstId
  left : List InstId

structure Scan where
  next : Nat := 0
  numbers : Dict InstId Nat := ∅
  /-- The least number on the stack that an instruction led to so far. -/
  lows : Dict InstId Nat := ∅
  stack : List InstId := []
  onStack : KeySet InstId := ∅
  frames : List Frame := []
  components : List (List InstId) := []
  deriving Inhabited

def popThrough (i : InstId) : List InstId → List InstId × List InstId
  | [] => ([], [])
  | j :: stack =>
    if j = i then ([j], stack)
    else
      let (popped, rest) := popThrough i stack
      (j :: popped, rest)

namespace Scan

/-- Number an instruction and open a frame for it. -/
def enter (operands : InstId → Checked (List InstId)) (s : Scan) (i : InstId) : Checked Scan := do
  return { s with
    next := s.next + 1
    numbers := s.numbers.insert i s.next
    lows := s.lows.insert i s.next
    stack := i :: s.stack
    onStack := s.onStack.insert i
    frames := ⟨i, ← operands i⟩ :: s.frames }

def lower (s : Scan) (i : InstId) (n : Nat) : Checked Scan := do
  return { s with lows := s.lows.insert i (min (← s.lows.get i) n) }

def close (s : Scan) (i : InstId) : Scan :=
  let (popped, rest) := popThrough i s.stack
  { s with
    stack := rest
    onStack := popped.foldl KeySet.erase s.onStack
    components := s.components ++ [popped] }

def inspect (operands : InstId → Checked (List InstId)) (s : Scan) (i j : InstId) :
    Checked Scan := do
  match s.numbers.get? j with
  | none => s.enter operands j
  | some n => if s.onStack.contains j then s.lower i n else return s

def leave (s : Scan) (i : InstId) (below : List Frame) : Checked Scan := do
  let s := { s with frames := below }
  let low ← s.lows.get i
  let s ← match below with
    | [] => pure s
    | parent :: _ => s.lower parent.inst low
  return if low = (← s.numbers.get i) then s.close i else s

/-- One turn of the search: the top frame looks at its next operand, or is left. -/
def turn (operands : InstId → Checked (List InstId)) (s : Scan) : Looping (Scan ⊕ Scan) := do
  match s.frames with
  | [] => return .inr s
  | ⟨i, j :: left⟩ :: below =>
    return .inl (← ({ s with frames := ⟨i, left⟩ :: below }.inspect operands i j : Checked Scan))
  | ⟨i, []⟩ :: below => return .inl (← (s.leave i below : Checked Scan))

def explore (operands : InstId → Checked (List InstId)) (s : Scan) (i : InstId) : Looping Scan := do
  if (s.numbers.get? i).isSome then
    return s
  repeatM (turn operands) (← (s.enter operands i : Checked Scan))

end Scan

end Components

/-- Search for the strongly connected components of the instructions in reachable blocks. -/
def Func.componentSearch (f : Func) (t : DominatorTree) : Looping (List (List InstId)) := do
  let s ← t.order.foldlM
    (fun s b => do
      let roots ← (f.insts b : Checked (List InstId))
      roots.foldlM (Components.Scan.explore (Components.operands f t)) s)
    ({} : Components.Scan)
  return s.components

end MiddleEnd
