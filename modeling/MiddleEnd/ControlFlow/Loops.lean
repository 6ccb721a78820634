import MiddleEnd.ControlFlow.Dominators

/-!
# Natural loops

An edge to a block that dominates its source closes a loop with that block as the header. The edges
back to one header make up one loop; its body is all that reaches a latch without passing the
header.
-/

namespace MiddleEnd

structure Loop where
  header : BlockId
  /-- The sources of the edges back to the header. -/
  latches : List BlockId
  /-- The blocks of the loop, the header included. -/
  body : KeySet BlockId
  /-- The one outside predecessor of a header with two predecessors. -/
  preheader? : Option BlockId
  /-- The blocks outside that the loop leads to. -/
  exits : KeySet BlockId
  /-- The position of the innermost loop around this one. -/
  parent? : Option Nat := none
  /-- The number of loops around the header, this one included. -/
  depth : Nat := 1
  deriving Inhabited

def Loop.contains (l : Loop) (b : BlockId) : Bool := l.body.contains b

structure Loops where
  loops : List Loop
  epoch : Nat
  deriving Inhabited

namespace Loops

/-- The loop of a header with edges back to it. -/
def loopAt? (edges : Edges) (t : DominatorTree) (header : BlockId) : Checked (Option Loop) := do
  let preds ← edges.preds header
  let latches := preds.filter (t.dominates header)
  if latches.isEmpty then
    return none
  let back (b : BlockId) : Checked (List BlockId) := do
    return (← edges.preds b).filter t.isReachable
  let body := KeySet.ofList (← Search.reach back (t.order.length + 1) [header] latches)
  let outside := preds.filter (!body.contains ·)
  let preheader? := if preds.length = 2 ∧ outside.length = 1 then outside.head? else none
  let succs ← body.toList.mapM edges.succs
  let exits := KeySet.ofList (succs.flatten.filter (!body.contains ·))
  return some { header, latches, body, preheader?, exits }

/-- The smallest of the other loops that contain the header of the loop at position `n`. -/
def parentOf? (loops : List Loop) (n : Nat) (l : Loop) : Option Nat :=
  let around := loops.zipIdx.filter fun (other, k) => k ≠ n && other.contains l.header
  (around.foldl
    (fun best (other, k) =>
      match best with
      | some (size, _) => if other.body.size < size then some (other.body.size, k) else best
      | none => some (other.body.size, k))
    none).map (·.2)

/-- Find the loop around every loop. Outer loops come first, so that depths are known in order. -/
def nest (loops : List Loop) : List Loop :=
  (loops.zipIdx.foldl
    (fun done (l, n) =>
      match parentOf? loops n l with
      | some p =>
        let around := ((done[p]?).map (·.depth)).getD 1
        done.set n { l with parent? := some p, depth := around + 1 }
      | none => done)
    loops)

def ofFunc (f : Func) (t : DominatorTree) : Checked Loops := do
  if !t.isCurrent f then
    .error (.staleDominators f.name)
  let edges ← Edges.ofFunc f
  let loops ← t.order.mapM (loopAt? edges t)
  return { loops := nest (loops.filterMap id), epoch := f.flow.epoch }

def loopFor? (ls : Loops) (header : BlockId) : Option Loop := ls.loops.find? (·.header = header)

def isHeader (ls : Loops) (b : BlockId) : Bool := (ls.loopFor? b).isSome

def innermost? (ls : Loops) (b : BlockId) : Option Loop :=
  (ls.loops.filter (·.contains b)).foldl
    (fun best l =>
      match best with
      | some m => if m.depth ≤ l.depth then some l else best
      | none => some l)
    none

def depth (ls : Loops) (b : BlockId) : Nat := ((ls.innermost? b).map (·.depth)).getD 0

def isCurrent (ls : Loops) (f : Func) : Bool := ls.epoch == f.flow.epoch

def traceLines (ls : Loops) : List String :=
  ls.loops.map fun l =>
    let latches := String.intercalate ", " (l.latches.map toString)
    let body := String.intercalate ", " (l.body.toList.map toString)
    s!"Loop at {l.header} with latches [{latches}], body " ++ "\x7b" ++ body ++ "\x7d"

end Loops

def Func.loops (f : Func) (t : DominatorTree) : Run Loops := do
  let ls ← Loops.ofFunc f t
  ls.traceLines.forM fun line => Run.trace fun _ => .ok line
  return ls

end MiddleEnd
