import MiddleEnd.Func.Builder
import MiddleEnd.Log

/-!
# Trivial phis

A phi that merges a single value, apart from itself, is that value. Replacing it may leave phis that
used it trivial in turn.
-/

namespace MiddleEnd

namespace TrivialPhi

/-- The different values a phi with the given result merges, apart from that result. -/
def merged (result : ValueId) (args : List ValueId) : List ValueId :=
  (args.filter (· ≠ result)).eraseDups

/-- The value that stands for a trivial phi: the one it merges, or `undef` if it merges none.
Nothing for other phis. -/
def substitute? (flow : DataFlow) (result : ValueId) (args : List ValueId) :
    Checked (Option (ValueId × DataFlow)) := do
  match merged result args with
  | [] => return some (flow.undef (← flow.ty result))
  | [v] => return some (v, flow)
  | _ => return none

/-- Look at the phis of a stack, the first one first. -/
def removeFrom : Nat → Nat → List InstId → Builder → Run (Nat × Builder)
  | _, count, [], b => return (count, b)
  | 0, _, _ :: _, _ => throw .unfinished
  | fuel + 1, count, phi :: rest, b => do
    if !b.flow.hasInst phi then
      return ← removeFrom fuel count rest b
    let result ← b.flow.result phi
    let inst ← b.flow.inst phi
    match ← substitute? b.flow result inst.args with
    | none => removeFrom fuel count rest b
    | some (v, flow) =>
      let b := b.withFlow flow
      Run.debug fun _ => do
        return "Replace trivial " ++ (← b.func.instText phi) ++ " with " ++ b.func.valueText v
      let users := (← b.flow.users result).toList.filter fun user =>
        user ≠ phi && b.flow.isPhi user
      let b ← b.replaceUse result v
      let b ← b.removeInst phi
      removeFrom fuel (count + 1) (users.reverse ++ rest) b

end TrivialPhi

/-- Replace the trivial ones among some phis, the last one first, and those that become trivial on
the way. Yields their number. -/
def Builder.removeTrivialPhis (b : Builder) (phis : List InstId) : Run (Nat × Builder) :=
  let insts := b.flow.insts.size
  TrivialPhi.removeFrom (phis.length + insts * insts + 1) 0 phis.reverse b

end MiddleEnd
