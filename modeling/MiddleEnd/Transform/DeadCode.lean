import MiddleEnd.Data.Search
import MiddleEnd.Func.Builder
import MiddleEnd.Log

/-!
# Dead code

Two ways to remove what nobody needs. The plain one starts from instructions without effects and
users and goes on with the operands they leave unused; instructions that only feed each other
survive. The aggressive one keeps what instructions with effects depend on, and nothing else.
-/

namespace MiddleEnd

namespace DeadCode

/-- Remove the dead ones among a stack of instructions, the first one first, and look at the
producers of their operands next. -/
def removeFrom : Nat → Bool → List InstId → Builder → Run (Bool × Builder)
  | _, modified, [], b => return (modified, b)
  | 0, _, _ :: _, _ => throw .unfinished
  | fuel + 1, modified, i :: rest, b => do
    if !b.flow.hasInst i then
      return ← removeFrom fuel modified rest b
    if !(← b.func.isDead i) then
      return ← removeFrom fuel modified rest b
    let producers := (← b.flow.definers (← b.flow.inst i).args).filter (· ≠ i)
    Run.debug fun _ => do
      return "Remove dead " ++ (← b.func.instText i)
    let b ← b.removeInst i
    removeFrom fuel true (producers.reverse ++ rest) b

def operandCount (g : DataFlow) : Nat :=
  g.insts.values.foldl (fun n e => n + e.inst.args.length) 0

def run (b : Builder) : Run (Bool × Builder) := do
  Run.info fun _ => .ok s!"DCE [{b.func.name}]"
  let work := b.func.allInsts.filter (!b.flow.hasSideEffects ·)
  removeFrom (work.length + operandCount b.flow) false work.reverse b

end DeadCode

namespace LiveCode

/-- The instructions that have effects or that such instructions depend on. -/
def live (f : Func) : Checked (List InstId) :=
  let producers (i : InstId) : Checked (List InstId) := do
    f.flow.definers (← f.flow.inst i).args
  Search.reach producers (f.flow.insts.size + 1) [] (f.allInsts.filter f.flow.hasSideEffects)

def run (b : Builder) : Run (Bool × Builder) := do
  Run.info fun _ => .ok s!"ADCE [{b.func.name}]"
  let live ← live b.func
  Run.trace fun _ => .ok s!"{live.length} live instructions"
  let dead := b.func.allInsts.filter (· ∉ live)
  let b ← dead.foldlM
    (fun (b : Builder) i => do
      Run.debug fun _ => do
        return "Remove dead " ++ (← b.func.instText i)
      b.deleteInst i)
    b
  return (!dead.isEmpty, b)

end LiveCode

end MiddleEnd
