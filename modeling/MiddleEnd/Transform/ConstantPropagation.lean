import MiddleEnd.Transform.ConstantFacts
import MiddleEnd.Transform.FlowSimplification

/-!
# Constant propagation

What is known about a function is put to use: constant results are replaced, and branches of which
only one edge may be taken become jumps.
-/

namespace MiddleEnd

namespace ConstantPropagation

/-- Replace the result of an instruction that is known to be constant, and remove the instruction
unless it has effects. -/
def replaceResult (facts : Facts) (modified : Bool) (b : Builder) (i : InstId) :
    Run (Bool × Builder) := do
  let some result := b.flow.result? i | return (modified, b)
  let some (.const w) := facts.values.get? result | return (modified, b)
  let (v, flow) := b.flow.const w
  let b := b.withFlow flow
  Run.debug fun _ => do
    return "Replace " ++ (← b.func.instText i) ++ " with " ++ b.func.valueText v
  let b ← b.replaceUse result v
  if b.flow.hasSideEffects i then
    return (true, b)
  return (true, ← b.removeInst i)

/-- Where a branch with two targets always goes and where it never goes. -/
def onlyEdge? (facts : Facts) (block : BlockId) (inst : Inst) :
    Checked (Option (BlockId × BlockId)) := do
  let onTrue ← Checked.nth inst.blocks 0
  let onFalse ← Checked.nth inst.blocks 1
  if onTrue = onFalse then
    return none
  match facts.taken block onTrue, facts.taken block onFalse with
  | true, false => return some (onTrue, onFalse)
  | false, true => return some (onFalse, onTrue)
  | _, _ => return none

/-- Turn the branch at the end of a block into a jump if only one edge may be taken. -/
def foldBranch (facts : Facts) (modified : Bool) (b : Builder) (block : BlockId) :
    Run (Bool × Builder) := do
  let some term ← b.func.terminator? block | return (modified, b)
  let inst ← b.flow.inst term
  if inst.op ≠ .brCond then
    return (modified, b)
  match ← onlyEdge? facts block inst with
  | none => return (modified, b)
  | some (taken, dropped) => return (true, ← b.foldBranch block term taken (some dropped))

def apply (facts : Facts) (b : Builder) : Run (Bool × Builder) := do
  let blocks := b.func.blocks.filter facts.runs
  let (modified, b) ← blocks.foldlM
    (fun (modified, b) block => do
      let insts ← b.func.insts block
      insts.foldlM (fun (modified, b) i => replaceResult facts modified b i) (modified, b))
    (false, b)
  blocks.foldlM (fun (modified, b) block => foldBranch facts modified b block) (modified, b)

def run (b : Builder) (order : Propagation.UserOrder := .ascending) : Run (Bool × Builder) := do
  Run.info fun _ => .ok s!"SCCP [{b.func.name}]"
  if b.func.isEmpty then
    return (false, b)
  let facts ← b.func.facts none 0 order
  apply facts b

/-- One function after the other, since the evaluation of calls reads the others. -/
def runOnModule (maxDepth : Nat) (m : Module)
    (order : Propagation.UserOrder := .ascending) : Run (Bool × Module) :=
  m.funcIds.foldlM
    (fun (modified, m) id => do
      let f ← m.func id
      Run.info fun _ => .ok s!"SCCP [{f.name}]"
      if f.isEmpty then
        return (modified, m)
      let facts ← f.facts (some m) maxDepth order
      let (changed, b) ← apply facts { func := f }
      return (modified || changed, ← m.setFunc id b.func))
    (false, m)

end ConstantPropagation

end MiddleEnd
