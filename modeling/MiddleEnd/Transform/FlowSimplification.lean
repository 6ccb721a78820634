import MiddleEnd.ControlFlow.Edges
import MiddleEnd.Data.Search
import MiddleEnd.Transform.TrivialPhi

/-!
# Simplification of control flow

Branches that always go one way become jumps, unreachable blocks go, trivial phis are replaced, and
a block is merged into its only predecessor if that one leads nowhere else. The steps are repeated
until none of them changes the function.
-/

namespace MiddleEnd

/-- Replace a conditional branch at the end of `block` by a jump, and let the phis of the target
that is no longer reached this way forget the edge. -/
def Builder.foldBranch (b : Builder) (block : BlockId) (term : InstId) (taken : BlockId)
    (dropped? : Option BlockId) : Run Builder := do
  Run.debug fun _ => do
    return "Replace " ++ (← b.func.instText term) ++ " with br " ++ b.func.blockText taken
  let (_, b) ← (b.goTo (.before term)).br none taken
  let b ← b.removeInst term
  match dropped? with
  | none => return b
  | some dropped =>
    (← b.func.phis dropped).foldlM
      (fun (b : Builder) phi => do
        let (_, flow) ← b.flow.removeIncoming phi block
        return b.withFlow flow)
      b

namespace FlowSimplification

/-- Where a conditional branch always goes and where it never goes, if the targets are one block or
the condition is a constant. -/
def decided? (g : DataFlow) (inst : Inst) : Checked (Option (BlockId × Option BlockId)) := do
  let cond ← Checked.nth inst.args 0
  let onTrue ← Checked.nth inst.blocks 0
  let onFalse ← Checked.nth inst.blocks 1
  if onTrue = onFalse then
    return some (onTrue, none)
  match ← g.const? cond with
  | some w => return some (if w.isZero then (onFalse, some onTrue) else (onTrue, some onFalse))
  | none => return none

def foldBranches (b : Builder) : Run (Bool × Builder) :=
  b.func.blocks.foldlM
    (fun (modified, b) block => do
      let some term ← b.func.terminator? block | return (modified, b)
      let inst ← b.flow.inst term
      if inst.op ≠ .brCond then
        return (modified, b)
      match ← decided? b.flow inst with
      | none => return (modified, b)
      | some (taken, dropped?) => return (true, ← b.foldBranch block term taken dropped?))
    (false, b)

def unreachable (f : Func) : Checked (List BlockId) := do
  let reached ← Search.reach f.successors (f.blocks.length + 1) [] [← f.entry]
  return f.blocks.filter (· ∉ reached)

def cutEdges (b : Builder) (block : BlockId) : Checked Builder := do
  let succs ← b.func.successors block
  let b ← match ← b.func.terminator? block with
    | some term => b.removeInst term
    | none => pure b
  succs.foldlM
    (fun b succ => do
      (← b.func.phis succ).foldlM
        (fun (b : Builder) phi => do
          let (_, flow) ← b.flow.removeIncoming phi block
          return b.withFlow flow)
        b)
    b

/-- Remove the unreachable blocks. Their edges are cut first, so that none of them is still a target
when it goes. -/
def removeUnreachable (b : Builder) : Run (Bool × Builder) := do
  let dead ← unreachable b.func
  if dead.isEmpty then
    return (false, b)
  let b ← (dead.foldlM cutEdges b : Checked Builder)
  let b ← dead.foldlM
    (fun (b : Builder) block => do
      Run.debug fun _ => .ok ("Remove unreachable " ++ b.func.blockText block)
      b.removeBlock block)
    b
  return (true, b)

def simplifyPhis (b : Builder) : Run (Bool × Builder) := do
  let (count, b) ← b.removeTrivialPhis b.func.allPhis
  return (decide (0 < count), b)

/-- The predecessor a block can be merged into and the jump that ends it. -/
def mergeTarget? (f : Func) (block : BlockId) : Checked (Option (BlockId × InstId)) := do
  let edges ← Edges.ofFunc f
  match ← edges.preds block with
  | [pred] =>
    if pred = block then
      return none
    if !(← edges.isSoleSucc block pred) then
      return none
    match ← f.terminator? pred with
    | some term => return if f.flow.op? term = some .br then some (pred, term) else none
    | none => return none
  | _ => return none

/-- Replace a phi of a block with a single predecessor by the value from there. -/
def resolvePhi (pred : BlockId) (b : Builder) (phi : InstId) : Checked Builder := do
  let result ← b.flow.result phi
  let b ← match ← b.flow.incoming? phi pred with
    | some v => if v = result then b.replaceByUndef result else b.replaceUse result v
    | none => b.replaceByUndef result
  b.removeInst phi

/-- Merge a block into its predecessor, which ends in the jump `term`. -/
def mergeInto (b : Builder) (block pred : BlockId) (term : InstId) : Run Builder := do
  Run.debug fun _ =>
    .ok ("Merge " ++ b.func.blockText block ++ " into " ++ b.func.blockText pred)
  let phis ← b.func.phis block
  let b ← (phis.foldlM (resolvePhi pred) b : Checked Builder)
  let b ← b.removeInst term
  let b ← (← b.func.insts block).foldlM (·.moveToEnd · pred) b
  let (_, flow) ← b.flow.replaceBlockUse block pred
  (b.withFlow flow).removeBlock block

def mergeBlocks (b : Builder) : Run (Bool × Builder) := do
  let entry ← b.func.entry
  (b.func.blocks.filter (· ≠ entry)).foldlM
    (fun (modified, b) block => do
      match ← mergeTarget? b.func block with
      | some (pred, term) => return (true, ← mergeInto b block pred term)
      | none => return (modified, b))
    (false, b)

def step (b : Builder) : Run (Bool × Builder) := do
  let (folded, b) ← foldBranches b
  let (removed, b) ← removeUnreachable b
  let (simplified, b) ← simplifyPhis b
  let (merged, b) ← mergeBlocks b
  return (folded || removed || simplified || merged, b)

def repeatWithin : Nat → Bool → Builder → Run (Bool × Builder)
  | 0, _, _ => throw .unfinished
  | fuel + 1, modified, b => do
    let (changed, b) ← step b
    if changed then repeatWithin fuel true b else return (modified, b)

def run (b : Builder) : Run (Bool × Builder) := do
  Run.info fun _ => .ok s!"CFS [{b.func.name}]"
  if b.func.isEmpty then
    return (false, b)
  repeatWithin (b.func.blocks.length + 2 * b.flow.insts.size + 1) false b

end FlowSimplification

end MiddleEnd
