import MiddleEnd.ControlFlow.Edges
import MiddleEnd.Func.Builder
import MiddleEnd.Log
import MiddleEnd.Transform.ParallelCopy

/-!
# Lowering of phis

Every phi gets a register. The blocks control may come from write it right before they branch, and
the uses of the phi read it. Critical edges are split first, so that the copies for an edge run only
when control takes that edge.
-/

namespace MiddleEnd

namespace PhiLowering

def criticalEdges (f : Func) : Checked (List (BlockId × BlockId)) := do
  let edges ← Edges.ofFunc f
  let all ← f.blocks.mapM fun source => do
    return (← edges.succs source).map fun target => (source, target)
  all.flatten.filterM fun (source, target) => edges.isCritical source target

def splitEdge (b : Builder) (source target : BlockId) : Run Builder := do
  let (split, b) ← b.addBlockAfter "split" source
  let (_, b) ← (b.goTo (.append split)).br none target
  let b ← match ← b.func.terminator? source with
    | some term => do
      let (_, flow) ← b.flow.replaceBlockWithin target split term
      pure (b.withFlow flow)
    | none => pure b
  let b ← (← b.func.phis target).foldlM
    (fun (b : Builder) phi => do
      let (_, flow) ← b.flow.replaceBlockWithin source split phi
      return b.withFlow flow)
    b
  Run.debug fun _ =>
    let (source, target, split) :=
      (b.func.blockText source, b.func.blockText target, b.func.blockText split)
    .ok s!"Split edge {source} -> {target} with {split}"
  return b

def splitCriticalEdges (b : Builder) : Run (Bool × Builder) := do
  let edges ← criticalEdges b.func
  let b ← edges.foldlM (fun b (source, target) => splitEdge b source target) b
  return (!edges.isEmpty, b)

abbrev Registers := Dict ValueId ValueId

def addRegister (b : Builder) (regs : Registers) (phi : InstId) :
    Checked (Builder × Registers) := do
  let result ← b.flow.result phi
  let (reg, flow) := b.flow.addReg (← b.flow.ty result)
  let flow := match flow.name? result with
    | some name => flow.setName reg name
    | none => flow
  return (b.withFlow flow, regs.insert result reg)

/-- The copies that each block has to perform, as pairs of target and source. A phi that another phi
merges is read from its register. -/
def gatherCopies (g : DataFlow) (regs : Registers) (phis : List InstId) :
    Checked (Dict BlockId (List (ValueId × ValueId))) :=
  phis.foldlM
    (fun copies phi => do
      let target ← regs.get (← g.result phi)
      let edges := (← g.inst phi).edges
      return edges.foldl
        (fun copies (v, pred) =>
          let source := (regs.get? v).getD v
          copies.insert pred ((copies.get? pred).getD [] ++ [(target, source)]))
        copies)
    ∅

def temporary (reg : ValueId) : StateT DataFlow (Except Fault) ValueId := do
  let g ← get
  let (fresh, g) := g.addReg (← g.ty reg)
  set g
  return fresh

def insertCopies (b : Builder) (block : BlockId) (copies : List (ValueId × ValueId)) :
    Run Builder := do
  let (sequence, flow) ← (ParallelCopy.order temporary copies).run b.flow
  let b ← (b.withFlow flow).atTerminator block
  sequence.foldlM
    (fun (b : Builder) (target, source) => do
      let (i, b) ← b.copy none target source
      Run.trace fun _ => do
        return "Insert " ++ (← b.func.instText i) ++ " in " ++ b.func.blockText block
      return b)
    b

def lower (regs : Registers) (b : Builder) (phi : InstId) : Run Builder := do
  let result ← b.flow.result phi
  let reg ← regs.get result
  Run.debug fun _ => do
    return "Lower " ++ (← b.func.instText phi) ++ " to " ++ b.func.valueText reg
  let b ← b.replaceUse result reg
  b.removeInst phi

def run (b : Builder) : Run (Bool × Builder) := do
  Run.info fun _ => .ok s!"SSA Destruction [{b.func.name}]"
  if b.func.isEmpty then
    return (false, b)
  let (split, b) ← splitCriticalEdges b
  let phis := b.func.allPhis
  if phis.isEmpty then
    return (split, b)
  let (b, regs) ← phis.foldlM (fun (b, regs) phi => addRegister b regs phi) (b, (∅ : Registers))
  let copies ← gatherCopies b.flow regs phis
  let b ← copies.entries.foldlM (fun b (block, copies) => insertCopies b block copies) b
  let b ← phis.foldlM (lower regs) b
  return (true, b)

end PhiLowering

end MiddleEnd
