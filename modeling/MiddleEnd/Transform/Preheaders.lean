import MiddleEnd.ControlFlow.Loops
import MiddleEnd.Func.Builder

/-!
# Preheaders

A loop header that is entered from several blocks outside the loop gets a block of its own in front,
which those blocks lead to instead and which merges the values they bring. Code that does not change
in the loop can then go to the end of that block.
-/

namespace MiddleEnd

namespace Preheaders

/-- Split a phi of the header: what comes from outside is merged in the preheader. -/
def splitPhi (preheader : BlockId) (outside : List BlockId) (b : Builder) (phi : InstId) :
    Checked Builder := do
  let edges := (← b.flow.inst phi).edges.filter (·.2 ∈ outside)
  let (first, _) ← Checked.nth edges 0
  let (merged, b) ← if edges.all (·.1 = first) then pure (first, b) else do
    let ty ← b.flow.ty first
    (b.goTo (.append preheader)).phiTyped none ty (edges.map (·.1)) (edges.map (·.2))
  let flow ← edges.foldlM
    (fun g (_, pred) => do
      return (← g.removeIncoming phi pred).2)
    b.flow
  return b.withFlow (← flow.addIncoming phi merged preheader)

def redirect (header preheader : BlockId) (b : Builder) (source : BlockId) : Checked Builder := do
  match ← b.func.terminator? source with
  | some term =>
    let (_, flow) ← b.flow.replaceBlockWithin header preheader term
    return b.withFlow flow
  | none => return b

/-- Lead the edges from some blocks to a header through a new block. Yields the new block. -/
def insertPreheader (b : Builder) (header : BlockId) (outside : List BlockId) :
    Run (BlockId × Builder) := do
  let name := match ← b.func.blockName? header with
    | some name => name ++ ".preheader"
    | none => "preheader"
  let (preheader, b) ← match ← b.func.layout.prevBlock? header with
    | some prev => b.addBlockAfter name prev
    | none => b.addBlock (some name)
  Run.debug fun _ =>
    let (new, old) := (b.func.blockText preheader, b.func.blockText header)
    .ok s!"Insert {new} for {old} entered from {outside.length}"
  let phis ← b.func.phis header
  let b ← (phis.foldlM (splitPhi preheader outside) b : Checked Builder)
  let b ← (outside.foldlM (redirect header preheader) b : Checked Builder)
  let (_, b) ← (b.goTo (.append preheader)).br none header
  return (preheader, b)

/-- The first header that several blocks outside its loop lead to, with those blocks. -/
def next? (f : Func) (ls : Loops) : Option (BlockId × List BlockId) :=
  ls.loops.findSome? fun l =>
    let outside := (f.predecessors l.header).filter (!l.contains ·)
    if 1 < outside.length then some (l.header, outside) else none

/-- Insert preheaders until no loop needs one. The edges change each time, so that the loops are
found anew. -/
def repeatWithin : Nat → Bool → Builder → Run (Bool × Builder)
  | 0, _, _ => throw .unfinished
  | fuel + 1, modified, b => do
    let t ← b.func.dominators
    let ls ← b.func.loops t
    match next? b.func ls with
    | none => return (modified, b)
    | some (header, outside) =>
      let (_, b) ← insertPreheader b header outside
      repeatWithin fuel true b

def run (b : Builder) : Run (Bool × Builder) := do
  Run.info fun _ => .ok s!"LoopSimplify [{b.func.name}]"
  if b.func.isEmpty then
    return (false, b)
  repeatWithin (b.func.blocks.length + 1) false b

end Preheaders

end MiddleEnd
