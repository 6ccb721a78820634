import MiddleEnd.Func.Basic

/-!
# Edges between blocks

A snapshot of the edges of a function, for work that changes terminators while it walks the graph.
-/

namespace MiddleEnd

/-- The neighbours of every block. A block outside the layout that a block leads to has predecessors
and no successors. -/
structure Edges where
  predsOf : Dict BlockId (List BlockId)
  succsOf : Dict BlockId (List BlockId)
  deriving Inhabited

namespace Edges

def sources (succs : List (BlockId × List BlockId)) (b : BlockId) : List BlockId :=
  (KeySet.ofList ((succs.filter (b ∈ ·.2)).map (·.1))).toList

def ofFunc (f : Func) : Checked Edges := do
  let succs ← f.blocks.mapM fun b => do
    return (b, ← f.successors b)
  let nodes := (f.blocks ++ succs.flatMap (·.2)).eraseDups
  .ok { predsOf := ⟨nodes.map fun b => (b, sources succs b)⟩, succsOf := ⟨succs⟩ }

def preds (e : Edges) (b : BlockId) : Checked (List BlockId) := e.predsOf.get b

def succs (e : Edges) (b : BlockId) : Checked (List BlockId) := e.succsOf.get b

def isSolePred (e : Edges) (p b : BlockId) : Checked Bool := do
  .ok ((← e.preds b).all (· = p))

def isSoleSucc (e : Edges) (s b : BlockId) : Checked Bool := do
  .ok ((← e.succs b).all (· = s))

/-- The edge leaves a block with several successors for a block with several predecessors. -/
def isCritical (e : Edges) (source target : BlockId) : Checked Bool := do
  if (← e.succs source).length ≤ 1 then
    return false
  return decide (1 < (← e.preds target).length)

end Edges

end MiddleEnd
