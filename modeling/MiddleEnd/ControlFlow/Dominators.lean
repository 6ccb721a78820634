import MiddleEnd.ControlFlow.Edges
import MiddleEnd.Data.Search
import MiddleEnd.Func.Text
import MiddleEnd.Log

/-!
# Dominators

A block dominates another one if every path from the entry to the other one leads through it. The
immediate dominators form a tree over the reachable blocks, found by iteration: in reverse
post-order every block takes the nearest common ancestor of its predecessors as its parent, until
nothing changes. Unreachable blocks are not in the tree.
-/

namespace MiddleEnd

/-- What the tree says about one block. -/
structure DomNode where
  /-- The position in reverse post-order, for reachable blocks. -/
  order? : Option Nat := none
  idom? : Option BlockId := none
  /-- The blocks this one immediately dominates, in reverse post-order. -/
  children : List BlockId := []
  frontier : KeySet BlockId := ∅
  /-- The number of steps from the root. -/
  level : Nat := 0
  deriving Inhabited

structure DominatorTree where
  /-- The reachable blocks in reverse post-order, the entry first. -/
  order : List BlockId
  /-- One node for every block number of the function. -/
  nodes : Array DomNode
  /-- The epoch of the edges the tree was computed from. -/
  epoch : Nat
  deriving Inhabited

namespace DominatorTree

/-! ## Construction

Blocks are named by their position in reverse post-order. A parent always has a smaller position
than its child; the root is its own parent. -/

abbrev Parents := Array (Option Nat)

def parentOf (parents : Parents) (n : Nat) : Nat := parents[n]?.join.getD 0

/-- The nearest common ancestor: of two different nodes the later one climbs to its parent. -/
def meet (parents : Parents) : Nat → Nat → Nat → Nat
  | 0, i, _ => i
  | fuel + 1, i, j =>
    if i = j then i
    else if j < i then meet parents fuel (parentOf parents i) j
    else meet parents fuel i (parentOf parents j)

def meetAll (parents : Parents) (preds : List Nat) : Option Nat :=
  match preds.filter fun p => parents[p]?.join.isSome with
  | [] => none
  | p :: ps => some (ps.foldl (fun i j => meet parents (i + j) i j) p)

/-- A block other than the entry, by position, with the positions of its reachable predecessors. -/
structure Join where
  block : BlockId
  position : Nat
  preds : List Nat

def round (joins : List Join) (parents : Parents) : Checked Parents :=
  joins.foldlM
    (fun parents j =>
      match meetAll parents j.preds with
      | some parent => .ok (parents.setIfInBounds j.position (some parent))
      | none => .error (.noProcessedPredecessor j.block))
    parents

def converge (joins : List Join) : Nat → Parents → Checked Parents
  | 0, parents => .ok parents
  | fuel + 1, parents => do
    let next ← round joins parents
    if next = parents then return parents else converge joins fuel next

def levels (parents : Parents) : Array Nat :=
  (List.range parents.size).foldl
    (fun levels n => levels.push (if n = 0 then 0 else (levels[parentOf parents n]?).getD 0 + 1))
    #[]

def climb (idom? : BlockId → Option BlockId) (stop : Option BlockId) : Nat → BlockId → List BlockId
  | 0, _ => []
  | fuel + 1, b =>
    if some b = stop then []
    else b :: match idom? b with
      | some up => climb idom? stop fuel up
      | none => []

/-- The reachable blocks and their parents, from which every node of the tree is read off. -/
structure Ranking where
  /-- The blocks in reverse post-order. -/
  order : List BlockId
  /-- The reachable predecessors of the blocks, in the same order. -/
  preds : List (List BlockId)
  parents : Parents

namespace Ranking

def position? (r : Ranking) (b : BlockId) : Option Nat := r.order.idxOf? b

def idom? (r : Ranking) (b : BlockId) : Option BlockId :=
  match r.position? b with
  | some (n + 1) => r.order[parentOf r.parents (n + 1)]?
  | _ => none

/-- For every block the blocks that it is in the frontier of: all that lies between one of its
predecessors and its own immediate dominator. -/
def walks (r : Ranking) : List (BlockId × List BlockId) :=
  (r.order.zip r.preds).map fun (b, preds) =>
    (b, preds.flatMap (climb r.idom? (r.idom? b) r.order.length))

/-- The node of a block, given the levels and walks of all blocks. -/
def node (r : Ranking) (levels : Array Nat) (walks : List (BlockId × List BlockId)) (b : BlockId) :
    DomNode :=
  match r.position? b with
  | none => {}
  | some n =>
    { order? := some n
      idom? := r.idom? b
      children := r.order.filter fun c => r.idom? c = some b
      frontier := KeySet.ofList ((walks.filter (b ∈ ·.2)).map (·.1))
      level := (levels[n]?).getD 0 }

end Ranking

def joins (order : List BlockId) (preds : List (List BlockId)) : List Join :=
  (order.zip preds).zipIdx.tail.map fun ((block, preds), position) =>
    { block, position, preds := preds.filterMap fun p => order.idxOf? p }

/-- Rank the blocks that are reached from the entry. -/
def rank (edges : Edges) (entry : BlockId) (depth : Nat) : Checked Ranking := do
  let order ← Search.reversePostOrder edges.succs depth [entry]
  let preds ← order.mapM fun b => do
    return (← edges.preds b).filter (· ∈ order)
  let size := order.length
  let start : Parents := (Array.replicate size none).setIfInBounds 0 (some 0)
  let parents ← converge (joins order preds) ((size + 1) * (size + 1)) start
  return { order, preds, parents }

def ofEdges (f : Func) (edges : Edges) : Checked DominatorTree := do
  let r ← rank edges (← f.entry) (f.blocks.length + 1)
  let levels := levels r.parents
  let walks := r.walks
  let nodes := (Array.range f.blockBound).map fun n => r.node levels walks ⟨n⟩
  return { order := r.order, nodes, epoch := f.flow.epoch }

def ofFunc (f : Func) : Checked DominatorTree := do
  ofEdges f (← Edges.ofFunc f)

def root (t : DominatorTree) : Checked BlockId := .nth t.order 0

def node? (t : DominatorTree) (b : BlockId) : Option DomNode := t.nodes[b.index]?

/-- The node of a block with a number the function knew when the tree was computed. -/
def node (t : DominatorTree) (b : BlockId) : Checked DomNode := .ofOption .outOfBounds (t.node? b)

def order? (t : DominatorTree) (b : BlockId) : Option Nat := (t.node? b).bind (·.order?)

def isReachable (t : DominatorTree) (b : BlockId) : Bool := (t.order? b).isSome

def idom? (t : DominatorTree) (b : BlockId) : Option BlockId := (t.node? b).bind (·.idom?)

def children (t : DominatorTree) (b : BlockId) : Checked (List BlockId) := do
  .ok (← t.node b).children

def frontier (t : DominatorTree) (b : BlockId) : Checked (List BlockId) := do
  .ok (← t.node b).frontier.toList

def level (t : DominatorTree) (b : BlockId) : Checked Nat := do
  .ok (← t.node b).level

def levelOf (t : DominatorTree) (b : BlockId) : Nat := ((t.node? b).map (·.level)).getD 0

def ancestor? (t : DominatorTree) : Nat → BlockId → Option BlockId
  | 0, b => some b
  | n + 1, b => (t.idom? b).bind (t.ancestor? n)

/-- Every reachable block dominates itself; unreachable blocks take no part. -/
def dominates (t : DominatorTree) (d b : BlockId) : Bool :=
  t.isReachable d && t.isReachable b &&
    t.ancestor? (t.levelOf b - t.levelOf d) b == some d

def strictlyDominates (t : DominatorTree) (d b : BlockId) : Bool :=
  d ≠ b && t.dominates d b

def preorderFrom (t : DominatorTree) : Nat → BlockId → List BlockId
  | 0, _ => []
  | fuel + 1, b => b :: (((t.node? b).map (·.children)).getD []).flatMap (t.preorderFrom fuel)

def preorder (t : DominatorTree) : List BlockId :=
  t.order.head?.toList.flatMap (t.preorderFrom t.order.length)

def isCurrent (t : DominatorTree) (f : Func) : Bool := t.epoch == f.flow.epoch

def instDominatesBlock (t : DominatorTree) (f : Func) (i : InstId) (b : BlockId) : Bool :=
  match f.layout.blockOf? i with
  | some home => t.dominates home b
  | none => false

/-- Within a block the earlier instruction dominates the later one. -/
def instDominatesInst (t : DominatorTree) (f : Func) (i user : InstId) : Bool :=
  match f.layout.blockOf? i, f.layout.blockOf? user with
  | some home, some there =>
    if home ≠ there then t.dominates home there
    else
      let insts := ((f.layout.row? home).map (·.insts)).getD []
      insts.find? (fun j => j = i ∨ j = user) == some i
  | _, _ => false

def valueDominatesBlock (t : DominatorTree) (f : Func) (v : ValueId) (b : BlockId) :
    Checked Bool := do
  match ← f.flow.origin v with
  | .result _ i => .ok (t.instDominatesBlock f i b)
  | _ => .ok true

private def bracketText {α : Type} [ToString α] (xs : List α) : String :=
  "[" ++ String.intercalate ", " (xs.map toString) ++ "]"

def traceLines (t : DominatorTree) : List String :=
  let parents := t.order.map fun b => ((t.idom? b).bind t.order?).getD 0
  ["[DomTree] reverse post-order " ++ bracketText t.order,
    "[DomTree] converged " ++ bracketText parents]

def remark (t : DominatorTree) (f : Func) (b : BlockId) : Checked String := do
  let children := f.blockListText (← t.children b)
  let frontier := f.blockListText (← t.frontier b)
  let idom := match t.idom? b with
    | some d => " idom=" ++ f.blockText d
    | none => ""
  .ok (s!" doms=({children}) df=({frontier})" ++ idom)

end DominatorTree

def Func.dominators (f : Func) : Run DominatorTree := do
  let t ← DominatorTree.ofFunc f
  t.traceLines.forM fun line => Run.trace fun _ => .ok line
  return t

end MiddleEnd
