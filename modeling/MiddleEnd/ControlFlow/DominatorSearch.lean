import MiddleEnd.ControlFlow.Dominators

/-!
# The search for the dominator tree, loop by loop

The dominator tree built over arrays that are indexed by block numbers, with every loop as a loop: a
depth-first search with a stack of its own, rounds for as long as some parent changes, two fingers
that climb until they meet, and walks up the tree for the frontiers. Nothing bounds these loops, and
every index is checked.
-/

namespace MiddleEnd

/-- A computation with loops. It ends in a result or in a fault, or goes on for ever. -/
abbrev Looping (α : Type) := ExceptT Fault Option α

namespace Looping

def read {α : Type} (xs : Array α) (n : Nat) : Looping α :=
  (Checked.ofOption .outOfBounds xs[n]? : Checked α)

def modify {α : Type} (xs : Array α) (n : Nat) (g : α → α) : Looping (Array α) := do
  let a ← read xs n
  return xs.setIfInBounds n (g a)

def write {α : Type} (xs : Array α) (n : Nat) (a : α) : Looping (Array α) := modify xs n fun _ => a

end Looping

namespace DominatorTree

/-- Work off a stack of blocks. A block that is met for the first time stays on the stack below its
successors, and is finished when it comes up again. -/
def traverse (succs : BlockId → Checked (List BlockId)) (stack : List BlockId)
    (s : Search.State BlockId) :
    Looping (Search.State BlockId) :=
  repeatM
    (fun (stack, s) => do
      match stack with
      | [] => return .inr s
      | b :: stack =>
        if b ∈ s.seen then
          if b ∈ s.finished then return .inl (stack, s)
          else return .inl (stack, { s with finished := b :: s.finished })
        else
          let ys ← (succs b : Checked _)
          let s := { s with seen := b :: s.seen }
          return .inl (ys.filter (· ∉ s.seen) ++ b :: stack, s))
    (stack, s)

def positions (bound : Nat) (order : List BlockId) : Looping (Array (Option Nat)) :=
  order.zipIdx.foldlM (fun index (b, n) => Looping.write index b.index (some n))
    (Array.replicate bound none)

/-! ## Parents

A position that is not known comes after all others, and nothing can be looked up at it. -/

def isAfter : Option Nat → Option Nat → Bool
  | some i, some j => j < i
  | none, some _ => true
  | _, none => false

def lookup {α : Type} (xs : Array α) : Option Nat → Looping α
  | some n => Looping.read xs n
  | none => throw .outOfBounds

def retreat (parents : Parents) (other finger : Option Nat) : Looping (Option Nat) :=
  repeatM
    (fun finger => do
      if isAfter finger other then return .inl (← lookup parents finger)
      else return .inr finger)
    finger

/-- Climb with both fingers until they meet. -/
def join (parents : Parents) (i j : Option Nat) : Looping (Option Nat) :=
  repeatM
    (fun (i, j) => do
      if i = j then return .inr i
      let i ← retreat parents j i
      let j ← retreat parents i j
      return .inl (i, j))
    (i, j)

section Rounds

variable (edges : Edges) (order : Array BlockId) (index : Array (Option Nat))

def processed? (parents : Parents) (p : BlockId) : Looping (Option Nat) := do
  match ← Looping.read index p.index with
  | some n => return (← Looping.read parents n).map fun _ => n
  | none => return none

/-- Choose the parent of the block at a position, and say whether it is a new one. -/
def choose (parents : Parents) (n : Nat) : Looping (Parents × Bool) := do
  let b ← Looping.read order n
  let preds ← (edges.preds b : Checked _)
  match (← preds.mapM (processed? index parents)).filter Option.isSome with
  | [] => throw (.noProcessedPredecessor b)
  | first :: rest =>
    let parent ← rest.foldlM (join parents) first
    if (← Looping.read parents n) = parent then return (parents, false)
    else return (← Looping.write parents n parent, true)

def sweep (parents : Parents) : Looping (Parents × Bool) :=
  (List.range' 1 (order.size - 1)).foldlM
    (fun (parents, changed) n => do
      let (parents, new) ← choose edges order index parents n
      return (parents, changed || new))
    (parents, false)

def settle (parents : Parents) : Looping Parents :=
  repeatM
    (fun parents => do
      let (parents, changed) ← sweep edges order index parents
      if changed then return .inl parents else return .inr parents)
    parents

end Rounds

/-- What the tree says about the blocks, by block number. -/
structure Branches where
  idoms : Array (Option BlockId)
  children : Array (List BlockId)
  levels : Array Nat

def hang (order : Array BlockId) (parents : Parents) (t : Branches) (b : BlockId) (n : Nat) :
    Looping Branches := do
  let idom ← lookup order (← Looping.read parents n)
  let idoms ← Looping.write t.idoms b.index (some idom)
  let children ← Looping.modify t.children idom.index (· ++ [b])
  let levels ← Looping.write t.levels b.index ((← Looping.read t.levels idom.index) + 1)
  return { idoms, children, levels }

/-- Put a block into the frontiers of all blocks from `runner` up the tree, as far as but without
`stop`. -/
def spread (idoms : Array (Option BlockId)) (b : BlockId) (stop : Option BlockId) (runner : BlockId)
    (frontiers : Array (KeySet BlockId)) : Looping (Array (KeySet BlockId)) :=
  repeatM
    (fun (runner, frontiers) => do
      if some runner = stop then return .inr frontiers
      let frontiers ← Looping.modify frontiers runner.index (·.insert b)
      match ← Looping.read idoms runner.index with
      | some up => return .inl (up, frontiers)
      | none => return .inr frontiers)
    (runner, frontiers)

/-- Put a block into all frontiers it belongs to. -/
def border (edges : Edges) (index : Array (Option Nat)) (idoms : Array (Option BlockId))
    (frontiers : Array (KeySet BlockId)) (b : BlockId) : Looping (Array (KeySet BlockId)) := do
  let stop ← Looping.read idoms b.index
  let preds ← (edges.preds b : Checked _)
  preds.foldlM
    (fun frontiers p => do
      if (← Looping.read index p.index).isSome then spread idoms b stop p frontiers
      else return frontiers)
    frontiers

/-- Search for the dominator tree of a function. -/
def search (f : Func) : Looping DominatorTree := do
  let edges ← (Edges.ofFunc f : Checked _)
  let entry ← (f.entry : Checked _)
  let bound := f.blockBound
  let found ← traverse edges.succs [entry] {}
  let order := found.finished.toArray
  let index ← positions bound found.finished
  let start ← Looping.write (Array.replicate order.size none) 0 (some 0)
  let parents ← settle edges order index start
  let branches ← found.finished.zipIdx.tail.foldlM (fun t (b, n) => hang order parents t b n)
    { idoms := Array.replicate bound none
      children := Array.replicate bound []
      levels := Array.replicate bound 0 }
  let frontiers ← found.finished.foldlM (border edges index branches.idoms)
      (Array.replicate bound ∅)
  let nodes := (Array.range bound).map fun n : Nat =>
    { order? := index[n]?.join
      idom? := branches.idoms[n]?.join
      children := branches.children[n]?.getD []
      frontier := frontiers[n]?.getD ∅
      level := branches.levels[n]?.getD 0 : DomNode }
  return { order := found.finished, nodes, epoch := f.flow.epoch }

/-- Work off a stack of blocks of the tree, each before its children. -/
def descend (t : DominatorTree) (stack done : List BlockId) : Looping (List BlockId) :=
  repeatM
    (fun (stack, done) => do
      match stack with
      | [] => return .inr done
      | b :: stack =>
        let children ← (t.children b : Checked _)
        return .inl (children ++ stack, done ++ [b]))
    (stack, done)

def preorderSearch (t : DominatorTree) : Looping (List BlockId) := do
  let root ← (t.root : Checked _)
  descend t [root] []

end DominatorTree

end MiddleEnd
