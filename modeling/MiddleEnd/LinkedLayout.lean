import MiddleEnd.Data.Dict
import MiddleEnd.Data.Table
import MiddleEnd.Layout

/-!
# Linked layout

A layout kept in tables: the blocks of a function form a doubly linked list, and so do the
instructions of each block. Every element carries the keys of its neighbours, so an edit writes to
the neighbours and the two ends only. A dictionary tells in which block an instruction is.
-/

namespace MiddleEnd

/-- An element of a linked list: its neighbours and what it carries. -/
structure Node (κ α : Type) where
  prev? : Option κ
  next? : Option κ
  data : α
  deriving DecidableEq, Repr, Inhabited

/-- A doubly linked list whose elements are keys. -/
structure Chain (κ α : Type) where
  nodes : SideTable κ (Node κ α) := {}
  first? : Option κ := none
  last? : Option κ := none
  deriving Repr, Inhabited

namespace Chain

variable {κ α : Type} [Key κ] [DecidableEq κ]

def modify (nodes : SideTable κ (Node κ α)) (k : κ) (f : Node κ α → Node κ α) :
    Checked (SideTable κ (Node κ α)) := do
  let node ← nodes.get k
  .ok (nodes.write k (some (f node)))

def setPrev (nodes : SideTable κ (Node κ α)) (k? prev? : Option κ) :
    Checked (SideTable κ (Node κ α)) :=
  match k? with
  | none => .ok nodes
  | some k => modify nodes k ({ · with prev? })

def setNext (nodes : SideTable κ (Node κ α)) (k? next? : Option κ) :
    Checked (SideTable κ (Node κ α)) :=
  match k? with
  | none => .ok nodes
  | some k => modify nodes k ({ · with next? })

def append (c : Chain κ α) (k : κ) (a : α) : Checked (Chain κ α) := do
  let nodes ← c.nodes.attach k ⟨c.last?, none, a⟩
  let nodes ← setNext nodes c.last? (some k)
  .ok { nodes, first? := if c.first?.isNone then some k else c.first?, last? := some k }

def prepend (c : Chain κ α) (k : κ) (a : α) : Checked (Chain κ α) := do
  let nodes ← c.nodes.attach k ⟨none, c.first?, a⟩
  let nodes ← setPrev nodes c.first? (some k)
  .ok { nodes, first? := some k, last? := if c.last?.isNone then some k else c.last? }

def insertAfter (c : Chain κ α) (k : κ) (a : α) (after : κ) : Checked (Chain κ α) := do
  let next? := (← c.nodes.get after).next?
  let nodes ← c.nodes.attach k ⟨some after, next?, a⟩
  let nodes ← setPrev nodes next? (some k)
  let nodes ← setNext nodes (some after) (some k)
  .ok { c with nodes, last? := if c.last? = some after then some k else c.last? }

def insertBefore (c : Chain κ α) (k : κ) (a : α) (before : κ) : Checked (Chain κ α) := do
  let prev? := (← c.nodes.get before).prev?
  let nodes ← c.nodes.attach k ⟨prev?, some before, a⟩
  let nodes ← setNext nodes prev? (some k)
  let nodes ← setPrev nodes (some before) (some k)
  .ok { c with nodes, first? := if c.first? = some before then some k else c.first? }

def unlink (c : Chain κ α) (k : κ) (node : Node κ α) : Checked (Chain κ α) := do
  let nodes ← setPrev (c.nodes.write k none) node.next? node.prev?
  let nodes ← setNext nodes node.prev? node.next?
  .ok {
    nodes
    first? := if c.first? = some k then node.next? else c.first?
    last? := if c.last? = some k then node.prev? else c.last? }

def update (c : Chain κ α) (k : κ) (f : α → Checked α) : Checked (Chain κ α) := do
  let node ← c.nodes.get k
  let data ← f node.data
  .ok { c with nodes := c.nodes.write k (some { node with data }) }

/-- The keys met from `k?` on, in at most `limit` elements. -/
def walk (link : Node κ α → Option κ) (nodes : SideTable κ (Node κ α)) :
    (limit : Nat) → (k? : Option κ) → Checked (List κ)
  | _, none => .ok []
  | 0, some _ => .error .unfinished
  | limit + 1, some k => do
    let node ← nodes.get k
    let rest ← walk link nodes limit (link node)
    .ok (k :: rest)

/-- The elements in order; a list without a cycle has no more of them than the table has slots. -/
def forward (c : Chain κ α) : Checked (List κ) :=
  walk Node.next? c.nodes c.nodes.slots.size c.first?

def backward (c : Chain κ α) : Checked (List κ) :=
  walk Node.prev? c.nodes c.nodes.slots.size c.last?

end Chain

structure LinkedLayout where
  chain : Chain BlockId (Chain InstId Unit) := {}
  /-- The block of every placed instruction. -/
  homes : Dict InstId BlockId := ∅
  deriving Repr, Inhabited

namespace LinkedLayout

def firstBlock? (l : LinkedLayout) : Option BlockId := l.chain.first?

def lastBlock? (l : LinkedLayout) : Option BlockId := l.chain.last?

def prevBlock? (l : LinkedLayout) (b : BlockId) : Checked (Option BlockId) := do
  .ok (← l.chain.nodes.get b).prev?

def nextBlock? (l : LinkedLayout) (b : BlockId) : Checked (Option BlockId) := do
  .ok (← l.chain.nodes.get b).next?

def hasBlock (l : LinkedLayout) (b : BlockId) : Bool := l.chain.nodes.contains b

def appendBlock (l : LinkedLayout) (b : BlockId) : Checked LinkedLayout := do
  .ok { l with chain := ← l.chain.append b {} }

def insertBlockAfter (l : LinkedLayout) (b after : BlockId) : Checked LinkedLayout := do
  .ok { l with chain := ← l.chain.insertAfter b {} after }

def removeBlock (l : LinkedLayout) (b : BlockId) : Checked LinkedLayout :=
  match l.chain.nodes.get? b with
  | none => .error (.blockNotPlaced b)
  | some node =>
    if node.data.first?.isNone then do .ok { l with chain := ← l.chain.unlink b node }
    else .error (.blockNotEmpty b)

def chainOf (l : LinkedLayout) (b : BlockId) : Checked (Chain InstId Unit) := do
  .ok (← l.chain.nodes.get b).data

def blockOf? (l : LinkedLayout) (i : InstId) : Option BlockId := l.homes.get? i

def blockOf (l : LinkedLayout) (i : InstId) : Checked BlockId :=
  .ofOption (.instNotPlaced i) (l.blockOf? i)

def firstInst? (l : LinkedLayout) (b : BlockId) : Checked (Option InstId) := do
  .ok (← l.chainOf b).first?

def lastInst? (l : LinkedLayout) (b : BlockId) : Checked (Option InstId) := do
  .ok (← l.chainOf b).last?

def prevInst? (l : LinkedLayout) (i : InstId) : Checked (Option InstId) := do
  let c ← l.chainOf (← l.blockOf i)
  .ok (← c.nodes.get i).prev?

def nextInst? (l : LinkedLayout) (i : InstId) : Checked (Option InstId) := do
  let c ← l.chainOf (← l.blockOf i)
  .ok (← c.nodes.get i).next?

/-- Note down the block of an instruction; an instruction is placed in one block only. -/
def settle (l : LinkedLayout) (i : InstId) (b : BlockId) : Checked LinkedLayout :=
  match l.blockOf? i with
  | some old => .error (.instPlaced i old b)
  | none => .ok { l with homes := l.homes.insert i b }

def inBlock (l : LinkedLayout) (b : BlockId) (f : Chain InstId Unit → Checked (Chain InstId Unit)) :
    Checked LinkedLayout := do
  .ok { l with chain := ← l.chain.update b f }

def appendInst (l : LinkedLayout) (i : InstId) (b : BlockId) : Checked LinkedLayout := do
  (← l.settle i b).inBlock b (·.append i ())

def prependInst (l : LinkedLayout) (i : InstId) (b : BlockId) : Checked LinkedLayout := do
  (← l.settle i b).inBlock b (·.prepend i ())

def insertAfter (l : LinkedLayout) (i after : InstId) : Checked LinkedLayout := do
  let b ← l.blockOf after
  (← l.settle i b).inBlock b (·.insertAfter i () after)

def insertBefore (l : LinkedLayout) (i before : InstId) : Checked LinkedLayout := do
  let b ← l.blockOf before
  (← l.settle i b).inBlock b (·.insertBefore i () before)

def removeInst (l : LinkedLayout) (i : InstId) : Checked LinkedLayout := do
  let b ← l.blockOf i
  { l with homes := l.homes.erase i }.inBlock b fun c =>
    match c.nodes.get? i with
    | none => .error (.instNotLinked i)
    | some node => c.unlink i node

/-- The blocks and the instructions of each block, following the links ahead. -/
def rows (l : LinkedLayout) : Checked (List Row) := do
  (← l.chain.forward).mapM fun b => do .ok ⟨b, ← (← l.chainOf b).forward⟩

/-- The blocks and the instructions of each block from the last to the first, following the links
back. -/
def rowsBack (l : LinkedLayout) : Checked (List Row) := do
  (← l.chain.backward).mapM fun b => do .ok ⟨b, ← (← l.chainOf b).backward⟩

end LinkedLayout

inductive LayoutEdit where
  | appendBlock (block : BlockId)
  | insertBlockAfter (block after : BlockId)
  | removeBlock (block : BlockId)
  | appendInst (inst : InstId) (block : BlockId)
  | prependInst (inst : InstId) (block : BlockId)
  | insertAfter (inst after : InstId)
  | insertBefore (inst before : InstId)
  | removeInst (inst : InstId)
  deriving DecidableEq, Repr, Inhabited

def Layout.apply (l : Layout) : LayoutEdit → Checked Layout
  | .appendBlock b => l.appendBlock b
  | .insertBlockAfter b after => l.insertBlockAfter b after
  | .removeBlock b => l.removeBlock b
  | .appendInst i b => l.appendInst i b
  | .prependInst i b => l.prependInst i b
  | .insertAfter i after => l.insertAfter i after
  | .insertBefore i before => l.insertBefore i before
  | .removeInst i => l.removeInst i

def LinkedLayout.apply (l : LinkedLayout) : LayoutEdit → Checked LinkedLayout
  | .appendBlock b => l.appendBlock b
  | .insertBlockAfter b after => l.insertBlockAfter b after
  | .removeBlock b => l.removeBlock b
  | .appendInst i b => l.appendInst i b
  | .prependInst i b => l.prependInst i b
  | .insertAfter i after => l.insertAfter i after
  | .insertBefore i before => l.insertBefore i before
  | .removeInst i => l.removeInst i

end MiddleEnd
