import MiddleEnd.Fault

/-!
# Layout

The order of the blocks of a function and of the instructions in each block. A layout is the plain
list of its blocks, each with the plain list of its instructions; every question is answered from
that.
-/

namespace MiddleEnd

section Neighbours

variable {α : Type} [DecidableEq α]

def following (x : α) : List α → Option α
  | a :: b :: rest => if a = x then some b else following x (b :: rest)
  | _ => none

/-- The element right before an occurrence of `x` that is not the first element. -/
def preceding (x : α) : List α → Option α
  | a :: b :: rest => if b = x then some a else preceding x (b :: rest)
  | _ => none

def placeAfter (x new : α) : List α → List α
  | [] => []
  | a :: rest => if a = x then a :: new :: rest else a :: placeAfter x new rest

def placeBefore (x new : α) : List α → List α
  | [] => []
  | a :: rest => if a = x then new :: a :: rest else a :: placeBefore x new rest

end Neighbours

/-- A block and its instructions in order. -/
structure Row where
  block : BlockId
  insts : List InstId := []
  deriving DecidableEq, Repr, Inhabited

structure Layout where
  rows : List Row := []
  deriving DecidableEq, Repr, Inhabited

namespace Layout

def blocks (l : Layout) : List BlockId := l.rows.map Row.block

def row? (l : Layout) (b : BlockId) : Option Row := l.rows.find? (·.block = b)

def row (l : Layout) (b : BlockId) : Checked Row := .ofOption .dataAbsent (l.row? b)

def hasBlock (l : Layout) (b : BlockId) : Bool := (l.row? b).isSome

def firstBlock? (l : Layout) : Option BlockId := l.blocks.head?

def lastBlock? (l : Layout) : Option BlockId := l.blocks.getLast?

def prevBlock? (l : Layout) (b : BlockId) : Checked (Option BlockId) := do
  let _ ← l.row b
  .ok (preceding b l.blocks)

def nextBlock? (l : Layout) (b : BlockId) : Checked (Option BlockId) := do
  let _ ← l.row b
  .ok (following b l.blocks)

def appendBlock (l : Layout) (b : BlockId) : Checked Layout :=
  if l.hasBlock b then .error .keyTaken else .ok ⟨l.rows ++ [⟨b, []⟩]⟩

def rowsAfter (b after : BlockId) : List Row → List Row
  | [] => []
  | r :: rest => if r.block = after then r :: ⟨b, []⟩ :: rest else r :: rowsAfter b after rest

def insertBlockAfter (l : Layout) (b after : BlockId) : Checked Layout := do
  let _ ← l.row after
  if l.hasBlock b then .error .keyTaken else .ok ⟨rowsAfter b after l.rows⟩

def removeBlock (l : Layout) (b : BlockId) : Checked Layout :=
  match l.row? b with
  | none => .error (.blockNotPlaced b)
  | some row =>
    if row.insts.isEmpty then .ok ⟨l.rows.filter (·.block ≠ b)⟩ else .error (.blockNotEmpty b)

def insts (l : Layout) (b : BlockId) : Checked (List InstId) := do
  let row ← l.row b
  .ok row.insts

def allInsts (l : Layout) : List InstId := l.rows.flatMap Row.insts

def blockOf? (l : Layout) (i : InstId) : Option BlockId :=
  (l.rows.find? (i ∈ ·.insts)).map Row.block

def blockOf (l : Layout) (i : InstId) : Checked BlockId :=
  .ofOption (.instNotPlaced i) (l.blockOf? i)

def firstInst? (l : Layout) (b : BlockId) : Checked (Option InstId) := do
  let insts ← l.insts b
  .ok insts.head?

def lastInst? (l : Layout) (b : BlockId) : Checked (Option InstId) := do
  let insts ← l.insts b
  .ok insts.getLast?

def prevInst? (l : Layout) (i : InstId) : Checked (Option InstId) := do
  let insts ← l.insts (← l.blockOf i)
  .ok (preceding i insts)

def nextInst? (l : Layout) (i : InstId) : Checked (Option InstId) := do
  let insts ← l.insts (← l.blockOf i)
  .ok (following i insts)

def editRow (l : Layout) (b : BlockId) (f : List InstId → List InstId) : Layout :=
  ⟨l.rows.map fun r => if r.block = b then { r with insts := f r.insts } else r⟩

def checkFresh (l : Layout) (i : InstId) (b : BlockId) : Checked Unit :=
  match l.blockOf? i with
  | some old => .error (.instPlaced i old b)
  | none => .ok ()

def appendInst (l : Layout) (i : InstId) (b : BlockId) : Checked Layout := do
  l.checkFresh i b
  let _ ← l.row b
  .ok (l.editRow b (· ++ [i]))

def prependInst (l : Layout) (i : InstId) (b : BlockId) : Checked Layout := do
  l.checkFresh i b
  let _ ← l.row b
  .ok (l.editRow b (i :: ·))

def insertAfter (l : Layout) (i after : InstId) : Checked Layout := do
  let b ← l.blockOf after
  l.checkFresh i b
  .ok (l.editRow b (placeAfter after i))

def insertBefore (l : Layout) (i before : InstId) : Checked Layout := do
  let b ← l.blockOf before
  l.checkFresh i b
  .ok (l.editRow b (placeBefore before i))

def removeInst (l : Layout) (i : InstId) : Checked Layout := do
  let b ← l.blockOf i
  .ok (l.editRow b (·.filter (· ≠ i)))

end Layout

/-- The place where the next instruction goes. -/
inductive InsertPos where
  | none
  /-- The end of a block. -/
  | append (block : BlockId)
  /-- The head of a block. -/
  | prepend (block : BlockId)
  | after (inst : InstId)
  | before (inst : InstId)
  deriving DecidableEq, Repr, Inhabited

namespace InsertPos

def text : InsertPos → String
  | none => "None"
  | append b => s!"Append({b})"
  | prepend b => s!"Prepend({b})"
  | after i => s!"After({i})"
  | before i => s!"Before({i})"

def place (pos : InsertPos) (i : InstId) (l : Layout) : Checked (InsertPos × Layout) := do
  match pos with
  | none => .error .noInsertionPoint
  | append b => .ok (pos, ← l.appendInst i b)
  | prepend b => .ok (after i, ← l.prependInst i b)
  | after other => .ok (after i, ← l.insertAfter i other)
  | before other => .ok (pos, ← l.insertBefore i other)

/-- The same place, said without an instruction that is about to go. -/
def release (pos : InsertPos) (i : InstId) (l : Layout) : Checked InsertPos := do
  match pos with
  | after other =>
    if other = i then
      match ← l.prevInst? i with
      | some prev => .ok (after prev)
      | .none => .ok (prepend (← l.blockOf i))
    else .ok pos
  | before other =>
    if other = i then
      match ← l.nextInst? i with
      | some next => .ok (before next)
      | .none => .ok (append (← l.blockOf i))
    else .ok pos
  | _ => .ok pos

end InsertPos

end MiddleEnd
