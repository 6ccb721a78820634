import MiddleEnd.DataFlow.Edit
import MiddleEnd.Layout

/-!
# Functions

A function is its signature, its data flow, its blocks and their layout. The edges between blocks
are not kept: successors are read off the last instruction of a block, predecessors off the
instructions that refer to it.
-/

namespace MiddleEnd

structure BlockInfo where
  name? : Option String := none
  deriving Repr, Inhabited

structure Func where
  name : String
  sig : Signature
  flow : DataFlow
  blockTable : Table BlockId BlockInfo := {}
  layout : Layout := {}
  deriving Inhabited

namespace Func

def new (name : String) (sig : Signature) : Func :=
  { name, sig, flow := .ofSignature sig }

def entry (f : Func) : Checked BlockId :=
  .ofOption (.noEntry f.name) f.layout.firstBlock?

def isEmpty (f : Func) : Bool := f.layout.firstBlock?.isNone

def blocks (f : Func) : List BlockId := f.layout.blocks

def insts (f : Func) (b : BlockId) : Checked (List InstId) := f.layout.insts b

def allInsts (f : Func) : List InstId := f.layout.allInsts

def params (f : Func) : List ValueId := f.flow.params

def paramAt (f : Func) (n : Nat) : Checked ValueId :=
  .ofOption (.noParam f.name n) f.flow.params[n]?

def blockBound (f : Func) : Nat := f.blockTable.bound

def hasBlock (f : Func) (b : BlockId) : Bool := f.blockTable.contains b

def blockName? (f : Func) (b : BlockId) : Checked (Option String) := do
  let info ← f.blockTable.get b
  .ok info.name?

def terminator? (f : Func) (b : BlockId) : Checked (Option InstId) := do
  .ok ((← f.layout.lastInst? b).filter f.flow.isTerminator)

/-- The blocks a block leads to, each once, in the order of the terminator. -/
def successors (f : Func) (b : BlockId) : Checked (List BlockId) := do
  match ← f.terminator? b with
  | some t => .ok (← f.flow.inst t).blocks.eraseDups
  | none => .ok []

def predecessors (f : Func) (b : BlockId) : List BlockId :=
  let terms := (f.flow.usersOfBlock b).toList.filter f.flow.isTerminator
  (KeySet.ofList (terms.filterMap f.layout.blockOf?)).toList

def phis (f : Func) (b : BlockId) : Checked (List InstId) := do
  .ok ((← f.insts b).takeWhile f.flow.isPhi)

def allPhis (f : Func) : List InstId :=
  f.layout.rows.flatMap (·.insts.takeWhile f.flow.isPhi)

def firstNonPhi? (f : Func) (b : BlockId) : Checked (Option InstId) := do
  .ok ((← f.insts b).find? (!f.flow.isPhi ·))

def isDead (f : Func) (i : InstId) : Checked Bool := do
  let inst ← f.flow.inst i
  if inst.op.hasSideEffects then
    return false
  match f.flow.result? i with
  | some v => return !(← f.flow.hasUsers v)
  | none => return true

end Func

end MiddleEnd
