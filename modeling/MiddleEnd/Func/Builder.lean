import MiddleEnd.Func.Text

/-!
# Building functions

A builder is a function together with the place where the next instruction goes.
-/

namespace MiddleEnd

structure Builder where
  func : Func
  pos : InsertPos := .none
  deriving Inhabited

namespace Builder

def flow (b : Builder) : DataFlow := b.func.flow

def withFlow (b : Builder) (flow : DataFlow) : Builder :=
  { b with func := { b.func with flow } }

def goTo (b : Builder) (pos : InsertPos) : Builder := { b with pos }

def atTerminator (b : Builder) (block : BlockId) : Checked Builder := do
  match ← b.func.terminator? block with
  | some t => .ok (b.goTo (.before t))
  | none => .ok (b.goTo (.append block))

def atPhisEnd (b : Builder) (block : BlockId) : Checked Builder := do
  match (← b.func.phis block).getLast? with
  | some phi => .ok (b.goTo (.after phi))
  | none => .ok (b.goTo (.prepend block))

def insert (b : Builder) (inst : Inst) (ty : Ty) : Checked (InstId × Builder) := do
  let (i, flow) ← b.flow.addInst inst ty
  let (pos, layout) ← b.pos.place i b.func.layout
  .ok (i, { func := { b.func with flow, layout }, pos })

def removeInst (b : Builder) (i : InstId) : Checked Builder := do
  let pos ← b.pos.release i b.func.layout
  let layout ← b.func.layout.removeInst i
  let flow ← b.flow.removeInst i
  .ok { func := { b.func with flow, layout }, pos }

def replaceUse (b : Builder) (old new : ValueId) : Checked Builder := do
  let (_, flow) ← b.flow.replaceUse old new
  .ok (b.withFlow flow)

def replaceByUndef (b : Builder) (v : ValueId) : Checked Builder := do
  let (blank, flow) := b.flow.undef (← b.flow.ty v)
  (b.withFlow flow).replaceUse v blank

def deleteInst (b : Builder) (i : InstId) : Checked Builder := do
  let b ← match b.flow.result? i with
    | some v => if ← b.flow.hasUsers v then b.replaceByUndef v else pure b
    | none => pure b
  b.removeInst i

/-- Remove a dead instruction, then those of its operands that it leaves dead. Every instruction
removed takes one step of `fuel`. -/
def pruneWithin : Nat → InstId → Builder → Checked (Bool × Builder)
  | 0, _, _ => .error .unfinished
  | fuel + 1, i, b => do
    if !(← b.func.isDead i) then
      return (false, b)
    let operands ← b.flow.definers (← b.flow.inst i).args
    let b ← b.removeInst i
    let b ← operands.foldlM
      (fun b j => do
        if b.flow.hasInst j then
          let (_, b) ← pruneWithin fuel j b
          return b
        else return b)
      b
    return (true, b)

/-- Remove a dead instruction together with the operands that become dead with it. Yields whether it
was removed. -/
def prune (b : Builder) (i : InstId) : Checked (Bool × Builder) :=
  pruneWithin (b.flow.insts.size + 1) i b

def moveToEnd (b : Builder) (i : InstId) (block : BlockId) : Checked Builder := do
  let pos ← b.pos.release i b.func.layout
  let layout ← b.func.layout.removeInst i
  let layout ← layout.appendInst i block
  .ok { func := { b.func with layout }, pos }

def addBlock (b : Builder) (name? : Option String) : Checked (BlockId × Builder) := do
  let (block, blockTable) := b.func.blockTable.add { name? }
  let layout ← b.func.layout.appendBlock block
  .ok (block, { b with func := { b.func with blockTable, layout } })

def addBlockAfter (b : Builder) (name : String) (after : BlockId) :
    Checked (BlockId × Builder) := do
  let (block, blockTable) := b.func.blockTable.add { name? := some name }
  let layout ← b.func.layout.insertBlockAfter block after
  .ok (block, { b with func := { b.func with blockTable, layout } })

def setBlockName (b : Builder) (block : BlockId) (name? : Option String) : Checked Builder := do
  let blockTable ← b.func.blockTable.set block { name? }
  .ok { b with func := { b.func with blockTable } }

/-- Let the phis that refer to a block forget it. Nothing else may refer to it. -/
def dropReferences (b : Builder) (block : BlockId) : Checked Builder :=
  (b.flow.usersOfBlock block).toList.foldlM
    (fun b i => do
      if b.flow.isPhi i then
        let (_, flow) ← b.flow.removeIncoming i block
        return b.withFlow flow
      else .error (.blockTargeted block (← b.func.instText i)))
    b

/-- Remove a block with its instructions. Its values become `undef` elsewhere, and phis forget the
edges from it. -/
def removeBlock (b : Builder) (block : BlockId) : Checked Builder := do
  let insts ← b.func.insts block
  let b ← (insts.filterMap b.flow.result?).foldlM (·.replaceByUndef ·) b
  let b ← insts.foldlM (·.removeInst ·) b
  let b ← b.dropReferences block
  let b := if b.pos = .append block ∨ b.pos = .prepend block then b.goTo .none else b
  let flow ← b.flow.forgetBlock block
  let layout ← b.func.layout.removeBlock block
  let (_, blockTable) ← b.func.blockTable.remove block
  .ok { b with func := { b.func with flow := flow.touch, layout, blockTable } }

def emit (b : Builder) (name? : Option String) (inst : Inst) (ty : Ty) :
    Checked (InstId × Builder) := do
  let (i, b) ← b.insert inst ty
  match name?, b.flow.result? i with
  | some name, some v => .ok (i, b.withFlow (b.flow.setName v name))
  | _, _ => .ok (i, b)

def emitValue (b : Builder) (name? : Option String) (inst : Inst) (ty : Ty) :
    Checked (ValueId × Builder) := do
  let (i, b) ← b.emit name? inst ty
  .ok (← b.flow.result i, b)

def alloca (b : Builder) (name? : Option String) (ty : Ty) : Checked (ValueId × Builder) :=
  b.emitValue name? (.nullary .alloca) (.ptr ty)

def load (b : Builder) (name? : Option String) (slot : ValueId) : Checked (ValueId × Builder) := do
  let ty ← (← b.flow.ty slot).target
  b.emitValue name? (.unary .load slot) ty

def store (b : Builder) (name? : Option String) (slot v : ValueId) : Checked (InstId × Builder) :=
  b.emit name? (.binary .store slot v) .void

def unary (b : Builder) (name? : Option String) (op : Opcode) (x : ValueId) :
    Checked (ValueId × Builder) := do
  if !op.isUnaryArith then
    .error (.notUnary op)
  b.emitValue name? (.unary op x) (← b.flow.ty x)

def binary (b : Builder) (name? : Option String) (op : Opcode) (x y : ValueId) :
    Checked (ValueId × Builder) := do
  let ty ← if op.isCompare then pure (.int 1)
    else if op.isBinaryArith then b.flow.ty x
    else .error (.notBinary op)
  b.emitValue name? (.binary op x y) ty

def cast (b : Builder) (name? : Option String) (op : Opcode) (x : ValueId) (ty : Ty) :
    Checked (ValueId × Builder) :=
  b.emitValue name? (.unary op x) ty

def call (b : Builder) (name? : Option String) (callee : ImportId) (args : List ValueId) :
    Checked (InstId × Builder) := do
  let target ← b.flow.imports.get callee
  b.emit name? (.call .call callee args) target.sig.returns

def phiTyped (b : Builder) (name? : Option String) (ty : Ty) (args : List ValueId)
    (preds : List BlockId) : Checked (ValueId × Builder) := do
  if args.length ≠ preds.length then
    .error .phiListsDiffer
  b.emitValue name? (.phi .phi args preds) ty

def phi (b : Builder) (name? : Option String) (args : List ValueId) (preds : List BlockId) :
    Checked (ValueId × Builder) := do
  match args with
  | [] => .error .emptyPhi
  | v :: _ => b.phiTyped name? (← b.flow.ty v) args preds

def copy (b : Builder) (name? : Option String) (reg v : ValueId) : Checked (InstId × Builder) :=
  b.emit name? (.binary .copy reg v) .void

def br (b : Builder) (name? : Option String) (target : BlockId) : Checked (InstId × Builder) :=
  b.emit name? (.jump .br target) .void

def brCond (b : Builder) (name? : Option String) (cond : ValueId) (onTrue onFalse : BlockId) :
    Checked (InstId × Builder) :=
  b.emit name? (.branch .brCond cond onTrue onFalse) .void

def ret (b : Builder) (name? : Option String) : Checked (InstId × Builder) :=
  b.emit name? (.nullary .ret) .void

def retValue (b : Builder) (name? : Option String) (v : ValueId) : Checked (InstId × Builder) :=
  b.emit name? (.unary .retValue v) .void

end Builder

end MiddleEnd
