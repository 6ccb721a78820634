import MiddleEnd.DataFlow.Basic

/-!
# Edits of the data flow

Adding, removing and rewiring instructions. Every edit keeps the sets of users in step with the
operands: an instruction is a user of a value as long as the value is one of its operands, however
many times.
-/

namespace MiddleEnd.DataFlow

def linkUse (g : DataFlow) (fault : Fault) (v : ValueId) (i : InstId) : Checked DataFlow :=
  if g.values.contains v then
    .ok { g with values := g.values.update v fun e => { e with users := e.users.insert i } }
  else .error fault

def unlinkUse (g : DataFlow) (v : ValueId) (i : InstId) : DataFlow :=
  { g with values := g.values.update v fun e => { e with users := e.users.erase i } }

def linkBlock (g : DataFlow) (b : BlockId) (i : InstId) : DataFlow :=
  { g with blockUsers := g.blockUsers.insert b ((g.usersOfBlock b).insert i) }

def unlinkBlock (g : DataFlow) (b : BlockId) (i : InstId) : DataFlow :=
  match g.blockUsers.get? b with
  | some users => { g with blockUsers := g.blockUsers.insert b (users.erase i) }
  | none => g

def forgetBlock (g : DataFlow) (b : BlockId) : Checked DataFlow :=
  if (g.usersOfBlock b).isEmpty then .ok { g with blockUsers := g.blockUsers.erase b }
  else .error (.blockInUse b)

/-- Put another instruction in the place of `i`, without a look at its users. -/
def putInst (g : DataFlow) (i : InstId) (inst : Inst) : DataFlow :=
  { g with insts := g.insts.update i fun e => { e with inst } }

def addInst (g : DataFlow) (inst : Inst) (ty : Ty) : Checked (InstId × DataFlow) := do
  let g := if inst.op.isTerminator then g.touch else g
  let (i, insts) := g.insts.add { inst }
  let g ← inst.args.foldlM (fun g v => g.linkUse (.operandAbsent v i) v i) { g with insts }
  let g := inst.blocks.foldl (·.linkBlock · i) g
  if ty.isVoid then
    return (i, g)
  let (v, g) := g.addValue (.result ty i)
  return (i, { g with insts := g.insts.update i fun e => { e with result? := some v } })

/-- Remove an instruction whose result nobody uses. -/
def removeInst (g : DataFlow) (i : InstId) : Checked DataFlow := do
  let g ← match g.result? i with
    | none => pure g
    | some v =>
      if ← g.hasUsers v then
        .error (.resultInUse i v)
      let (_, values) ← g.values.remove v
      pure (({ g with values } : DataFlow).clearName v).2
  let (entry, insts) ← g.insts.remove i
  let g := { g with insts }
  let g := if entry.inst.op.isTerminator then g.touch else g
  let g := entry.inst.args.foldl (·.unlinkUse · i) g
  return entry.inst.blocks.foldl (·.unlinkBlock · i) g

/-- Replace a value among the operands of one instruction. Yields the number of operands
replaced. -/
def replaceWithin (g : DataFlow) (old new : ValueId) (i : InstId) : Checked (Nat × DataFlow) := do
  if old = new then
    return (0, g)
  let inst ← g.inst i
  let count := inst.args.count old
  if count = 0 then
    return (0, g)
  let g := g.putInst i (inst.mapArgs fun v => if v = old then new else v)
  let g ← (g.unlinkUse old i).linkUse (.valueAbsent new) new i
  return (count, g)

/-- Replace a value wherever it is used. Yields the number of operands replaced. -/
def replaceUse (g : DataFlow) (old new : ValueId) : Checked (Nat × DataFlow) := do
  if old = new then
    return (0, g)
  let users ← g.users old
  users.toList.foldlM
    (fun (count, g) i => do
      let (n, g) ← g.replaceWithin old new i
      return (count + n, g))
    (0, g)

def setArg (g : DataFlow) (i : InstId) (n : Nat) (v : ValueId) : Checked DataFlow := do
  let inst ← g.inst i
  let old ← Checked.nth inst.args n
  let inst := inst.setArg n v
  let g := g.putInst i inst
  let g := if old ∈ inst.args then g else g.unlinkUse old i
  g.linkUse (.valueAbsent v) v i

def replaceBlockWithin (g : DataFlow) (old new : BlockId) (i : InstId) :
    Checked (Nat × DataFlow) := do
  if old = new then
    return (0, g)
  let inst ← g.inst i
  let count := inst.blocks.count old
  if count = 0 then
    return (0, g)
  let g := g.putInst i (inst.mapBlocks fun b => if b = old then new else b)
  let g := (g.unlinkBlock old i).linkBlock new i
  return (count, if inst.op.isTerminator then g.touch else g)

def replaceBlockUse (g : DataFlow) (old new : BlockId) : Checked (Nat × DataFlow) :=
  (g.usersOfBlock old).toList.foldlM
    (fun (count, g) i => do
      let (n, g) ← g.replaceBlockWithin old new i
      return (count + n, g))
    (0, g)

def phiLists (g : DataFlow) (i : InstId) : Checked (Opcode × List ValueId × List BlockId) := do
  match ← g.inst i with
  | .phi op args preds => .ok (op, args, preds)
  | _ => .error (.notPhi i)

def incoming? (g : DataFlow) (i : InstId) (b : BlockId) : Checked (Option ValueId) := do
  match ← g.inst i with
  | .phi _ args preds =>
    match preds.idxOf? b with
    | some n => .ok (some (← Checked.nth args n))
    | none => .ok none
  | _ => .ok none

def addIncoming (g : DataFlow) (i : InstId) (v : ValueId) (b : BlockId) : Checked DataFlow := do
  let (op, args, preds) ← g.phiLists i
  let g := g.putInst i (.phi op (args ++ [v]) (preds ++ [b]))
  let g ← g.linkUse (.valueAbsent v) v i
  return g.linkBlock b i

/-- Change the value a phi takes when control comes from `b`, or add the edge if there is none. -/
def setIncoming (g : DataFlow) (i : InstId) (b : BlockId) (v : ValueId) : Checked DataFlow := do
  let (_, _, preds) ← g.phiLists i
  match preds.idxOf? b with
  | some n => g.setArg i n v
  | none => g.addIncoming i v b

/-- Split the edges of a phi into the dropped values, which come from `b`, and the kept lists.
`kept` counts the edges kept so far and `most` the values among them. -/
def dropEdges (b : BlockId) (kept most : Nat) :
    List ValueId → List BlockId → Checked (List ValueId × List ValueId × List BlockId)
  | vs, [] => .ok ([], vs, [])
  | v :: vs, p :: ps =>
    if p = b then do
      let (dropped, vs, ps) ← dropEdges b kept most vs ps
      .ok (v :: dropped, vs, ps)
    else do
      let (dropped, vs, ps) ← dropEdges b (kept + 1) (most + 1) vs ps
      .ok (dropped, v :: vs, p :: ps)
  | [], p :: ps =>
    if p = b then .error (.removalOutOfBounds kept most)
    else do
      let (dropped, vs, ps) ← dropEdges b (kept + 1) most [] ps
      .ok (dropped, vs, p :: ps)

def removeIncoming (g : DataFlow) (i : InstId) (b : BlockId) : Checked (Nat × DataFlow) := do
  let (op, args, preds) ← g.phiLists i
  let (dropped, args, preds) ← dropEdges b 0 0 args preds
  if dropped.isEmpty then
    return (0, g)
  let g := (g.putInst i (.phi op args preds)).unlinkBlock b i
  let g := dropped.foldl (fun g v => if v ∈ args then g else g.unlinkUse v i) g
  return (dropped.length, g)

/-- Import a function. A name is imported once, with the signature it came with first. -/
def addImport (g : DataFlow) (name : String) (sig : Signature) : ImportId × DataFlow :=
  match g.imports.toList.find? (·.2.name = name) with
  | some (f, _) => (f, g)
  | none =>
    let (f, imports) := g.imports.add ⟨name, sig⟩
    (f, { g with imports })

end MiddleEnd.DataFlow
