import MiddleEnd.ControlFlow.Dominators
import MiddleEnd.Data.Search
import MiddleEnd.Transform.TrivialPhi

/-!
# Promotion of memory to values

A slot whose address is only loaded from and stored to needs no memory: every load reads the value
stored last. Where paths with different stores meet, on the iterated dominance frontier of the
storing blocks, a phi picks the right one. A walk over the dominator tree then replaces the loads.
Phis that nobody needs and phis that merge a single value are removed again.
-/

namespace MiddleEnd

namespace Promotion

/-- A use that only reads or writes the slot behind `slot`. -/
def isAccess (g : DataFlow) (slot : ValueId) (user : InstId) : Checked Bool := do
  let inst ← g.inst user
  match inst.op with
  | .load => return true
  | .store =>
    if (← Checked.nth inst.args 0) = slot then
      return (← Checked.nth inst.args 1) ≠ slot
    else return false
  | _ => return false

def promotable (f : Func) : Checked (List InstId) := do
  let allocas := f.allInsts.filter fun i => f.flow.op? i = some .alloca
  allocas.filterM fun i => do
    let slot ← f.flow.result i
    (← f.flow.users slot).toList.allM (isAccess f.flow slot)

/-- A slot being promoted: its address and the type of what it holds. -/
structure Slot where
  inst : InstId
  address : ValueId
  ty : Ty
  deriving Repr, Inhabited

structure State where
  builder : Builder
  slots : List Slot
  /-- The loads and stores of the slots, in key order. -/
  accesses : List InstId
  /-- The phis added to each block, with the slots they merge. -/
  phis : Dict BlockId (List (InstId × Slot)) := ∅
  /-- All phis added, in order. -/
  added : List InstId := []

namespace State

def flow (s : State) : DataFlow := s.builder.flow

def func (s : State) : Func := s.builder.func

def withFlow (s : State) (flow : DataFlow) : State :=
  { s with builder := s.builder.withFlow flow }

def ofSlots (b : Builder) (insts : List InstId) : Checked State := do
  let slots ← insts.mapM fun inst => do
    let address ← b.flow.result inst
    return { inst, address, ty := ← (← b.flow.ty address).target : Slot }
  let users ← slots.mapM fun slot => do
    return (← b.flow.users slot.address).toList
  return { builder := b, slots, accesses := (KeySet.ofList users.flatten).toList }

def slotAt? (s : State) (address : ValueId) : Option Slot := s.slots.find? (·.address = address)

def storeBlocks (s : State) (t : DominatorTree) (slot : Slot) : List BlockId :=
  let stores := s.accesses.filter fun i =>
    match s.flow.inst? i with
    | some inst => inst.op = .store && inst.args.head? = some slot.address
    | none => false
  ((stores.filterMap s.func.layout.blockOf?).filter t.isReachable).eraseDups

def addPhi (s : State) (slot : Slot) (block : BlockId) : Run State := do
  let name? := s.flow.name? slot.address
  let (v, b) ← (s.builder.goTo (.prepend block)).phiTyped name? slot.ty [] []
  let phi ← b.flow.definer v
  Run.debug fun _ => .ok ("Insert phi " ++ b.func.valueText v ++ " in " ++ b.func.blockText block)
  let here := (s.phis.get? block).getD []
  return { s with
    builder := b
    phis := s.phis.insert block (here ++ [(phi, slot)])
    added := s.added ++ [phi] }

/-- Add phis for a slot on the frontiers of a stack of blocks. `visited` lists the blocks that were
ever on the stack and `merging` the blocks with a phi. -/
def placeFrom (t : DominatorTree) (slot : Slot) :
    Nat → List BlockId → List BlockId → List BlockId → State → Run State
  | _, [], _, _, s => return s
  | 0, _ :: _, _, _, _ => throw .unfinished
  | fuel + 1, b :: stack, visited, merging, s => do
    let fresh := (← t.frontier b).filter (· ∉ merging)
    let s ← fresh.foldlM (·.addPhi slot ·) s
    let unvisited := fresh.filter (· ∉ visited)
    placeFrom t slot fuel (unvisited.reverse ++ stack) (unvisited ++ visited) (fresh ++ merging) s

def placePhis (s : State) (t : DominatorTree) : Run State :=
  s.slots.foldlM
    (fun s slot =>
      let stores := s.storeBlocks t slot
      placeFrom t slot (t.order.length + 1) stores.reverse stores [] s)
    s

abbrev Versions := List (ValueId × ValueId)

def current (s : State) (versions : Versions) (slot : Slot) : ValueId × State :=
  match versions.lookup slot.address with
  | some v => (v, s)
  | none =>
    let (v, flow) := s.flow.undef slot.ty
    (v, s.withFlow flow)

def accessed? (s : State) (inst : Inst) : Checked (Option Slot) := do
  if inst.op = .load ∨ inst.op = .store then
    return s.slotAt? (← Checked.nth inst.args 0)
  else return none

/-- Replace a load by the value of its slot, or note what a store leaves in its slot. -/
def renameInst (s : State) (versions : Versions) (i : InstId) : Run (State × Versions) := do
  let inst ← s.flow.inst i
  match ← s.accessed? inst with
  | none => return (s, versions)
  | some slot =>
    if inst.op = .store then
      return (s, (slot.address, ← Checked.nth inst.args 1) :: versions)
    let (v, s) := s.current versions slot
    let load ← s.flow.result i
    Run.debug fun _ => .ok ("Replace " ++ s.func.valueText load ++ " with " ++ s.func.valueText v)
    return ({ s with builder := ← s.builder.replaceUse load v }, versions)

def fillSuccessors (s : State) (versions : Versions) (b : BlockId) : Run State := do
  let succs ← s.func.successors b
  succs.foldlM
    (fun s succ =>
      ((s.phis.get? succ).getD []).foldlM
        (fun s (phi, slot) => do
          let (v, s) := s.current versions slot
          return s.withFlow (← s.flow.addIncoming phi v b))
        s)
    s

def rename (t : DominatorTree) : Nat → Versions → State → BlockId → Run State
  | 0, _, _, _ => throw .unfinished
  | fuel + 1, versions, s, b => do
    let versions ← ((s.phis.get? b).getD []).foldlM
      (fun versions (phi, slot) => do
        return (slot.address, ← s.flow.result phi) :: versions)
      versions
    let (s, versions) ← (← s.func.insts b).foldlM
      (fun (s, versions) i => s.renameInst versions i) (s, versions)
    let s ← s.fillSuccessors versions b
    (← t.children b).foldlM (rename t fuel versions) s

/-- Edges from unreachable blocks bring `undef` to the added phis. -/
def fillUnreachable (s : State) (t : DominatorTree) : Checked State :=
  s.added.foldlM
    (fun s phi => do
      let some b := s.func.layout.blockOf? phi | .error .phiNotPlaced
      let ty ← s.flow.ty (← s.flow.result phi)
      let preds := (s.func.predecessors b).filter (!t.isReachable ·)
      preds.foldlM
        (fun s pred => do
          let (blank, flow) := s.flow.undef ty
          return s.withFlow (← flow.addIncoming phi blank pred))
        s)
    s

/-- Loads that the walk did not meet read `undef`. -/
def fillLoads (s : State) : Checked State :=
  s.accesses.foldlM
    (fun s i => do
      let inst ← s.flow.inst i
      if inst.op ≠ .load then
        return s
      let load ← s.flow.result i
      if ← s.flow.hasUsers load then
        return { s with builder := ← s.builder.replaceByUndef load }
      return s)
    s

/-- The added phis that some other instruction needs, through any number of added phis. -/
def neededPhis (s : State) : Checked (List InstId) := do
  let roots ← s.added.filterM fun phi => do
    let users ← s.flow.users (← s.flow.result phi)
    return users.toList.any fun user => user ∉ s.added && user ∉ s.accesses
  let sources (phi : InstId) : Checked (List InstId) := do
    return (← s.flow.definers (← s.flow.inst phi).args).filter (· ∈ s.added)
  Search.reach sources (s.added.length + 1) [] roots

def prunePhis (s : State) : Run State := do
  let needed ← s.neededPhis
  let b ← (s.added.filter (· ∉ needed)).foldlM
    (fun (b : Builder) phi => do
      Run.trace fun _ => do
        return "Prune useless " ++ (← b.func.instText phi)
      b.deleteInst phi)
    s.builder
  return { s with builder := b, added := s.added.filter (· ∈ needed) }

def removeSlots (s : State) : Run Builder := do
  let b ← s.accesses.foldlM
    (fun (b : Builder) i => do
      Run.trace fun _ => do
        return "Remove " ++ (← b.func.instText i)
      b.deleteInst i)
    s.builder
  s.slots.foldlM
    (fun (b : Builder) slot => do
      Run.debug fun _ => do
        return "Remove " ++ (← b.func.instText slot.inst)
      b.deleteInst slot.inst)
    b

end State

def run (b : Builder) : Run (Bool × Builder) := do
  Run.info fun _ => .ok s!"SSA [{b.func.name}]"
  if b.func.isEmpty then
    return (false, b)
  let slots ← promotable b.func
  if slots.isEmpty then
    return (false, b)
  let t ← b.func.dominators
  let s ← State.ofSlots b slots
  Run.trace fun _ => .ok s!"Promoting {slots.length} slots"
  let s ← s.placePhis t
  let s ← State.rename t (t.order.length + 1) [] s (← t.root)
  let s ← s.fillUnreachable t
  let s ← s.fillLoads
  let s ← s.prunePhis
  let b ← s.removeSlots
  let (_, b) ← b.removeTrivialPhis s.added
  return (true, b)

end Promotion

end MiddleEnd
