import MiddleEnd.Func.Builder
import MiddleEnd.Transform.Components
import MiddleEnd.Transform.Folding

/-!
# Operator strength reduction

A component of one phi and of additions and subtractions of values that do not change in the loop is
an induction variable of the loop with the phi at its header. A product, sum or difference of an
induction variable and such a value is an induction variable as well: it starts from the product,
sum or difference of the start value and, for products, advances by the scaled step. So it is
computed by a copy of the induction variable instead.
-/

namespace MiddleEnd

namespace StrengthReduction

structure State where
  builder : Builder
  /-- The loop header of each induction variable. -/
  headers : Dict ValueId BlockId := ∅
  /-- The values computed so far, by operands and operation. -/
  memo : Dict (ValueId × Opcode × ValueId) ValueId := ∅
  modified : Bool := false

namespace State

def flow (s : State) : DataFlow := s.builder.flow

def func (s : State) : Func := s.builder.func

def withFlow (s : State) (flow : DataFlow) : State :=
  { s with builder := s.builder.withFlow flow }

def setArg (s : State) (i : InstId) (n : Nat) (v : ValueId) : Checked State := do
  return s.withFlow (← s.flow.setArg i n v)

end State

def isInvariant (t : DominatorTree) (f : Func) (v : ValueId) (header : BlockId) : Checked Bool := do
  match ← f.flow.origin v with
  | .const _ | .param _ _ => return true
  | .result _ i => return (f.layout.blockOf? i).any (t.strictlyDominates · header)
  | .undef _ | .reg _ => return false

/-- The instruction keeps a component an induction variable of the loop at `header`. -/
def fitsComponent (t : DominatorTree) (f : Func) (members : List ValueId) (header : BlockId)
    (i : InstId) : Checked Bool := do
  let inst ← f.flow.inst i
  if !(← f.flow.ty (← f.flow.result i)).isInt then
    return false
  match inst.op with
  | .phi =>
    inst.args.allM fun v => do
      if v ∈ members then return true else isInvariant t f v header
  | .add =>
    let x ← Checked.nth inst.args 0
    let y ← Checked.nth inst.args 1
    if x ∈ members then
      if ← isInvariant t f y header then
        return true
    if y ∈ members then isInvariant t f x header else return false
  | .sub =>
    let x ← Checked.nth inst.args 0
    let y ← Checked.nth inst.args 1
    if x ∈ members then isInvariant t f y header else return false
  | _ => return false

/-- The header of the loop that a component is an induction variable of, if it is one. -/
def inductionHeader? (t : DominatorTree) (f : Func) (component : List InstId) :
    Checked (Option BlockId) := do
  match component.filter f.flow.isPhi with
  | [phi] =>
    let some header := f.layout.blockOf? phi | return none
    if (t.idom? header).isNone then
      return none
    let members ← component.mapM f.flow.result
    if ← component.allM (fitsComponent t f members header) then
      return some header
    return none
  | _ => return none

def isCandidate (t : DominatorTree) (s : State) (x y : ValueId) : Checked Bool := do
  match s.headers.get? x with
  | some header => isInvariant t s.func y header
  | none => return false

def candidate? (t : DominatorTree) (s : State) (inst : Inst) :
    Checked (Option (ValueId × ValueId)) := do
  if inst.op ≠ .add ∧ inst.op ≠ .mul ∧ inst.op ≠ .sub then
    return none
  let x ← Checked.nth inst.args 0
  let y ← Checked.nth inst.args 1
  if ← isCandidate t s x y then
    return some (x, y)
  if inst.op = .sub then
    return none
  if ← isCandidate t s y x then
    return some (y, x)
  return none

/-- Copy the instruction that yields an induction variable right after it. Yields the copied
instruction, the copy and its result. -/
def cloneDefinition (s : State) (iv : ValueId) : Run (Inst × InstId × ValueId × State) := do
  let definer ← s.flow.definer iv
  let inst ← s.flow.inst definer
  let ty ← s.flow.ty iv
  let (i, b) ← (s.builder.goTo (.after definer)).insert inst ty
  let result ← b.flow.result i
  Run.trace fun _ => do
    return "Clone " ++ (← b.func.instText definer) ++ " as " ++ b.func.valueText result
  return (inst, i, result, { s with builder := b })

/-- Compute `a op b` before the loop at `header`, or as a constant. -/
def materialize (t : DominatorTree) (s : State) (op : Opcode) (a b : ValueId) (header : BlockId) :
    Run (ValueId × State) := do
  let folded ← match ← s.flow.constPair? a b with
    | some (x, y) => Word.evalBinary op x y
    | none => pure none
  match folded with
  | some w =>
    let (v, flow) := s.flow.const w
    return (v, s.withFlow flow)
  | none =>
    let some block := t.idom? header | throw (.headerWithoutDominator header)
    let builder ← s.builder.atTerminator block
    let (v, builder) ← builder.binary none op a b
    Run.trace fun _ =>
      .ok ("Materialize " ++ builder.func.valueText v ++ " in " ++ builder.func.blockText block)
    return (v, { s with builder })

/-- Set an operand of the copy `i`: an induction variable of the same loop to its own reduction, any
other value to one from before the loop, if the operation applies to it. -/
def setOperand (reduce applyTo : State → ValueId → Run (ValueId × State)) (header : BlockId)
    (applies : Bool) (i : InstId) (s : State) : ValueId × Nat → Run State
  | (v, n) => do
    if s.headers.get? v = some header then
      let (v, s) ← reduce s v
      return ← s.setArg i n v
    if applies then
      let (v, s) ← applyTo s v
      return ← s.setArg i n v
    return s

mutual

/-- An induction variable that is always `iv op rc`. -/
def reduce (t : DominatorTree) : Nat → State → Opcode → ValueId → ValueId → Run (ValueId × State)
  | 0, _, _, _, _ => throw .unfinished
  | fuel + 1, s, op, iv, rc => do
    if let some v := s.memo.get? (iv, op, rc) then
      return (v, s)
    let header ← s.headers.get iv
    let (inst, i, result, s) ← cloneDefinition s iv
    let s := { s with
      memo := s.memo.insert (iv, op, rc) result
      headers := s.headers.insert result header }
    let s ← inst.args.zipIdx.foldlM
      (setOperand (reduce t fuel · op · rc) (applyTo t fuel · op · rc header) header
        (inst.op.isPhi || op == .mul) i)
      s
    return (result, s)

/-- A value that is `a op b` and does not change in the loop at `header`. -/
def applyTo (t : DominatorTree) :
    Nat → State → Opcode → ValueId → ValueId → BlockId → Run (ValueId × State)
  | 0, _, _, _, _, _ => throw .unfinished
  | fuel + 1, s, op, a, b, header => do
    if let some v := s.memo.get? (a, op, b) then
      return (v, s)
    if ← isCandidate t s a b then
      return ← reduce t fuel s op a b
    if op.isCommutative then
      if ← isCandidate t s b a then
        return ← reduce t fuel s op b a
    let (v, s) ← materialize t s op a b header
    return (v, { s with memo := s.memo.insert (a, op, b) v })

end

def reduceInst (t : DominatorTree) (s : State) (i : InstId) : Run State := do
  let inst ← s.flow.inst i
  match ← candidate? t s inst with
  | none => return s
  | some (iv, rc) =>
    let result ← s.flow.result i
    let bound := s.flow.values.bound + 2
    let (v, s) ← reduce t (2 * (bound * bound)) s inst.op iv rc
    Run.debug fun _ => do
      return "Reduce " ++ (← s.func.instText i) ++ " to " ++ s.func.valueText v
    let b ← s.builder.replaceUse result v
    return { s with builder := ← b.removeInst i, modified := true }

/-- Note an induction variable, or reduce the instructions of the component. -/
def processComponent (t : DominatorTree) (s : State) (component : List InstId) : Run State := do
  let header? ← if 1 < component.length then inductionHeader? t s.func component else pure none
  match header? with
  | some header =>
    Run.trace fun _ => .ok ("Induction variable in " ++ s.func.blockText header)
    let results ← component.mapM fun i => (s.flow.result i : Run ValueId)
    return { s with headers := results.foldl (·.insert · header) s.headers }
  | none =>
    component.foldlM
      (fun s i => if s.flow.hasInst i then reduceInst t s i else return s)
      s

def run (b : Builder) : Run (Bool × Builder) := do
  Run.info fun _ => .ok s!"OSR [{b.func.name}]"
  if b.func.isEmpty then
    return (false, b)
  let t ← b.func.dominators
  let components ← b.func.components t
  Run.trace fun _ => .ok s!"{components.length} strongly connected components"
  let s ← components.foldlM (processComponent t) { builder := b }
  return (s.modified, s.builder)

end StrengthReduction

end MiddleEnd
