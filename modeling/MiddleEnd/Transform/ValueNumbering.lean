import MiddleEnd.ControlFlow.Dominators
import MiddleEnd.Func.Builder
import MiddleEnd.Transform.Folding

/-!
# Global value numbering

Values known to be equal get one number: the value that stands for all of them. A walk over the
dominator tree numbers instructions that fold to a constant or compute what a dominating instruction
already computed, and phis that merge one value or the same values as another phi of their block.
What was numbered is then replaced, and the walk repeats, since a merge on an edge back to a loop
header may reveal more.
-/

namespace MiddleEnd

namespace ValueNumbering

/-- What an instruction without effects computes, up to the order of commuting operands. -/
inductive Expr where
  /-- Casts of one value to different types differ. -/
  | unary (op : Opcode) (x : ValueId) (ty : Ty)
  | binary (op : Opcode) (x y : ValueId)
  deriving DecidableEq, Repr

def Expr.of (g : DataFlow) (i : InstId) : Checked Expr := do
  match ← g.inst i with
  | .unary op x => return .unary op x (← g.ty (← g.result i))
  | .binary op x y =>
    return if op.isCommutative && y.index < x.index then .binary op y x else .binary op x y
  | _ => .error (.notPure i)

abbrev Available := List (Expr × ValueId)

structure State where
  builder : Builder
  /-- The values that are another value's number, each with that value. -/
  numbers : Dict ValueId ValueId := ∅
  /-- The instructions that were numbered, in order. -/
  redundant : List InstId := []

namespace State

def flow (s : State) : DataFlow := s.builder.flow

def func (s : State) : Func := s.builder.func

def withFlow (s : State) (flow : DataFlow) : State :=
  { s with builder := s.builder.withFlow flow }

def numberWithin (numbers : Dict ValueId ValueId) : Nat → ValueId → ValueId
  | 0, v => v
  | fuel + 1, v =>
    match numbers.get? v with
    | some n => if n = v then v else numberWithin numbers fuel n
    | none => v

def number (s : State) (v : ValueId) : ValueId :=
  numberWithin s.numbers (s.numbers.entries.length + 1) v

def merge (s : State) (i : InstId) (v : ValueId) : Run State := do
  let result ← s.flow.result i
  Run.debug fun _ => do
    return "Replace " ++ (← s.func.instText i) ++ " with " ++ s.func.valueText v
  return { s with numbers := s.numbers.insert result v, redundant := s.redundant ++ [i] }

def edgeOrder (a b : BlockId × ValueId) : Bool :=
  a.1.index < b.1.index || (a.1.index == b.1.index && a.2.index ≤ b.2.index)

def phiEdges (s : State) (t : DominatorTree) (inst : Inst) : List (BlockId × ValueId) :=
  let edges := inst.edges.filter fun (_, b) => t.isReachable b
  (edges.map fun (v, b) => (b, s.number v)).mergeSort edgeOrder

/-- Number the phis of a block. `seen` lists the merges of the phis before, with their results. -/
def numberPhis (t : DominatorTree) :
    List (List (BlockId × ValueId) × ValueId) → List InstId → State → Run State
  | _, [], s => return s
  | seen, phi :: rest, s => do
    let result ← s.flow.result phi
    let edges := s.phiEdges t (← s.flow.inst phi)
    match ((edges.map (·.2)).filter (· ≠ result)).eraseDups with
    | [v] =>
      let s ← s.merge phi v
      numberPhis t seen rest s
    | _ =>
      match seen.lookup edges with
      | some v =>
        let s ← s.merge phi v
        numberPhis t seen rest s
      | none => numberPhis t ((edges, result) :: seen) rest s

/-- Let an instruction read the numbers of its operands. The target of a copy is not read. -/
def numberOperands (s : State) (i : InstId) : Run State := do
  let inst ← s.flow.inst i
  inst.args.zipIdx.foldlM
    (fun s (v, n) => do
      let number := s.number v
      if (inst.op = .copy ∧ n = 0) ∨ number = v then
        return s
      return s.withFlow (← s.flow.setArg i n number))
    s

/-- Number an instruction that folds or computes what is available; otherwise make it available. -/
def numberInst (s : State) (available : Available) (i : InstId) : Run (State × Available) := do
  let s ← s.numberOperands i
  let inst ← s.flow.inst i
  if !inst.op.isPure then
    return (s, available)
  match ← s.flow.fold? i with
  | some w =>
    let (v, flow) := s.flow.const w
    return (← (s.withFlow flow).merge i v, available)
  | none =>
    let expr ← Expr.of s.flow i
    match available.lookup expr with
    | some v => return (← s.merge i v, available)
    | none => return (s, (expr, ← s.flow.result i) :: available)

def fillSuccessors (s : State) (b : BlockId) : Run State := do
  let succs ← s.func.successors b
  succs.foldlM
    (fun s succ => do
      let phis ← s.func.phis succ
      phis.foldlM
        (fun s phi => do
          match ← s.flow.incoming? phi b with
          | none => return s
          | some v =>
            let number := s.number v
            if number = v then
              return s
            return s.withFlow (← s.flow.setIncoming phi b number))
        s)
    s

/-- Number a block and the blocks it dominates. What a block makes available is so in the blocks it
dominates only. -/
def walk (t : DominatorTree) : Nat → Available → State → BlockId → Run State
  | 0, _, _, _ => throw .unfinished
  | fuel + 1, available, s, b => do
    Run.trace fun _ => .ok ("Numbering " ++ s.func.blockText b)
    let s ← numberPhis t [] (← s.func.phis b) s
    let insts := (← s.func.insts b).filter (!s.flow.isPhi ·)
    let (s, available) ← insts.foldlM (fun (s, available) i => s.numberInst available i)
        (s, available)
    let s ← s.fillSuccessors b
    (← t.children b).foldlM (walk t fuel available) s

def finish (s : State) : Checked Builder := do
  let b ← s.redundant.foldlM
    (fun (b : Builder) i => do
      let result ← b.flow.result i
      b.replaceUse result (s.number result))
    s.builder
  s.redundant.foldlM (·.removeInst ·) b

end State

/-- Walk and replace until nothing is redundant. Every walk but the last removes an instruction. -/
def repeatWithin : Nat → Bool → Builder → Run (Bool × Builder)
  | 0, _, _ => throw .unfinished
  | fuel + 1, modified, b => do
    let t ← b.func.dominators
    let s ← State.walk t (t.order.length + 1) [] { builder := b } (← t.root)
    let b ← s.finish
    if s.redundant.isEmpty then return (modified, b) else repeatWithin fuel true b

def run (b : Builder) : Run (Bool × Builder) := do
  Run.info fun _ => .ok s!"GVN [{b.func.name}]"
  if b.func.isEmpty then
    return (false, b)
  repeatWithin (b.flow.insts.size + 1) false b

end ValueNumbering

end MiddleEnd
