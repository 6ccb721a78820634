import MiddleEnd.Module
import MiddleEnd.Transform.Folding

/-!
# What is known about values

Sparse conditional constant propagation: which values are constant and which blocks may run at all.
Values start out unknown and only move up, as the blocks that define or feed them turn out to run.
Two work lists drive the search: edges that turned out to be taken and values that moved up. A
branch on a condition that stays unknown is taken to go both ways. A call to a function of the
module is evaluated by a search of its own, with the argument values of the call.
-/

namespace MiddleEnd

inductive LatticeValue where
  /-- Nothing defined it yet. -/
  | unknown
  | const (word : Word)
  /-- It may take more than one value. -/
  | varying
  deriving DecidableEq, Repr

namespace LatticeValue

def meet : LatticeValue → LatticeValue → LatticeValue
  | unknown, x => x
  | x, unknown => x
  | const a, const b => if a = b then const a else varying
  | _, _ => varying

def const? : LatticeValue → Option Word
  | const w => some w
  | _ => none

def ofResult : Option Word → LatticeValue
  | some w => const w
  | none => varying

def text : LatticeValue → String
  | unknown => "Undef"
  | const w => "Const(" ++ w.typedText ++ ")"
  | varying => "NotConst"

end LatticeValue

/-- What is known about a function. -/
structure Facts where
  values : Dict ValueId LatticeValue := ∅
  /-- The blocks that may run. -/
  blocks : List BlockId := []
  /-- The edges that may be taken. -/
  edges : List (BlockId × BlockId) := []
  /-- The values that may be returned. -/
  returns : LatticeValue := .unknown

namespace Facts

def value (facts : Facts) (f : Func) (v : ValueId) : Checked LatticeValue := do
  match ← f.flow.origin v with
  | .const w => return .const w
  | .undef _ => return .unknown
  | .reg _ => return .varying
  | _ => return (facts.values.get? v).getD .unknown

def runs (facts : Facts) (b : BlockId) : Bool := b ∈ facts.blocks

def taken (facts : Facts) (source target : BlockId) : Bool := (source, target) ∈ facts.edges

end Facts

namespace Propagation

/-- The facts so far and the work left, the next piece first. -/
structure State where
  facts : Facts := {}
  /-- Edges that may be taken but were not followed yet. The entry is reached from nowhere. -/
  edgeWork : List (Option BlockId × BlockId) := []
  /-- Values that moved up but whose users were not looked at yet. -/
  valueWork : List ValueId := []

abbrev CallRule := Facts → InstId → Inst → Run LatticeValue

/-- How the users of a value are gone through: all of them once, in an order that may be any. -/
structure UserOrder where
  list : Func → ValueId → KeySet InstId → List InstId
  perm (f : Func) (v : ValueId) (users : KeySet InstId) : (list f v users).Perm users.toList

def UserOrder.ascending : UserOrder := ⟨fun _ _ users => users.toList, fun _ _ _ => .refl _⟩

namespace State

def value (s : State) (f : Func) (v : ValueId) : Checked LatticeValue := s.facts.value f v

def update (s : State) (f : Func) (v : ValueId) (x : LatticeValue) : Run State := do
  let old ← s.value f v
  let new := old.meet x
  if new = old then
    return s
  Run.trace fun _ => .ok (f.valueText v ++ " is " ++ new.text)
  return { s with
    facts := { s.facts with values := s.facts.values.insert v new }
    valueWork := v :: s.valueWork }

def mark (s : State) (source target : BlockId) : State :=
  if s.facts.taken source target then s
  else { s with edgeWork := (some source, target) :: s.edgeWork }

end State

/-- An operand that decides the result alone: zero for products and conjunctions, all ones for
disjunctions. -/
def absorb (op : Opcode) (width : Nat) (x y : LatticeValue) : Checked (Option Word) := do
  let holds (check : Word → Bool) := x.const?.any check || y.const?.any check
  match op with
  | .mul | .and => if holds Word.isZero then return some (← Word.ofNat width 0) else return none
  | .or => if holds Word.isAllOnes then return some (← Word.allOnes width) else return none
  | _ => return none

def evalKnown (f : Func) (i : InstId) (op : Opcode) (args : List LatticeValue) :
    Checked LatticeValue := do
  match args with
  | [.const a, .const b] =>
    if op.isBinaryArith then
      return .ofResult (← Word.evalBinary op a b)
    if op.isCompare then
      return .ofResult (← Word.evalCompare op a b)
  | [.const a] =>
    if op.isUnaryArith then
      return .ofResult (Word.evalUnary op a)
    if op.isCast then
      let width ← (← f.flow.ty (← f.flow.result i)).width
      return .ofResult (← Word.evalCast op a width)
  | _ => pure ()
  return if .varying ∈ args then .varying else .unknown

def evalPure (f : Func) (facts : Facts) (i : InstId) (inst : Inst) : Checked LatticeValue := do
  let args ← inst.args.mapM (facts.value f)
  if inst.op.isBinaryArith then
    let width ← (← f.flow.ty (← f.flow.result i)).width
    match ← absorb inst.op width (← Checked.nth args 0) (← Checked.nth args 1) with
    | some w => return .const w
    | none => evalKnown f i inst.op args
  else
    evalKnown f i inst.op args

def evalPhi (f : Func) (facts : Facts) (b : BlockId) (inst : Inst) : Checked LatticeValue :=
  (inst.edges.filter fun (_, pred) => facts.taken pred b).foldlM
    (fun x (v, _) => do
      return x.meet (← facts.value f v))
    .unknown

def visitBranch (f : Func) (s : State) (b : BlockId) (inst : Inst) : Checked State := do
  if inst.op = .br then
    return s.mark b (← Checked.nth inst.blocks 0)
  match ← s.value f (← Checked.nth inst.args 0) with
  | .unknown => return s
  | .const w => return s.mark b (← Checked.nth inst.blocks (if w.isZero then 1 else 0))
  | .varying => return (s.mark b (← Checked.nth inst.blocks 0)).mark b (← Checked.nth inst.blocks 1)

def visit (f : Func) (call : CallRule) (s : State) (i : InstId) : Run State := do
  let inst ← f.flow.inst i
  match inst.op with
  | .phi =>
    let some b := f.layout.blockOf? i | return s
    let x ← evalPhi f s.facts b inst
    s.update f (← f.flow.result i) x
  | .br | .brCond =>
    let some b := f.layout.blockOf? i | return s
    visitBranch f s b inst
  | .ret => return s
  | .retValue =>
    let x ← s.value f (← Checked.nth inst.args 0)
    return { s with facts := { s.facts with returns := s.facts.returns.meet x } }
  | .call =>
    let some result := f.flow.result? i | return s
    s.update f result (← call s.facts i inst)
  | op =>
    if op.isPure then
      let x ← evalPure f s.facts i inst
      s.update f (← f.flow.result i) x
    else
      match f.flow.result? i with
      | some result => s.update f result .varying
      | none => return s

/-- Enter a block. On the first time all its instructions are looked at, later only its phis, which
see a new edge. -/
def enter (f : Func) (call : CallRule) (s : State) (b : BlockId) : Run State := do
  Run.trace fun _ => .ok ("Executable " ++ f.blockText b)
  let insts ← f.insts b
  if s.facts.runs b then
    (insts.filter f.flow.isPhi).foldlM (visit f call) s
  else
    insts.foldlM (visit f call) { s with facts := { s.facts with blocks := b :: s.facts.blocks } }

def visitUsers (order : UserOrder) (f : Func) (call : CallRule) (s : State) (v : ValueId) :
    Run State := do
  (order.list f v (← f.flow.users v)).foldlM
    (fun s user =>
      if (f.layout.blockOf? user).any s.facts.runs then visit f call s user else return s)
    s

/-- Work until nothing is left, edges first. -/
def propagate (order : UserOrder) (f : Func) (call : CallRule) : Nat → State → Run State
  | 0, _ => throw .unfinished
  | fuel + 1, s => do
    match s.edgeWork, s.valueWork with
    | (none, b) :: rest, _ =>
      let s ← enter f call { s with edgeWork := rest } b
      propagate order f call fuel s
    | (some source, b) :: rest, _ =>
      let s := { s with edgeWork := rest }
      if s.facts.taken source b then
        propagate order f call fuel s
      else
        let facts := { s.facts with edges := (source, b) :: s.facts.edges }
        let s ← enter f call { s with facts } b
        propagate order f call fuel s
    | [], v :: rest =>
      let s ← visitUsers order f call { s with valueWork := rest } v
      propagate order f call fuel s
    | [], [] => return s

/-- Let branches on conditions that stayed unknown go both ways. -/
def resolveUnknown (f : Func) (s : State) : Checked State :=
  (f.blocks.filter s.facts.runs).foldlM
    (fun s b => do
      let some term ← f.terminator? b | return s
      let inst ← f.flow.inst term
      if inst.op ≠ .brCond then
        return s
      if (← s.value f (← Checked.nth inst.args 0)) ≠ .unknown then
        return s
      return inst.blocks.foldl (·.mark b ·) s)
    s

def sizes (g : DataFlow) : Nat × Nat × Nat :=
  (g.values.bound, g.insts.bound, g.insts.values.foldl (fun n e => n + e.inst.blocks.length) 0)

/-- A bound on the pieces of work: a value moves up twice and an edge is followed once, and each
time every instruction is looked at once at most, which marks two edges at most. -/
def workBound (g : DataFlow) : Nat :=
  let (values, insts, refs) := sizes g
  4 * (values + refs + 2) * (insts + 2)

/-- Propagate and resolve until nothing new turns up. Every round but the last follows a new
edge. -/
def rounds (order : UserOrder) (f : Func) (call : CallRule) : Nat → State → Run Facts
  | 0, _ => throw .unfinished
  | fuel + 1, s => do
    let s ← propagate order f call (workBound f.flow) s
    let s ← resolveUnknown f s
    if s.edgeWork.isEmpty then return s.facts else rounds order f call fuel s

def solve (order : UserOrder) (f : Func) (call : CallRule) (values : Dict ValueId LatticeValue) :
    Run Facts := do
  let entry ← f.entry
  let (_, _, refs) := sizes f.flow
  rounds order f call (refs + 2) { facts := { values }, edgeWork := [(none, entry)] }

/-- The function a call leads to, if its search may nest into it: the nesting is limited, a function
is searched once at a time, and the arguments must fit. -/
def callTarget? (m : Module) (maxDepth : Nat) (names : List String) (f : Func) (inst : Inst) :
    Checked (Option Func) := do
  let some callee := inst.callee? | return none
  let some id ← m.resolve? f callee | return none
  let target ← m.func id
  if maxDepth < names.length ∨ target.name ∈ names ∨ target.isEmpty ∨
      target.sig.arity ≠ inst.args.length then
    return none
  return some target

/-- The facts of a function, where `names` are the functions under search, this one included.
Searches nest no deeper than `depth`. -/
def solveNested (order : UserOrder) (m? : Option Module) (maxDepth : Nat) :
    Nat → List String → Func → Dict ValueId LatticeValue → Run Facts
  | 0, _, _, _ => throw .unfinished
  | depth + 1, names, f, values =>
    solve order f
      (fun facts i inst => do
        let some m := m? | return .varying
        let some target ← callTarget? m maxDepth names f inst | return .varying
        let args ← (inst.args.mapM (facts.value f) : Checked (List LatticeValue))
        if .unknown ∈ args then
          return .unknown
        Run.trace fun _ => do
          let list := String.intercalate ", " (args.map LatticeValue.text)
          return "Evaluating call " ++ (← f.instText i) ++ " with [" ++ list ++ "]"
        let values := (target.params.zip args).foldl (fun d (v, x) => d.insert v x) ∅
        let facts ← solveNested order m? maxDepth depth (names ++ [target.name]) target values
        return facts.returns)
      values

end Propagation

/-- What is known about a function for all arguments. Calls are evaluated if a module is given,
nested at most `maxDepth` deep; otherwise they may return anything. -/
def Func.facts (f : Func) (m? : Option Module) (maxDepth : Nat)
    (order : Propagation.UserOrder := .ascending) : Run Facts :=
  let values := f.params.foldl (fun d v => d.insert v .varying) ∅
  let depth := match m? with
    | some m => m.funcs.size + 2
    | none => 1
  Propagation.solveNested order m? maxDepth depth [f.name] f values

end MiddleEnd
