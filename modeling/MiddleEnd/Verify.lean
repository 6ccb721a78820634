import MiddleEnd.ControlFlow.Dominators
import MiddleEnd.Module

/-!
# Verification

A function is well formed if its blocks end in their only terminator, its phis stand at the heads of
their blocks and agree with the edges, everything referred to is there, definitions dominate their
uses, and types line up. Dominance means nothing on a graph with dangling edges, so the shape of the
function is checked first and everything else only if the shape is right.
-/

namespace MiddleEnd

/-- An error found in a function: where, in which object, and what. -/
structure Diagnostic where
  unit? : Option String
  object? : Option String
  message : String
  deriving DecidableEq, Repr, Inhabited

namespace Diagnostic

def text (d : Diagnostic) : String :=
  let unit := match d.unit? with
    | some unit => unit ++ ": "
    | none => ""
  let object := match d.object? with
    | some object => object ++ ": "
    | none => ""
  unit ++ object ++ d.message

def isUse (d : Diagnostic) : Bool := d.message.startsWith "does not dominate use"

/-- Put neighbours that complain about uses of one object in order of their messages. The users of a
value have no order of their own. -/
def settle (ds : List Diagnostic) : List Diagnostic :=
  (ds.splitBy fun a b => a.isUse && b.isUse && a.unit? = b.unit? && a.object? = b.object?).flatMap
    fun run => run.mergeSort fun a b => a.message ≤ b.message

def report (ds : List Diagnostic) : String :=
  String.join (ds.map fun d => "- " ++ d.text ++ "\n")

end Diagnostic

namespace Verify

def unit (f : Func) : String := "func @" ++ f.name

def instError (f : Func) (i : InstId) (message : String) : Checked Diagnostic := do
  .ok ⟨some (unit f), some (← f.instText i), message⟩

def blockError (f : Func) (b : BlockId) (message : String) : Diagnostic :=
  ⟨some (unit f), some (f.blockText b), message⟩

def instErrorIf (f : Func) (i : InstId) (bad : Bool) (message : String) :
    Checked (List Diagnostic) := do
  if bad then .ok [← instError f i message] else .ok []

/-! ## Shape -/

def phiEdges (f : Func) (b : BlockId) (i : InstId) (inst : Inst) : Checked (List Diagnostic) := do
  let sources := (KeySet.ofList inst.blocks).toList
  let repeated ← instErrorIf f i (sources.length ≠ inst.blocks.length)
    "phi has multiple incoming values for the same block"
  let mismatched ← instErrorIf f i (sources ≠ f.predecessors b)
    s!"phi incoming blocks must match the predecessors of {f.blockText b}"
  .ok (repeated ++ mismatched)

/-- Phis come first and the only terminator comes last. -/
def instShape (f : Func) (b : BlockId) (last : InstId) (afterPhis : Bool) (i : InstId) :
    Checked (List Diagnostic) := do
  let inst ← f.flow.inst i
  let early ← instErrorIf f i (inst.op.isTerminator && i ≠ last)
    s!"terminator must be at the end of block {f.blockText b}"
  if !inst.op.isPhi then
    return early
  let late ← instErrorIf f i afterPhis s!"phi must be at the head of block {f.blockText b}"
  return early ++ late ++ (← phiEdges f b i inst)

/-- The errors in the instructions of a block, given whether some instruction before was no phi. -/
def instShapes (f : Func) (b : BlockId) (last : InstId) :
    Bool → List InstId → Checked (List Diagnostic)
  | _, [] => .ok []
  | afterPhis, i :: rest => do
    let here ← instShape f b last afterPhis i
    let later ← instShapes f b last (afterPhis || !f.flow.isPhi i) rest
    .ok (here ++ later)

def blockShape (f : Func) (row : Row) : Checked (List Diagnostic) := do
  match row.insts.getLast? with
  | none => .ok [blockError f row.block "block is empty"]
  | some last =>
    let errors ← instShapes f row.block last false row.insts
    if f.flow.isTerminator last then
      return errors
    let message := "last instruction `" ++ (← f.instText last) ++ "` must be a terminator"
    return errors ++ [blockError f row.block message]

def operandsDefined (f : Func) (i : InstId) : Checked (List Diagnostic) := do
  let inst ← f.flow.inst i
  let values ← inst.args.mapM fun v =>
    let defined := match f.flow.origin? v with
      | none => false
      | some (.result _ j) => (f.layout.blockOf? j).isSome
      | some _ => true
    instErrorIf f i (!defined) s!"value {v} has no definition"
  let blocks ← inst.blocks.mapM fun b =>
    instErrorIf f i (!f.layout.hasBlock b) s!"block {b} has no definition"
  .ok (values.flatten ++ blocks.flatten)

def shape (f : Func) : Checked (List Diagnostic) := do
  let blocks ← f.layout.rows.mapM (blockShape f)
  let operands ← f.allInsts.mapM (operandsDefined f)
  .ok (blocks.flatten ++ operands.flatten)

/-! ## Types -/

/-- The operation comes in the form it is meant to have. -/
def formFits : Inst → Bool
  | .nullary op => op = .alloca || op = .ret
  | .unary op _ => op = .load || op = .retValue || op.isUnaryArith || op.isCast
  | .binary op _ _ => op = .store || op = .copy || op.isBinaryArith || op.isCompare
  | .phi op _ _ => op = .phi
  | .jump op _ => op = .br
  | .branch op _ _ _ => op = .brCond
  | .call op _ _ => op = .call

def resultTy (f : Func) (i : InstId) : Checked Ty :=
  match f.flow.result? i with
  | some v => f.flow.ty v
  | none => .ok .void

def argTy (f : Func) (i : InstId) (ty : Ty) (v : ValueId) : Checked (List Diagnostic) := do
  let found ← f.flow.ty v
  instErrorIf f i (found ≠ ty) s!"argument {f.valueText v} must be of type {ty} (but is {found})"

def argTys (f : Func) (i : InstId) (inst : Inst) (ty : Ty) : Checked (List Diagnostic) := do
  .ok (← inst.args.mapM (argTy f i ty)).flatten

def argTysAgree (f : Func) (i : InstId) (inst : Inst) : Checked (List Diagnostic) := do
  let tys ← inst.args.mapM f.flow.ty
  let list := String.intercalate ", " (tys.map Ty.text)
  instErrorIf f i (tys.any fun ty => some ty ≠ tys.head?)
    s!"argument types must match (but are {list})"

def returns (f : Func) (i : InstId) (ty : Ty) : Checked (List Diagnostic) :=
  instErrorIf f i (f.sig.returns ≠ ty)
    s!"requires function to have return type {ty} (but has {f.sig.returns})"

def callArgs (f : Func) (i : InstId) (sig : Signature) (args : List ValueId) :
    Checked (List Diagnostic) := do
  if sig.arity ≠ args.length then
    return [← instError f i
      s!"call passes {args.length} arguments to a function taking {sig.arity}"]
  return (← (sig.params.zip args).mapM fun (ty, v) => argTy f i ty v).flatten

def instTypes (f : Func) (i : InstId) : Checked (List Diagnostic) := do
  let inst ← f.flow.inst i
  if !formFits inst then
    .error (.wrongForm inst)
  match inst with
  | .nullary .alloca =>
    instErrorIf f i (!(← resultTy f i).isPtr) "alloca must produce a pointer"
  | .nullary _ => returns f i .void
  | .unary op x =>
    let ty ← resultTy f i
    let found ← f.flow.ty x
    if op = .load then
      instErrorIf f i (found ≠ .ptr ty) s!"type {found} must be pointer of return type {ty}"
    else if op = .retValue then
      returns f i found
    else if op.isCast then
      let fits := match ty, found with
        | .int w, .int v => if op = .trunc then decide (w < v) else decide (v < w)
        | _, _ => false
      instErrorIf f i (!fits) s!"cannot {op} {found} to {ty}"
    else
      let result ← instErrorIf f i (!ty.isInt) s!"return type must be iN (but is {ty})"
      return result ++ (← argTys f i inst ty)
  | .binary op x y =>
    if op = .store then
      let slot ← f.flow.ty x
      let ty ← f.flow.ty y
      instErrorIf f i (slot ≠ .ptr ty)
        s!"store target type {slot} must be pointer of stored value type {ty}"
    else if op = .copy then
      let target ← instErrorIf f i (!(f.flow.origin? x).any (·.isReg))
        "copy destination must be a register"
      return target ++ (← argTysAgree f i inst)
    else if op.isCompare then
      let args ← argTysAgree f i inst
      let ty ← resultTy f i
      return args ++ (← instErrorIf f i (ty ≠ .int 1) s!"return type must be i1 (but is {ty})")
    else
      let ty ← resultTy f i
      let result ← instErrorIf f i (!ty.isInt) s!"return type must be iN (but is {ty})"
      return result ++ (← argTys f i inst ty)
  | .phi _ _ _ => argTys f i inst (← resultTy f i)
  | .jump _ _ => return []
  | .branch _ _ _ _ => argTys f i inst (.int 1)
  | .call _ callee args => callArgs f i (← f.flow.imports.get callee).sig args

/-! ## Dominance -/

/-- The definition of `v` by `i` dominates its use in `user`. A phi uses its values at the ends of
the blocks they come from. -/
def useDominated (f : Func) (t : DominatorTree) (i : InstId) (v : ValueId) (user : InstId) :
    Checked Bool := do
  let inst ← f.flow.inst user
  if inst.op.isPhi then
    let sources := inst.edges.filter fun (w, b) => w = v && t.isReachable b
    sources.allM fun (_, b) => t.valueDominatesBlock f v b
  else
    return user ≠ i && t.instDominatesInst f i user

/-- The definition of `v` by `i` dominates its uses in reachable blocks. -/
def usesDominated (f : Func) (t : DominatorTree) (i : InstId) (v : ValueId) :
    Checked (List Diagnostic) := do
  let users := (← f.flow.users v).toList.filter fun user =>
    (f.layout.blockOf? user).any t.isReachable
  let errors ← users.mapM fun user => do
    if ← useDominated f t i v user then
      return []
    return [← instError f i ("does not dominate use in `" ++ (← f.instText user) ++ "`")]
  return errors.flatten

def instBody (f : Func) (t : DominatorTree) (b : BlockId) (i : InstId) :
    Checked (List Diagnostic) := do
  let types ← instTypes f i
  match f.flow.result? i with
  | some v => if t.isReachable b then return types ++ (← usesDominated f t i v) else return types
  | none => return types

def body (f : Func) (t : DominatorTree) : Checked (List Diagnostic) := do
  let errors ← f.layout.rows.mapM fun row => row.insts.mapM (instBody f t row.block)
  return errors.flatten.flatten

def noEntry (f : Func) : Diagnostic := ⟨some (unit f), none, "layout has no entry block"⟩

end Verify

def Func.errors (f : Func) : Checked (List Diagnostic) := do
  if f.isEmpty then
    return [Verify.noEntry f]
  let shape ← Verify.shape f
  if shape.isEmpty then Verify.body f (← DominatorTree.ofFunc f) else return shape

/-- Look for the errors of a function, with a report on the way there. -/
def Func.verify (f : Func) : Run (List Diagnostic) := do
  if f.isEmpty then
    return [Verify.noEntry f]
  let shape ← Verify.shape f
  if shape.isEmpty then
    let t ← f.dominators
    Verify.body f t
  else
    return shape

def Func.assertVerified (f : Func) : Run Unit := do
  if !(← f.verify).isEmpty then
    throw .unverified

namespace Module

def verify (m : Module) : Run (List Diagnostic) := do
  return (← m.functions.mapM fun (_, f) => f.verify).flatten

def assertVerified (m : Module) : Run Unit :=
  m.functions.forM fun (_, f) => f.assertVerified

def requireVerified (m : Module) : Run Unit := do
  let errors ← m.verify
  if !errors.isEmpty then
    throw (.verification (Diagnostic.report errors))

end Module

end MiddleEnd
