import MiddleEnd.Transform.ConstantPropagation
import MiddleEnd.Transform.DeadCode
import MiddleEnd.Transform.PhiLowering
import MiddleEnd.Transform.Preheaders
import MiddleEnd.Transform.Promotion
import MiddleEnd.Transform.StrengthReduction
import MiddleEnd.Transform.ValueNumbering
import MiddleEnd.Verify

/-!
# Passes

A pass changes a module and says whether it did. Most passes treat one function at a time, some one
instruction at a time; functions share nothing, so that it makes no difference whether they are
treated at once or one after the other.
-/

namespace MiddleEnd

/-- What a user can choose. -/
structure Settings where
  /-- Verify the module after every pass. -/
  verifyEach : Bool := false
  /-- How deep constant propagation may nest into the functions it evaluates. -/
  maxCallDepth : Nat := 4
  /-- Functions may be treated at once. -/
  parallel : Bool := true
  deriving DecidableEq, Repr, Inhabited

structure Pass where
  name : String
  description : String := ""
  onFunc : Builder → Run (Bool × Builder)
  onModule : Settings → Module → Run (Bool × Module)

namespace Pass

def onFuncs (run : Builder → Run (Bool × Builder)) (m : Module) : Run (Bool × Module) :=
  m.functions.foldlM
    (fun (modified, m) (id, f) => do
      let (changed, b) ← run { func := f }
      return (modified || changed, ← m.setFunc id b.func))
    (false, m)

/-- Treat all instructions of a function that are still there when their turn comes. -/
def onInsts (run : Builder → InstId → Run (Bool × Builder)) (b : Builder) : Run (Bool × Builder) :=
  b.func.allInsts.foldlM
    (fun (modified, b) i => do
      if b.flow.hasInst i then
        let (changed, b) ← run b i
        return (modified || changed, b)
      else return (modified, b))
    (false, b)

def ofFunc (name description : String) (run : Builder → Run (Bool × Builder)) : Pass :=
  { name, description, onFunc := run, onModule := fun _ => onFuncs run }

def ofInst (name description : String) (run : Builder → InstId → Run (Bool × Builder)) : Pass :=
  ofFunc name description (onInsts run)

def logErrors (m : Module) : Run (Bool × Module) := do
  let errors ← m.verify
  if !errors.isEmpty then
    Run.error fun _ => .ok ("Verification failed:\n" ++ Diagnostic.report errors)
  return (false, m)

/-- The passes known by name. -/
def all : List Pass :=
  [ofFunc "ssa" "SSA Construction (memory to register promotion)" Promotion.run,
    ofFunc "gvn" "Global Value Numbering" ValueNumbering.run,
    { name := "sccp"
      description := "Sparse Conditional Constant Propagation"
      onFunc := fun b => ConstantPropagation.run b
      onModule := fun settings m => ConstantPropagation.runOnModule settings.maxCallDepth m },
    ofFunc "cfs" "Control Flow Simplification" FlowSimplification.run,
    ofFunc "dce" "Dead Code Elimination" DeadCode.run,
    ofFunc "adce" "Aggressive Dead Code Elimination" LiveCode.run,
    ofFunc "osr" "Operator Strength Reduction" StrengthReduction.run,
    ofFunc "loop-simplify" "Loop Simplification (preheader insertion)" Preheaders.run,
    ofFunc "ssa-destruct" "SSA Destruction (phi to copy lowering)" PhiLowering.run,
    { name := "verify"
      description := "Verify the module and log any errors"
      onFunc := fun b => return (false, b)
      onModule := fun _ => logErrors }]

def lookup? (name : String) : Option Pass := all.find? (·.name = name)

end Pass

end MiddleEnd
