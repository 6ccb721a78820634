import MiddleEnd.Pass
import MiddleEnd.Text.Blank

/-!
# Pipelines

A list of passes, run over a module one after the other.
-/

namespace MiddleEnd

structure Pipeline where
  passes : List Pass := []

structure UnknownPass where
  name : String
  deriving DecidableEq, Repr

def UnknownPass.message (e : UnknownPass) : String := "unknown pass `" ++ e.name ++ "`"

namespace Pipeline

def names (p : Pipeline) : List String := p.passes.map (·.name)

def text (p : Pipeline) : String :=
  "[" ++ String.intercalate ", " (p.names.map fun name => "\"" ++ name ++ "\"") ++ "]"

/-- The pass names in a list of texts. Each text may hold several names, divided by commas; blanks
around a name and empty names do not count. -/
def namesIn (texts : List String) : List String :=
  let pieces := texts.flatMap (·.splitOn ",")
  (pieces.map stripBlanks).filter (· ≠ "")

def parse (texts : List String) : Except UnknownPass Pipeline := do
  let passes ← (namesIn texts).mapM fun name =>
    match Pass.lookup? name with
    | some pass => .ok pass
    | none => .error ⟨name⟩
  return { passes }

def standardNames : List String :=
  ["ssa", "gvn", "loop-simplify", "osr", "sccp", "cfs", "gvn", "adce", "ssa-destruct"]

def standard : Pipeline := { passes := standardNames.filterMap Pass.lookup? }

def run (p : Pipeline) (settings : Settings) (m : Module) : Run (Bool × Module) := do
  Run.debug fun _ => .ok ("Running " ++ p.text)
  p.passes.foldlM
    (fun (modified, m) pass => do
      Run.trace fun _ => .ok ("Running pass " ++ pass.name)
      let (changed, m) ← pass.onModule settings m
      Run.debug fun _ =>
        let verb := if changed then "modified" else "did not modify"
        .ok s!"Pass {pass.name} {verb} the module"
      if settings.verifyEach then
        m.assertVerified
      return (modified || changed, m))
    (false, m)

end Pipeline

end MiddleEnd
