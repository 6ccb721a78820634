import MiddleEnd.Fault

/-!
# Logged runs

Passes report what they do. A run keeps the lines logged so far also when it ends in a fault, and a
line that nobody listens to is never composed.
-/

namespace MiddleEnd

inductive Level where
  | error | warn | info | debug | trace
  deriving DecidableEq, Repr

namespace Level

def rank : Level → Nat
  | error => 1
  | warn => 2
  | info => 3
  | debug => 4
  | trace => 5

def text : Level → String
  | error => "ERROR"
  | warn => "WARN"
  | info => "INFO"
  | debug => "DEBUG"
  | trace => "TRACE"

end Level

/-- Lines up to a level, the latest line last. Without a level nothing is recorded. -/
structure Log where
  level : Option Level := none
  lines : Array String := #[]
  deriving Repr, Inhabited

namespace Log

def admits (log : Log) (level : Level) : Bool :=
  match log.level with
  | some most => level.rank ≤ most.rank
  | none => false

def push (log : Log) (level : Level) (line : String) : Log :=
  { log with lines := log.lines.push (level.text ++ " " ++ line) }

end Log

abbrev Run := ExceptT Fault (StateM Log)

namespace Run

def log (level : Level) (line : Unit → Checked String) : Run Unit := do
  if (← get).admits level then
    let line ← line ()
    modify (·.push level line)

def error (line : Unit → Checked String) : Run Unit := log .error line

def info (line : Unit → Checked String) : Run Unit := log .info line

def debug (line : Unit → Checked String) : Run Unit := log .debug line

def trace (line : Unit → Checked String) : Run Unit := log .trace line

def exec {α : Type} (run : Run α) (log : Log) : Checked α × Log :=
  (ExceptT.run run).run log

def outcome {α : Type} (run : Run α) : Checked α :=
  (run.exec {}).1

end Run

end MiddleEnd
