import MiddleEnd.Pipeline
import MiddleEnd.Samples
import MiddleEnd.Text.Number

/-!
# The command line

Builds sample programs, prints them, runs passes over them and prints the outcome.
-/

namespace MiddleEnd

namespace CommandLine

/-! ## Arguments -/

structure Options where
  samples : List String := []
  verbosity : Nat := 0
  list : Bool := false
  time : Bool := false
  sequential : Bool := false
  dominators : Bool := false
  verifyEach : Bool := false
  maxCallDepth? : Option String := none
  passes? : Option (List String) := none
  deriving DecidableEq, Repr, Inhabited

/-- The option that the next arguments are values of. -/
inductive Pending where
  | none
  | passes
  | depth
  deriving DecidableEq, Repr

structure Reading where
  options : Options := {}
  pending : Pending := .none
  /-- Only samples follow. -/
  trailing : Bool := false

structure UsageError where
  argument : String
  deriving DecidableEq, Repr

def UsageError.message (e : UsageError) : String :=
  "error: unexpected argument '" ++ e.argument ++ "'\n"

namespace Reading

def addSample (r : Reading) (name : String) : Reading :=
  { r with options := { r.options with samples := r.options.samples ++ [name] } }

def addPass (r : Reading) (text : String) : Reading :=
  { r with options := { r.options with passes? := some (r.options.passes?.getD [] ++ [text]) } }

/-- Set a flag that may be given once. -/
def setFlag (r : Reading) (arg name : String) : Except UsageError Reading :=
  let o := r.options
  let once (given : Bool) (options : Options) : Except UsageError Reading :=
    if given then .error ⟨arg⟩ else .ok { r with options, pending := .none }
  match name with
  | "list" => once o.list { o with list := true }
  | "time" => once o.time { o with time := true }
  | "no-parallel" => once o.sequential { o with sequential := true }
  | "dominators" => once o.dominators { o with dominators := true }
  | "verify-each" => once o.verifyEach { o with verifyEach := true }
  | _ => .error ⟨arg⟩

def setDepth (r : Reading) (arg text : String) : Except UsageError Reading :=
  if r.options.maxCallDepth?.isSome then .error ⟨arg⟩
  else .ok { r with options := { r.options with maxCallDepth? := some text }, pending := .none }

/-- A long option, with its value if one is given after an equals sign. A flag ignores the value. -/
def long (r : Reading) (arg name : String) (value? : Option String) : Except UsageError Reading :=
  match name, value? with
  | "pass", none => .ok { r with pending := .passes }
  | "pass", some value => .ok { r.addPass value with pending := .none }
  | "max-call-depth", none => .ok { r with pending := .depth }
  | "max-call-depth", some value => r.setDepth arg value
  | _, _ => r.setFlag arg name

/-- A cluster of short options. What follows `p` is its value. -/
def short (arg : String) : List Char → Reading → Except UsageError Reading
  | [], r => .ok r
  | 'v' :: rest, r =>
    short arg rest
      { r with
        options := { r.options with verbosity := r.options.verbosity + 1 }
        pending := .none }
  | 't' :: rest, r => do short arg rest (← r.setFlag arg "time")
  | 's' :: rest, r => do short arg rest (← r.setFlag arg "no-parallel")
  | 'd' :: rest, r => do short arg rest (← r.setFlag arg "dominators")
  | 'p' :: rest, r =>
    match rest with
    | [] => .ok { r with pending := .passes }
    | '=' :: _ => .ok { r.addPass (String.ofList (rest.dropWhile (· = '='))) with pending := .none }
    | _ => .ok { r.addPass (String.ofList rest) with pending := .passes }
  | _, _ => .error ⟨arg⟩

def value (r : Reading) (arg : String) : Except UsageError Reading :=
  match r.pending with
  | .none => .ok (r.addSample arg)
  | .passes => .ok (r.addPass arg)
  | .depth => r.setDepth arg arg

def step (r : Reading) (arg : String) : Except UsageError Reading :=
  if r.trailing then .ok (r.addSample arg)
  else match arg.toList with
    | ['-', '-'] => .ok { r with trailing := true }
    | '-' :: '-' :: rest =>
      let name := rest.dropWhile (· = '-')
      let value? := match name.dropWhile (· ≠ '=') with
        | [] => none
        | value => some (String.ofList (value.dropWhile (· = '=')))
      r.long arg (String.ofList (name.takeWhile (· ≠ '='))) value?
    | '-' :: c :: rest => short arg (c :: rest) r
    | _ => r.value arg

end Reading

def Options.read (args : List String) : Except UsageError Options := do
  let r ← args.foldlM Reading.step {}
  match r.pending with
  | .none => return r.options
  | .passes => if r.options.passes?.isSome then return r.options else .error ⟨"--pass"⟩
  | .depth => .error ⟨"--max-call-depth"⟩

/-! ## Running -/

/-- The exit code and what was printed. -/
structure Outcome where
  code : Nat
  stdout : String
  stderr : String
  deriving DecidableEq, Repr

/-- An early exit with a text for the error stream. -/
structure Exit where
  code : Nat
  stderr : String

abbrev Program := ExceptT Exit (StateM String)

namespace Program

def print (text : String) : Program Unit := modify (· ++ text)

def fail {α : Type} (message : String) : Program α := throw ⟨1, "Error: " ++ message ++ "\n"⟩

def ofRun {α : Type} (run : Run α) : Program α :=
  match run.outcome with
  | .ok a => return a
  | .error fault => throw ⟨101, "fault: " ++ fault.message ++ "\n"⟩

end Program

open Program

def listText : String :=
  String.join (Sample.all.map fun s =>
    s.name ++ "".pushn ' ' (16 - s.name.length) ++ "  " ++ s.description ++ "\n")

def buildSample (m : Module) (name : String) : Program Module := do
  match Sample.lookup? name with
  | some sample => ofRun (sample.build m : Checked Module)
  | none => fail ("unknown sample `" ++ name ++ "`; see --list")

/-- The text of a module; with remarks on dominance, functions only. -/
def moduleText (m : Module) (dominators : Bool) : Checked String := do
  if !dominators then
    return ← m.text
  let texts ← m.functions.mapM fun (_, f) => do
    if f.isEmpty then
      return (← f.text) ++ "\n"
    let t ← DominatorTree.ofFunc f
    return (← f.textWith (t.remark f)) ++ "\n"
  return String.join texts

def checkVerified (m : Module) (what : String) : Program Unit := do
  let errors ← ofRun m.verify
  if !errors.isEmpty then
    fail (what ++ ":\n" ++ Diagnostic.report errors)

def pipelineOf (o : Options) : Program Pipeline :=
  match o.passes? with
  | none => return .standard
  | some texts =>
    match Pipeline.parse texts with
    | .ok p => return p
    | .error e => fail e.message

def settingsOf (o : Options) : Program Settings := do
  let settings : Settings := { verifyEach := o.verifyEach, parallel := !o.sequential }
  match o.maxCallDepth? with
  | none => return settings
  | some text =>
    match readMachineWord text with
    | .ok depth => return { settings with maxCallDepth := depth }
    | .error e => fail e.message

def program (o : Options) : Program Unit := do
  if o.list then
    return ← print listText
  let names := if o.samples.isEmpty then Sample.all.map (·.name) else o.samples
  let m ← names.foldlM buildSample {}
  if let some unresolved ← ofRun m.link then
    fail unresolved.message
  checkVerified m "Input does not verify"
  print ("; Input\n" ++ (← ofRun (moduleText m o.dominators : Checked String)))
  let pipeline ← pipelineOf o
  let settings ← settingsOf o
  let (_, m) ← ofRun (pipeline.run settings m)
  checkVerified m "Verification failed after optimization"
  print ("\n; Output\n" ++ (← ofRun (moduleText m o.dominators : Checked String)))

def run (args : List String) : Outcome :=
  match Options.read args with
  | .error e => ⟨1, "", e.message⟩
  | .ok options =>
    match (program options).run.run "" with
    | (.ok (), stdout) => ⟨0, stdout, ""⟩
    | (.error exit, stdout) => ⟨exit.code, stdout, exit.stderr⟩

end CommandLine

end MiddleEnd
