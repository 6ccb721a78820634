import MiddleEnd.Func.Builder
import MiddleEnd.Log

/-!
# Modules

A module is a collection of functions and global variables, in order of declaration. Calls name
their target; the name is looked up in the module.
-/

namespace MiddleEnd

structure Global where
  name : String
  ty : Ty
  deriving Repr, Inhabited

structure Module where
  funcs : Table FuncId Func := {}
  globals : Table GlobalId Global := {}
  deriving Inhabited

/-- The calls that name no function of the module, as pairs of caller and callee. -/
structure Unresolved where
  calls : List (String × String)
  deriving DecidableEq, Repr

def Unresolved.message (e : Unresolved) : String :=
  String.intercalate "\n" (e.calls.map fun (caller, callee) =>
    "@" ++ caller ++ " calls undefined function @" ++ callee)

namespace Module

def functions (m : Module) : List (FuncId × Func) := m.funcs.toList

def funcIds (m : Module) : List FuncId := m.funcs.keys

def func (m : Module) (f : FuncId) : Checked Func := m.funcs.get f

def lookup? (m : Module) (name : String) : Option FuncId :=
  (m.functions.find? (·.2.name = name)).map (·.1)

def addFunc (m : Module) (f : Func) : Checked (FuncId × Module) :=
  if (m.lookup? f.name).isSome then .error (.funcTwice f.name)
  else
    let (id, funcs) := m.funcs.add f
    .ok (id, { m with funcs })

def removeFunc (m : Module) (f : FuncId) : Checked (Func × Module) := do
  let (func, funcs) ← m.funcs.remove f
  .ok (func, { m with funcs })

def setFunc (m : Module) (f : FuncId) (func : Func) : Checked Module := do
  let funcs ← m.funcs.set f func
  .ok { m with funcs }

/-- The function of the module that an import of `f` stands for, if there is one. -/
def resolve? (m : Module) (f : Func) (target : ImportId) : Checked (Option FuncId) := do
  let target ← f.flow.imports.get target
  .ok (m.lookup? target.name)

def lookupGlobal? (m : Module) (name : String) : Option (GlobalId × Global) :=
  m.globals.toList.find? (·.2.name = name)

/-- Declare a global variable. A name is declared once, with the type it came with first. -/
def declareGlobal (m : Module) (name : String) (ty : Ty) : GlobalId × Module :=
  match m.lookupGlobal? name with
  | some (id, _) => (id, m)
  | none =>
    let (id, globals) := m.globals.add ⟨name, ty⟩
    (id, { m with globals })

/-- The imports of a function that name no function of the module, sorted by name. -/
def unresolvedOf (m : Module) (f : Func) : List (String × String) :=
  let missing := (f.flow.imports.values.map (·.name)).filter (m.lookup? · |>.isNone)
  (missing.mergeSort fun a b => decide (a ≤ b)).map fun callee => (f.name, callee)

def link (m : Module) : Run (Option Unresolved) := do
  let calls := m.functions.flatMap fun (_, f) => m.unresolvedOf f
  for (caller, callee) in calls do
    Run.debug fun _ => .ok ("Unresolved call from @" ++ caller ++ " to @" ++ callee)
  return if calls.isEmpty then none else some ⟨calls⟩

/-- Globals first, then functions, with an empty line before every function but the first line. -/
def text (m : Module) : Checked String := do
  let globals := m.globals.values.map fun g => "global @" ++ g.name ++ " " ++ g.ty.text ++ "\n"
  let funcs ← m.functions.mapM fun (_, f) => do
    return (← f.text) ++ "\n"
  .ok <| match globals, funcs with
    | [], _ => String.intercalate "\n" funcs
    | _, [] => String.join globals
    | _, _ => String.join globals ++ "\n" ++ String.intercalate "\n" funcs

end Module

end MiddleEnd
