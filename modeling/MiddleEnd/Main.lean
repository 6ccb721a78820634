import MiddleEnd.CommandLine

/-!
# The program

Prints the outcome of the command line.
-/

def main (args : List String) : IO UInt32 := do
  let outcome := MiddleEnd.CommandLine.run args
  IO.print outcome.stdout
  IO.eprint outcome.stderr
  return outcome.code.toUInt32
