import PatternAutomata.CommandLine

/-!
# The program

Prints what the command line comes to.
-/

open PatternAutomata in
def main (arguments : List String) : IO UInt32 := do
  let outcome := Outcome.ofArguments "nfagen" (arguments.map Bytes.ofString)
  (← IO.getStdout).putStr outcome.output
  (← IO.getStderr).write outcome.errors.toByteArray
  return outcome.code
