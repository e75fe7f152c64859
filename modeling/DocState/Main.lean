import DocState.CommandLine

/-!
# The program

`main` hands the arguments to `DocState.CommandLine.answer`, writes both outputs and ends with the status.
-/

/-- Runs the command line program. -/
def main (args : List String) : IO UInt32 := do
  let answer := DocState.CommandLine.answer (args.map String.toList)
  (← IO.getStdout).putStr (String.ofList answer.output)
  (← IO.getStderr).putStr (String.ofList answer.errors)
  return answer.status.toUInt32
