import RegularLanguages.CommandLine.Execution

/-!
The program: prints what its run says and ends with its code.
-/

open RegularLanguages

def main (args : List String) : IO UInt32 := do
  match CommandLine.run args with
  | .ok o =>
    (← IO.getStdout).putStr o.stdout
    (← IO.getStderr).putStr o.stderr
    return o.code.toUInt32
  | .error e =>
    (← IO.getStderr).putStrLn e.report
    return CommandLine.ArgumentError.code.toUInt32
