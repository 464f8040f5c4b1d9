import ResourceQuery.CommandLine

/-!
# The program

Reads the environment and, where the command needs it, the standard input, and writes what the
command writes.
-/

def main (arguments : List String) : IO UInt32 := do
  let environment ← IO.getEnv "OSLC_PREFIXES"
  let stdin ← IO.getStdin
  let input : ResourceQuery.Input ←
    if !ResourceQuery.CommandLine.readsInput arguments || (← stdin.isTty) then pure .terminal
    else pure (.piped (← stdin.readBinToEnd))
  let outcome := ResourceQuery.CommandLine.run arguments environment input
  IO.print outcome.stdout
  IO.eprint outcome.stderr
  return outcome.code
