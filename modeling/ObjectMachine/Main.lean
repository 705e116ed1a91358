import ObjectMachine.CommandLine

open ObjectMachine in
/-- Does what the arguments ask for. The bound on turns is one that no demo reaches. -/
def main (args : List String) : IO UInt32 := do
  let out := CommandLine.run 0x1000000000000000 args
  (← IO.getStdout).putStr out.stdout
  (← IO.getStderr).putStr out.stderr
  return out.status.toUInt32
