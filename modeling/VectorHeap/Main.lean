import VectorHeap.CommandLine.Run

/-! The program: arguments and environment in, text and exit code out. -/
open VectorHeap

def knownVariables : List String := [addressIndexVariable, traceSitesVariable]

def main (arguments : List String) : IO UInt32 := do
  let names ← knownVariables.filterM (fun name => return (← IO.getEnv name).isSome)
  let clock := (← IO.monoMsNow) / 1000
  let output := CommandLine.run Hex.marked clock names arguments
  if output.exitCode = 2 then
    IO.eprintln "error: bad usage\n\nFor more information, try '--help'."
  IO.print output.text
  return UInt32.ofNat output.exitCode
