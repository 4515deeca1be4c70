import Trampoline.CommandLine

/-!
The program: it runs its command line on 64-bit words.
-/

/-- No run comes to the end of this many steps. -/
def stepAllowance : Nat := 0x4000000000000000

def main (args : List String) : IO UInt32 := do
  let outcome := Trampoline.CommandLine.run .bits64 args stepAllowance
  IO.print outcome.output
  IO.eprint outcome.errors
  if outcome.status = Trampoline.CommandLine.usageStatus then
    IO.eprintln "error: the command line was not accepted"
  return UInt32.ofNat outcome.status
