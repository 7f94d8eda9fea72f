import StraightLine.Demonstration

/-!
# The command line

The program takes a word as its argument and shows how a wasteful grammar for it is reduced.
-/

open StraightLine in
/-- Prints the demonstration for the first argument and ends with its code. -/
def main (arguments : List String) : IO UInt32 := do
  let transcript := Demonstration.run arguments
  IO.print transcript.stdout
  IO.eprint transcript.stderr
  return UInt32.ofNat transcript.code
