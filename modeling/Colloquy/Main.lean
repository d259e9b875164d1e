import Colloquy.CommandLine

/-!
# The program

Runs the command line on the arguments that it was started with.
-/

open Colloquy

/-- Prints what the command reports and answers its exit status. -/
def main (args : List String) : IO UInt32 := do
  let report := CommandLine.run args
  for entry in report.log.upTo (CommandLine.logLevel args) do
    IO.eprintln entry.text
  IO.print report.out
  IO.eprint report.err
  return report.status.toUInt32
