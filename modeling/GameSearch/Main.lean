import GameSearch.CommandLine.Program

/-!
# The executable

Plays matches as the command line asks for.  A look at the clock takes a millisecond, so that a seed
fixes all that the program does; a note in the journal is preceded by the seconds since the start.
-/

namespace GameSearch

/-- How the executable writes times. -/
def timeStyle : TimeStyle where
  stamp time := Decimal.fixed 6 (Binary64.ofInt time * 1e-9) ++ " "
  writeElapsed := Note.secondsText

end GameSearch

open GameSearch in
def main (words : List String) : IO UInt32 := do
  let host : Session := { Session.ofSeed (← IO.monoNanosNow) with tick := 1000000 }
  let outcome := Program.run timeStyle words host
  IO.print (outcome.output ++ outcome.journal)
  IO.eprint outcome.errors
  if let some journal := outcome.opened then
    if journal.file ≠ "" then
      let file ← IO.FS.Handle.mk journal.file (if journal.appends then .append else .write)
      file.putStr outcome.journal
  match outcome.status with
  | .ok code => return code
  | .error e => throw (IO.userError e.message)
