import GameSearch.Decimal.Fixed
import GameSearch.Fault

/-!
# The journal

What agents and matches report while they work.  A note has a level and a text; the journal shows
the notes at or above a threshold.
-/

namespace GameSearch

/-- The levels of notes, and of the threshold of a journal. -/
inductive Level where
  | trace
  | debug
  | info
  | warning
  | error
  | critical
  | off
deriving DecidableEq

namespace Level

/-- The levels from the lowest. -/
def rank : Level → Nat
  | trace => 0
  | debug => 1
  | info => 2
  | warning => 3
  | error => 4
  | critical => 5
  | off => 6

def ofName? (name : String) : Except Fault Level :=
  match name with
  | "trace" => .ok trace
  | "debug" => .ok debug
  | "info" => .ok info
  | "warning" | "warn" => .ok warning
  | "error" | "err" => .ok error
  | "critical" => .ok critical
  | "off" => .ok off
  | name => .error (.unknownLevel name)

end Level

/-- What there is to report. -/
inductive Note where
  /-- A text at a level. -/
  | plain (level : Level) (text : String)
  /-- An agent chose its move. -/
  | chose (agent role move : String) (ply : Int)
  /-- An agent prepared a book of exact values, in the given number of nanoseconds. -/
  | builtBook (agent : String) (states steps : Nat) (elapsed : Int) (isComplete : Bool)
  /-- The roles in control moved. -/
  | played (ply : Nat) (turn : String)
  /-- A match ended with the given goals. -/
  | matchOver (plies : Nat) (goals : List (String × Int))
  /-- An agent did not answer as it should have. -/
  | noResponse (role agent reason : String)
  /-- An agent could not even be told that the match is off. -/
  | abortFailed (role reason : String)
  /-- A match of a series begins. -/
  | matchStarted (number count : Int) (game start play : String)
  /-- A series is over, with the given mean goals. -/
  | seriesOver (count aborted : Int) (means : List (String × String))

namespace Note

def level : Note → Level
  | plain level _ => level
  | noResponse _ _ _ | abortFailed _ _ => .warning
  | _ => .info

/-- Texts joined by blanks, each after its name. -/
def assigned (parts : List (String × String)) : String :=
  " ".intercalate (parts.map fun (name, value) => name ++ "=" ++ value)

/-- Nanoseconds as seconds. -/
def secondsText (elapsed : Int) : String :=
  Decimal.fixed 3 (Binary64.ofInt elapsed * 1e-9) ++ "s"

/-- The text of a note; how an elapsed time is written is up to the caller. -/
def text (writeElapsed : Int → String) : Note → String
  | plain _ text => text
  | chose agent role move ply => s!"{agent} as {role} chose {move} at ply {ply}"
  | builtBook agent states steps elapsed isComplete =>
    let time := writeElapsed elapsed
    let state := if isComplete then "complete" else "partial"
    s!"{agent} built a book of {states} states in {steps} steps ({time}, {state})"
  | played ply turn => s!"ply {ply}: {turn}"
  | matchOver plies goals =>
    let goals := assigned (goals.map fun (role, goal) => (role, toString goal))
    s!"match over after {plies} plies: {goals}"
  | noResponse role agent reason => s!"{role} ({agent}) did not respond: {reason}"
  | abortFailed role reason => s!"{role} failed to abort: {reason}"
  | matchStarted number count game start play =>
    s!"match {number}/{count}: {game} ({start} | {play})"
  | seriesOver count aborted means =>
    let means := assigned means
    s!"{count} matches, {aborted} aborted. Mean goals: {means}"

end Note

/-- A note and the time at which it was made. -/
structure Entry where
  time : Int
  note : Note

/-- How times are written in a journal. -/
structure TimeStyle where
  /-- What precedes a note made at the given time. -/
  stamp : Int → String
  /-- The text of a span of time. -/
  writeElapsed : Int → String

/-- How a journal is written. -/
structure JournalStyle extends TimeStyle where
  /-- The lowest level shown. -/
  threshold : Level

namespace JournalStyle

/-- Whether a note is shown: it has to reach the threshold, and what is only of use to those who
look for faults in the program is never shown. -/
def shows (style : JournalStyle) (note : Note) : Bool :=
  decide (style.threshold.rank ≤ note.level.rank) && decide (Level.info.rank ≤ note.level.rank)

def lines (style : JournalStyle) (entries : List Entry) : List String :=
  (entries.filter (style.shows ·.note)).map fun entry =>
    style.stamp entry.time ++ entry.note.text style.writeElapsed

def text (style : JournalStyle) (entries : List Entry) : String :=
  String.join ((style.lines entries).map (· ++ "\n"))

end JournalStyle

/-- What a user can ask of a journal. -/
structure JournalSettings where
  /-- The name of a file that the journal is also written to, empty if there is none. -/
  file : String := ""
  level : String := "info"
  /-- Whether the file keeps what it held before. -/
  appends : Bool := false
  omitsStamps : Bool := false
deriving DecidableEq

namespace JournalSettings

/-- How a journal with these settings is written, by someone who writes times as given. -/
def style? (settings : JournalSettings) (times : TimeStyle) : Except Fault JournalStyle := do
  return {
    threshold := ← Level.ofName? settings.level
    stamp := fun time => if settings.omitsStamps then "" else times.stamp time
    writeElapsed := times.writeElapsed }

/-- What the file holds after a journal has been written to it. -/
def fileText (settings : JournalSettings) (before : Option String) (journal : String) :
    Option String :=
  if settings.file = "" then before
  else some ((if settings.appends then before.getD "" else "") ++ journal)

end JournalSettings

end GameSearch
