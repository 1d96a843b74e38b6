import GameSearch.Agent.Player
import GameSearch.CommandLine.Settings
import GameSearch.Series
import GameSearch.Session

/-!
# The program that plays matches

The program reads its settings from the command line, takes one agent for each role, plays a series
of matches between them and reports on it in the journal.  What is wrong with what the user asked
for ends the program with a message; any other fault is passed on.

`Program.run` is all of the program but for reading and writing: it goes from the words of the
command line to what is to be written.
-/

namespace GameSearch

/-- What a run of the program comes to. -/
structure Outcome where
  /-- The exit code, or the fault that stopped the program. -/
  status : Except Fault UInt32
  /-- What is written to the output besides the journal. -/
  output : String := ""
  /-- What is written about faults of the user. -/
  errors : String := ""
  /-- What the journal shows. -/
  journal : String := ""
  /-- The settings of the journal, if the program came so far as to open it. -/
  opened : Option JournalSettings := none

namespace Outcome

/-- What a file holds after the run. -/
def fileText (outcome : Outcome) (name : String) (before : Option String) : Option String :=
  match outcome.opened with
  | some settings =>
    if settings.file = name then settings.fileText before outcome.journal else before
  | none => before

/-- The outcome with a fault in it: one of the user is reported, any other one is passed on. -/
def withFault (outcome : Outcome) (e : Fault) : Outcome :=
  if e.kind.isClean then
    { outcome with
      status := .ok 1, errors := "Caught a CleanException: " ++ e.message ++ "\n" }
  else { outcome with status := .error e }

end Outcome

namespace Program

/-- The roles of a game with the names of their agents: those given, in the order of the roles, and
the random agent for chance. -/
def assign : List Role → List String → List (Role × String)
  | [], _ => []
  | role :: roles, names =>
    if role = chance then (role, RandomAgent.label) :: assign roles names
    else
      match names with
      | name :: names => (role, name) :: assign roles names
      | [] => []

/-- The agents of a series, taking their places. -/
def agents? {ε : Type} [Host ε] (search : SearchSettings) (assigned : List (Role × String)) :
    Except Fault (ByRole (Player ε)) := do
  let agents ← assigned.mapM fun (role, name) => do
    let agent ← Player.ofName? name (some .library) search none none none
    return (role, Agent.setUp ε agent)
  return .ofList agents

/-- The series that the settings ask for, and its agents. -/
def series? {ε : Type} [Host ε] (settings : SeriesSettings) (search : SearchSettings) :
    Except Fault (Series × ByRole (Player ε)) := do
  let ruleset : Ruleset := ⟨settings.game⟩
  let game ← Game.ofName? ruleset
  let startClock ← Clock.Settings.ofText? settings.startClock
  let playClock ← Clock.Settings.ofText? settings.playClock
  let wanted := (game.roles.filter (· ≠ chance)).length
  if settings.agents.length ≠ wanted then
    throw (.agentOptionCount settings.game wanted settings.agents.length)
  let agents ← agents? search (assign game.roles settings.agents)
  return ({
    game := game, ruleset := ruleset, startClock := startClock, playClock := playClock
    count := settings.count }, agents)

/-- The surroundings with the seed that the settings ask for. -/
def seeded (seed : Int) (host : Session) : Session := if seed = 0 then host else host.reseed seed

/-- Plays the matches that the settings ask for. -/
def play (times : TimeStyle) (settings : ProgramSettings) (host : Session) : Outcome :=
  let journal := settings.common.journal
  match journal.style? times with
  | .error e => Outcome.withFault { status := .ok 0 } e
  | .ok style =>
    let outcome : Outcome := { status := .ok 0, opened := some journal }
    let made : Except Fault (Series × ByRole (Player Session)) :=
      series? settings.series settings.common.search
    match made with
    | .error e => outcome.withFault e
    | .ok (series, agents) =>
      match series.play ⟨agents, seeded settings.common.seed host⟩ with
      | .ok _ ⟨_, host⟩ => { outcome with journal := style.text host.entries }
      | .error e ⟨_, host⟩ => { outcome with journal := style.text host.entries }.withFault e

/-- Runs the program on the words of a command line. -/
def run (times : TimeStyle) (words : List String) (host : Session) : Outcome :=
  let line := ProgramSettings.commandLine {}
  match line.settings? {} words with
  | .error e => Outcome.withFault { status := .ok 0 } e
  | .ok settings =>
    if settings.wantsHelp || settings.wantsFullHelp then
      { status := .ok 0
        output := String.join ((line.help settings.wantsFullHelp).map (· ++ "\n")) ++ "\n" }
    else play times settings host

end Program

end GameSearch
