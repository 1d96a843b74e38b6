import GameSearch.Agent.Basic

/-!
# Scripted agents

An agent that does what a script says, and keeps a log of all that it is told.  It shows how a match
treats agents that are slow, fail or cheat.
-/

namespace GameSearch

/-- What a scripted agent does when it is called. -/
structure Reaction where
  /-- The nanoseconds it takes. -/
  pause : Nat := 0
  /-- How it fails, if it does. -/
  fault : Option Fault := none

/-- What a scripted agent does when it is asked for a move; without a move it plays the first legal
one. -/
structure ScriptItem where
  reaction : Reaction := {}
  move : Option Move := none

/-- A script. -/
structure Script where
  /-- The game whose legal moves are played where the script names none. -/
  game : Game
  items : List ScriptItem := []
  onPrepare : Reaction := {}
  onConclude : Reaction := {}
  onAbort : Reaction := {}

/-- What a scripted agent is told. -/
inductive ScriptEvent where
  | setUp
  | tearDown
  | prepare (role : Role) (ruleset startClock playClock : String)
  | move (ply timeLeft : Int) (view : View)
  | conclude (view : View)
  | abort

structure ScriptedAgent where
  script : Script
  role : Option Role := none
  /-- The items that are still to come. -/
  left : List ScriptItem := []
  /-- What the agent has been told, the latest first. -/
  log : List ScriptEvent := []

namespace ScriptedAgent

variable {ε : Type}

/-- Writes an event into the log. -/
def told (agent : ScriptedAgent) (event : ScriptEvent) : ScriptedAgent :=
  { agent with log := event :: agent.log }

variable [Host ε]

/-- Takes its time, and then fails if it is to fail. -/
def react (r : Reaction) : Action (Hosted ScriptedAgent ε) Unit := do
  Hosted.onHost (Host.wait r.pause)
  if let some fault := r.fault then throw fault

def firstMove (view : View) : Action (Hosted ScriptedAgent ε) Move := do
  let agent ← Hosted.read
  match agent.role with
  | none => throw .outOfRange
  | some role =>
    match ← agent.script.game.moves? view role with
    | [] => throw (.raised .general "nothing to play")
    | move :: _ => return move

/-- The next move of the script. -/
def move (ply timeLeft : Int) (view : View) : Action (Hosted ScriptedAgent ε) Move := do
  Hosted.change (·.told (.move ply timeLeft view))
  match (← Hosted.read).left with
  | [] => firstMove view
  | item :: rest =>
    Hosted.change fun agent => { agent with left := rest }
    react item.reaction
    match item.move with
    | some move => return move
    | none => firstMove view

instance : Agent ScriptedAgent ε where
  name _ := "script"
  setUp agent := agent.told .setUp
  tearDown agent := agent.told .tearDown
  prepare role ruleset startClock playClock := do
    Hosted.change fun agent =>
      { agent.told (.prepare role ruleset.name startClock.text playClock.text) with
        role := some role
        left := agent.script.items }
    react (← Hosted.read).script.onPrepare
  move := move
  conclude view := do
    Hosted.change (·.told (.conclude view))
    react (← Hosted.read).script.onConclude
  abort := do
    Hosted.change (·.told .abort)
    react (← Hosted.read).script.onAbort

end ScriptedAgent

end GameSearch
