import GameSearch.Clock.Settings
import GameSearch.Game.Registry
import GameSearch.Host
import GameSearch.Hosted

/-!
# Agents

An agent plays one role of a match.  It is told when a match begins, is asked for a move whenever
its role is in control, and is told how the match ended, or that it was aborted.  What a match does
with its agents goes through the class `Agent` only, so that it holds for agents of any behaviour.

A `Seat` is what an agent knows about the match that it takes part in: the game, its role and the
clocks.  The game and the role are dropped when the match ends.
-/

namespace GameSearch

/-- Players of a role. -/
class Agent (α ε : Type) where
  name : α → String
  /-- The agent takes its place for a series of matches. -/
  setUp : α → α := id
  /-- The agent leaves its place. -/
  tearDown : α → α := id
  /-- A match of the given rules begins, in which the agent has a role; start clock and play clock
  are set as given. -/
  prepare : Role → Ruleset → (startClock playClock : Clock.Settings Binary64) →
    Action (Hosted α ε) Unit
  /-- The move at a ply, with so much time left besides the delay, for a role that has the given
  view. -/
  move : (ply timeLeft : Int) → View → Action (Hosted α ε) Move
  /-- The match is over, and the role has the given view. -/
  conclude : View → Action (Hosted α ε) Unit
  /-- The match is broken off. -/
  abort : Action (Hosted α ε) Unit

/-- Where an agent gets the game from that it is to play. -/
abbrev GameSource := Ruleset → Except Fault (Option Game)

/-- The games of the library. -/
def GameSource.library : GameSource := fun ruleset => (Game.ofName? ruleset).map some

/-- What an agent knows about the match that it takes part in. -/
structure Seat where
  source : GameSource
  game : Option Game := none
  role : Option Role := none
  startClock : Clock.Settings Binary64 := ⟨0, 0, 0⟩
  playClock : Clock.Settings Binary64 := ⟨0, 0, 0⟩

namespace Seat

/-- A seat in no match, for an agent that gets its games from somewhere. -/
def ofSource? : Option GameSource → Except Fault Seat
  | none => .error .missingFactory
  | some source => .ok { source := source }

/-- A match begins. -/
def take (role : Role) (ruleset : Ruleset) (startClock playClock : Clock.Settings Binary64) :
    Action Seat Unit := do
  modify fun seat =>
    { seat with role := some role, startClock := startClock, playClock := playClock }
  match ← (← get).source ruleset with
  | some game => modify fun seat => { seat with game := some game }
  | none =>
    modify fun seat => { seat with game := none }
    throw (.factoryReturnedNothing ruleset.name)

/-- The match is over. -/
def leave (seat : Seat) : Seat := { seat with game := none, role := none }

/-- The game being played by the agent of the given name. -/
def game? (seat : Seat) (agent : String) : Except Fault Game :=
  match seat.game with
  | some game => .ok game
  | none => .error (.noGame agent)

/-- The role of the agent of the given name. -/
def role? (seat : Seat) (agent : String) : Except Fault Role :=
  match seat.role with
  | some role => .ok role
  | none => .error (.noRole agent)

/-- Whether a match is going on. -/
def isTaken (seat : Seat) : Bool := seat.game.isSome

end Seat

end GameSearch
