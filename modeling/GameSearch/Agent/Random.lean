import GameSearch.Agent.Basic

/-!
# The random agent

An agent that plays any legal move with the same probability.  It also plays the role of chance.
-/

namespace GameSearch

/-- An agent that plays any legal move with the same probability. -/
structure RandomAgent where
  seat : Seat

namespace RandomAgent

variable {ε : Type}

def label : String := "random"

/-- An agent that gets its games from somewhere. -/
def ofSource? (source : Option GameSource) : Except Fault RandomAgent := do
  return ⟨← Seat.ofSource? source⟩

/-- An action on the seat. -/
def onSeat {α : Type} (action : Action Seat α) : Action (Hosted RandomAgent ε) α :=
  Hosted.onOwn fun agent =>
    match action agent.seat with
    | .ok a seat => .ok a ⟨seat⟩
    | .error e seat => .error e ⟨seat⟩

/-- A uniformly drawn legal move. -/
def move [Dice ε] (ply : Int) (view : View) : Action (Hosted RandomAgent ε) Move := do
  let seat := (← Hosted.read).seat
  let game ← seat.game? label
  let role ← seat.role? label
  match ← game.moves? view role with
  | [] => throw (.nothingToPlayAt role.text ply)
  | moves => Hosted.onHost (Dice.choose moves)

instance [Dice ε] : Agent RandomAgent ε where
  name _ := label
  prepare role ruleset startClock playClock := onSeat (Seat.take role ruleset startClock playClock)
  move ply _ view := move ply view
  conclude _ := onSeat (modify Seat.leave)
  abort := onSeat (modify Seat.leave)

end RandomAgent

end GameSearch
