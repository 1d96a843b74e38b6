import GameSearch.Chance.Dice
import GameSearch.Game.Basic

/-!
# Playing a game by hand

Following a game move by move, or by taking one of the possible turns over and over.
-/

namespace GameSearch

namespace Game

variable (game : Game)

/-- The state after a move of the first role in control. -/
def advance? (s : State) (move : Move) : Except Fault State := do
  match (← s.control?).toList.head? with
  | some role => game.next? s (.single role move)
  | none => throw .outOfRange

/-- Takes turns: each is the one with a given number among those possible, counted around, as long
as the play goes on.  If a query fails, the turns before it stay taken. -/
def takeTurns (choice : Nat) : (count : Nat) → Action State (List Turn)
  | 0 => return []
  | count + 1 => do
    let next ← game.successors? (← get)
    match next[choice % next.length]? with
    | none => return []
    | some (turn, s) =>
      set s
      return turn :: (← takeTurns choice count)

end Game

end GameSearch
