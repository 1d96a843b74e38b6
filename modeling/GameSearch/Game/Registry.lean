import GameSearch.Game.Corridor
import GameSearch.Game.Minipoker
import GameSearch.Game.Table
import GameSearch.Game.Tictactoe

/-!
# The games of the library

The games that can be asked for by name.
-/

namespace GameSearch

/-- The name of the rules of a match. -/
structure Ruleset where
  name : String
deriving DecidableEq

namespace Game

/-- The names of the games, in increasing order. -/
def names : List String := ["dark_split_corridor", "minipoker", "tictactoe"]

def ofName? (ruleset : Ruleset) : Except Fault Game :=
  match ruleset.name with
  | "tictactoe" => .ok Tictactoe.game
  | "minipoker" => .ok Minipoker.game
  | "dark_split_corridor" => .ok Corridor.game
  | name => .error (.unknownGame name names)

end Game

end GameSearch
