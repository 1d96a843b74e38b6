import GameSearch.Clock.Settings
import GameSearch.Search.Playout
import GameSearch.Search.Selector

/-!
# Settings of the searching agents

How much an agent explores, how long its playouts are, and how it divides its time.
-/

namespace GameSearch

/-- The settings of a searching agent. -/
structure SearchSettings where
  /-- The weight of the bonus for options with few playouts. -/
  explorationConstant : Binary64 := Selector.defaultConstant
  maxPlayoutDepth : Int := PlayoutEvaluator.defaultMaxDepth
  /-- Which part of the time that it could use an agent uses. -/
  timeScale : Binary64 := 0.975
  /-- The time kept in reserve before the clock expires. -/
  minBufferMs : Int := 1000
  /-- The time taken off the allowance of a move before all of that is used. -/
  maxBufferMs : Int := 5000
  /-- The number of moves that the total time is spread over. -/
  guessedRemainingMoves : Int := 128
  /-- How many options are noted, all of them if the number is negative. -/
  maxLoggedOptions : Int := 10
  /-- Whether the start clock is spent on a book. -/
  buildsBook : Bool := false

namespace SearchSettings

variable (settings : SearchSettings)

/-- Milliseconds as nanoseconds. -/
def ofMilliseconds (ms : Int) : Int := ms * 1000000

/-- A part of some nanoseconds, without the fraction. -/
def part (time : Int) (scale : Binary64) : Int := (Binary64.ofInt time * scale).toWord

/-- The number of moves that what is left of the total time is spread over, at least one. -/
def movesToCome (left : Int) : Int := if left > 0 then max 1 settings.guessedRemainingMoves else 1

/-- How long to search for a move, when `left` is left on the clock besides the delay and `used` has
been used for the move already.  The allowance of the move and a share of the total time are used;
`scaled` cuts each of these times down to the part of it that may be, and the clock never gets close
to expiring. -/
def budget (scaled : Int → Int) (times : Clock.Times) (left used : Int) : Int :=
  let allowance := times.increment + times.delay - used
  let share := max 0 (left.tdiv (settings.movesToCome left))
  let most := scaled (left + times.delay - used) - ofMilliseconds settings.minBufferMs
  let least := scaled allowance - ofMilliseconds settings.maxBufferMs
  let wanted := scaled (allowance + share)
  max 0 (min (max (max 0 wanted) least) most)

/-- How long to search for a move, the part of the time that may be used being set. -/
def timeout (playClock : Clock.Settings Binary64) (left used : Int) : Int :=
  settings.budget (part · settings.timeScale) playClock.times left used

/-- How long to work on a book. -/
def bookTime (startClock : Clock.Settings Binary64) : Int :=
  part startClock.times.total settings.timeScale - ofMilliseconds settings.minBufferMs

end SearchSettings

end GameSearch
