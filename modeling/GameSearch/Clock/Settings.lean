import GameSearch.Clock.Basic
import GameSearch.Decimal.Fixed
import GameSearch.Decimal.Reader
import GameSearch.Fault
import GameSearch.Text.Blank

/-!
# Clock settings

A clock is set by its total time, its increment per move and its delay per move, in seconds, each
of which may be infinite.  The accepted texts are `T | I d D`, `T | I`, `T d D`, `T` and `d D`; a
missing part is 0.  How the seconds themselves are read is a parameter, so that the grammar can be
looked at on its own.
-/

namespace GameSearch

/-- The settings of a clock, in seconds. -/
structure Clock.Settings (α : Type) where
  total : α
  increment : α
  delay : α

namespace Clock

/-- How seconds are read. -/
structure SecondsReader (α : Type) where
  read : String → Option α
  /-- Whether a number is one that a clock can be set to. -/
  isTime : α → Bool
  zero : α

/-- A piece of a clock text without the blanks around it and with a word for the infinity sign. -/
def pieceText (piece : List Char) : String :=
  String.ofList ((trimChars piece).flatMap fun c => if c = '∞' then "inf".toList else [c])

/-- Whether a character of a clock text is part of the total time in front. -/
def isPart (c : Char) : Bool := c ≠ '|' && c ≠ 'd'

namespace SecondsReader

variable {α : Type} (reader : SecondsReader α) (text : String)

/-- The seconds that a piece of a clock text tells. -/
def seconds? (piece : List Char) : Except Fault α :=
  match reader.read (pieceText piece) with
  | none => .error (.clockNotNumber text (pieceText piece))
  | some value =>
    if reader.isTime value then .ok value else .error (.clockNegative text (pieceText piece))

/-- The delay that the end of a clock text tells, which starts with a `d` unless it is empty. -/
def delay? : List Char → Except Fault α
  | [] => .ok reader.zero
  | 'd' :: piece => reader.seconds? text piece
  | _ => .error (.malformedClock text)

/-- The increment and the delay that the rest of a clock text tells. -/
def rest? : List Char → Except Fault (α × α)
  | '|' :: rest => do
    let increment ← reader.seconds? text (rest.takeWhile (· ≠ 'd'))
    return (increment, ← reader.delay? text (rest.dropWhile (· ≠ 'd')))
  | rest => return (reader.zero, ← reader.delay? text rest)

/-- The settings that a text tells. -/
def settings? : Except Fault (Settings α) :=
  match trimChars text.toList with
  | [] => .error (.emptyClock text)
  | 'd' :: piece => return ⟨reader.zero, reader.zero, ← reader.delay? text ('d' :: piece)⟩
  | cs => do
    let total ← reader.seconds? text (cs.takeWhile isPart)
    let (increment, delay) ← reader.rest? text (cs.dropWhile isPart)
    return ⟨total, increment, delay⟩

end SecondsReader

namespace Settings

/-- Seconds as floating-point numbers. -/
def reader : SecondsReader Binary64 where
  read := Decimal.readReal?
  isTime x := decide (0 ≤ x)
  zero := 0

/-- The settings that a text tells. -/
def ofText? (text : String) : Except Fault (Settings Binary64) := reader.settings? text

/-- The text of a number of seconds. -/
def secondsText (x : Binary64) : String := if x.isInfinite then "inf" else Decimal.general x

def text (s : Settings Binary64) : String :=
  secondsText s.total ++ " | " ++ secondsText s.increment ++ " d " ++ secondsText s.delay

/-- Seconds as whole nanoseconds, at most those of a day. -/
def nanoseconds (x : Binary64) : Int :=
  if x.isInfinite then forever else min forever (x * 1e9).round.toWord

/-- Whether a clock so set can expire. -/
def canExpire (s : Settings Binary64) : Bool := !s.total.isInfinite && !s.delay.isInfinite

/-- The settings in nanoseconds. -/
def times (s : Settings Binary64) : Times where
  total := nanoseconds s.total
  increment := nanoseconds s.increment
  delay := nanoseconds s.delay
  canExpire := s.canExpire

/-- Whether two settings are equal as numbers. -/
def isEqual (s t : Settings Binary64) : Bool :=
  s.total == t.total && s.increment == t.increment && s.delay == t.delay

/-- The start clock of a match, unless another one is wanted. -/
def defaultStart : Settings Binary64 := ⟨60, 0, 0⟩

/-- The play clock of a match, unless another one is wanted. -/
def defaultPlay : Settings Binary64 := ⟨0, 0, 60⟩

/-- The clock that never expires. -/
def unlimited : Settings Binary64 := ⟨0, 0, Binary64.infinity⟩

end Settings

end Clock

end GameSearch
