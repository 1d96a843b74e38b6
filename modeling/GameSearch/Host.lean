import GameSearch.Chance.Dice
import GameSearch.Journal

/-!
# Hosts

A host is all that agents and matches use outside of themselves: a source of random numbers, a
clock to look at, and a journal to write into.  What is proved about a program for every host holds
for every sequence of draws and of clock readings.
-/

namespace GameSearch

/-- Surroundings in which agents and matches work. -/
class Host (ε : Type) extends Dice ε where
  /-- The time in nanoseconds. -/
  now : ε → Int × ε
  /-- Lets some nanoseconds pass. -/
  pause : Nat → ε → ε
  /-- Writes a note into the journal. -/
  note : Note → ε → ε

namespace Host

variable {ε : Type} [Host ε]

def readClock : Action ε Int := fun host =>
  let (time, host) := now host
  .ok time host

/-- Lets some nanoseconds pass. -/
def wait (time : Nat) : Action ε Unit := modify (pause time)

/-- Writes a note into the journal. -/
def report (n : Note) : Action ε Unit := modify (note n)

end Host

end GameSearch
