import GameSearch.Chance.Twister
import GameSearch.Host

/-!
# Sessions

A host that depends on nothing but its seed: random numbers come from a Mersenne twister, and time
passes by one tick whenever the clock is read, so that a run can be repeated exactly.
-/

namespace GameSearch

/-- A host that depends on nothing but its seed. -/
structure Session where
  twister : Twister
  time : Int := 0
  /-- How many nanoseconds pass between two looks at the clock. -/
  tick : Nat := 1000
  /-- The notes so far, the latest first. -/
  journal : List Entry := []

namespace Session

def ofSeed (seed : Int) : Session := { twister := Twister.ofSeed seed }

/-- The session with its random numbers started afresh. -/
def reseed (s : Session) (seed : Int) : Session := { s with twister := Twister.ofSeed seed }

instance : Host Session where
  roll n h s :=
    let ⟨twister, time, tick, journal⟩ := s
    let (k, twister) := twister.roll n h
    (k, ⟨twister, time, tick, journal⟩)
  now s := (s.time, { s with time := s.time + s.tick })
  pause time s := { s with time := s.time + time }
  note n s := { s with journal := ⟨s.time, n⟩ :: s.journal }

/-- The notes so far in the order in which they were made. -/
def entries (s : Session) : List Entry := s.journal.reverse

end Session

end GameSearch
