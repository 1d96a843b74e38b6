/-!
# Game clocks

The clock of a role holds a total time, which decreases while the role thinks, minus a delay per
move that is free, plus an increment per move that is credited afterwards.  All times are whole
nanoseconds.  A clock that cannot expire, because its total time or its delay is infinite, is never
charged.
-/

namespace GameSearch

/-- The times of a clock, in nanoseconds. -/
structure Clock.Times where
  total : Int
  increment : Int
  delay : Int
  /-- Whether both the total time and the delay are finite. -/
  canExpire : Bool

/-- A running or stopped clock. -/
structure Clock where
  times : Clock.Times
  /-- What is left of the total time. -/
  left : Int
  /-- When the current move began. -/
  startedAt : Option Int := none
  /-- How long the last move took. -/
  lastElapsed : Option Int := none

namespace Clock

/-- The time that stands for an infinite one: a day. -/
def forever : Int := 24 * 60 * 60 * 1000000000

/-- A clock that has not been started. -/
def ofTimes (times : Times) : Clock where
  times := times
  left := times.total

/-- Whether the total time has been exceeded. -/
def isExpired (c : Clock) : Bool := c.times.canExpire && decide (c.left < 0)

def start (c : Clock) (now : Int) : Clock := { c with startedAt := some now }

/-- Takes the time of a move from the total time, but for the delay, and credits the increment
unless that was too much. -/
def charge (c : Clock) (elapsed : Int) : Clock :=
  if !c.times.canExpire then c
  else
    let charged := { c with left := c.left - max 0 (elapsed - c.times.delay) }
    if charged.isExpired then charged
    else { charged with left := charged.left + c.times.increment }

/-- A move ends: how long it took, and the charged clock.  Nothing is charged if no move had
begun. -/
def stop (c : Clock) (now : Int) : Int × Clock :=
  match c.startedAt with
  | none => (0, { c with lastElapsed := some 0 })
  | some began =>
    let elapsed := now - began
    (elapsed, { c.charge elapsed with startedAt := none, lastElapsed := some elapsed })

/-- How long the current move may take without the clock expiring. -/
def timeout (c : Clock) : Int :=
  if c.times.canExpire then max 0 (c.left + c.times.delay) else forever

end Clock

end GameSearch
