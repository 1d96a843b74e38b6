import GameSearch.Host

/-!
# Repetition within a time limit

`Repeater.run` calls an action until a time limit has passed or until it is cancelled, and at least
once.  The clock is read between calls only.  A cancellation counts for the run in which it is made,
or for the next one if none is going on; a run that fails does not take it back.
-/

namespace GameSearch

/-- A state in which an action can be repeated, and the repetition cancelled. -/
structure Repeater (σ : Type) where
  inner : σ
  isCancelled : Bool := false

namespace Repeater

variable {σ : Type}

/-- What a run of repetitions amounted to. -/
structure Outcome where
  iterations : Nat := 0
  elapsed : Int := 0
deriving DecidableEq

/-- Cancels the current or the next run. -/
def cancel : Action (Repeater σ) Unit := modify fun r => { r with isCancelled := true }

def lift {α : Type} (action : Action σ α) : Action (Repeater σ) α := fun r =>
  match action r.inner with
  | .ok a inner => .ok a { r with inner := inner }
  | .error e inner => .error e { r with inner := inner }

/-- Calls the action up to `count` times, until a reading of the clock reaches the deadline or the
run is cancelled: the number of calls and the last reading. -/
def runUntil (now : Action σ Int) (action : Action (Repeater σ) Unit) (deadline : Int) :
    (count done : Nat) → Action (Repeater σ) (Nat × Int)
  | 0, _ => throw .outOfSteps
  | count + 1, done => do
    action
    let time ← lift now
    if time < deadline && !(← get).isCancelled then runUntil now action deadline count (done + 1)
    else return (done + 1, time)

/-- Calls the action until the time limit has passed or the run is cancelled, and at least once;
`limit` bounds the number of calls. -/
def run (now : Action σ Int) (action : Action (Repeater σ) Unit) (timeout : Int) (limit : Nat) :
    Action (Repeater σ) Outcome := do
  let start ← lift now
  let (iterations, time) ← runUntil now action (start + timeout) limit 0
  -- not reached if a call fails
  modify fun r => { r with isCancelled := false }
  return { iterations := iterations, elapsed := time - start }

end Repeater

end GameSearch
