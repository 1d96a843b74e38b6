import GameSearch.Match

/-!
# Series of matches

A number of matches between the same agents, one after the other.  The goals that the roles reach
are averaged over the matches that were not aborted.
-/

namespace GameSearch

/-- A series of matches of one game. -/
structure Series where
  game : Game
  ruleset : Ruleset
  startClock : Clock.Settings Binary64
  playClock : Clock.Settings Binary64
  /-- How many matches are played; none if the number is negative. -/
  count : Int

/-- How the matches of a series have gone so far. -/
structure Tally where
  aborted : Nat := 0
  /-- The goals of the roles added up, of those roles that have reached any. -/
  sums : ByRole Int := ∅

namespace Tally

/-- The goals of one more match. -/
def addGoals (sums : ByRole Int) (goals : ByRole (Option Int)) : ByRole Int :=
  goals.toList.foldl (fun sums (role, goal) =>
    match goal with
    | some goal => sums.insert role (sums.getD role 0 + goal)
    | none => sums) sums

/-- The tally after one more match. -/
def add (tally : Tally) (result : MatchResult) : Tally :=
  if result.isAborted then { tally with aborted := tally.aborted + 1 }
  else { tally with sums := addGoals tally.sums result.goals }

/-- The mean goals over those of `count` matches that were not aborted, with two places. -/
def means (tally : Tally) (count : Int) : List (String × String) :=
  let completed := Binary64.ofInt (count - tally.aborted)
  tally.sums.toList.map fun (role, sum) => 
    (role.text, Decimal.fixed 2 (Binary64.ofInt sum / completed))

end Tally

namespace Series

variable {α ε : Type} [Host ε] [Agent α ε]

def playMatch (series : Series) : Action (Hosted (ByRole α) ε) MatchResult :=
  fun ⟨agents, host⟩ =>
    let made := Match.of? series.game series.ruleset (agents.map fun _ agent => some agent)
      series.startClock series.playClock
    match made with
    | .error e => .error e ⟨agents, host⟩
    | .ok m =>
      match Match.run ⟨m, host⟩ with
      | .ok result ⟨m, host⟩ => .ok result ⟨m.agents, host⟩
      | .error e ⟨m, host⟩ => .error e ⟨m.agents, host⟩

/-- Plays the matches from the given number on. -/
def playFrom (series : Series) : (remaining number : Nat) → Tally →
    Action (Hosted (ByRole α) ε) Tally
  | 0, _, tally => return tally
  | remaining + 1, number, tally => do
    Hosted.onHost (Host.report (.matchStarted number series.count series.ruleset.name
      series.startClock.text series.playClock.text))
    let result ← series.playMatch
    series.playFrom remaining (number + 1) (tally.add result)

def play (series : Series) : Action (Hosted (ByRole α) ε) Tally := do
  let tally ← series.playFrom series.count.toNat 1 {}
  Hosted.onHost (Host.report (.seriesOver series.count tally.aborted (tally.means series.count)))
  return tally

end Series

end GameSearch
