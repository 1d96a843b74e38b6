import GameSearch.Chance.Dice
import GameSearch.Game.Basic
import GameSearch.Scalar

/-!
# Evaluators

An evaluator estimates the utility of a state for a role, as a number of the unit interval: 0 is the
worst outcome and 1 the best.  It may draw random numbers.  `Evaluator.final` knows the utilities of
terminal states: they depend on nothing but the ranking of the goals.
-/

namespace GameSearch

/-- A way of estimating the utility of states. -/
structure Evaluator (R ε : Type) where
  /-- The utility of a state for a role. -/
  evaluate : Game → State → Role → Action ε R
  /-- The utility of a state for each of some roles. -/
  evaluateAll : Game → State → List Role → Action ε (ByRole R)

namespace Evaluator

variable {R ε : Type}

/-- The values of an action for each of some roles, one after the other. -/
def forEachRole (roles : List Role) (action : Role → Action ε R) : Action ε (ByRole R) := do
  return .ofList (← roles.mapM fun role => return (role, ← action role))

/-- The evaluator that looks at one role after the other. -/
def ofEach (evaluate : Game → State → Role → Action ε R) : Evaluator R ε where
  evaluate := evaluate
  evaluateAll game s roles := forEachRole roles (evaluate game s)

/-- The evaluator that looks utilities up in a table, of whose rows for the same state and role the
last one counts. -/
def ofTable (rows : List ((State × Role) × R)) (otherwise : R) : Evaluator R ε :=
  ofEach fun _ s role => return (rows.reverse.lookup (s, role)).getD otherwise

variable [Scalar R]

/-- The utility of a place in a ranking of `places` roles: `rank` of them are ahead, and
`rankCount` share the place. -/
def rankUtility? (rank rankCount places : Int) : Except Fault R :=
  if places > 1 ∧ rankCount ≥ 1 ∧ rank ≥ 0 ∧ rank + rankCount ≤ places then
    .ok (Scalar.clampToUnit
      (Scalar.ofInt (places - rank - 1) / Scalar.ofInt (rankCount * (places - 1))))
  else .error (.invalidRanking rank rankCount places)

/-- The utility of goals for a role.  A role without a goal gets the middle of the interval, a role
that is alone in having one gets its goal in hundredths. -/
def goalUtility? (goals : ByRole (Option Int)) (role : Role) : Except Fault R :=
  match goals.getD role none with
  | none => .ok Scalar.half
  | some goal =>
    let reached := goals.toList.filterMap Prod.snd
    if reached.length ≤ 1 then .ok (Scalar.clampToUnit (Scalar.ofInt goal / Scalar.ofInt 100))
    else
      rankUtility? (reached.countP (goal < ·)) (reached.countP (goal = ·)) reached.length

/-- The utility of the goals that a state has. -/
def final : Evaluator R ε := ofEach fun game s role => do goalUtility? (← game.goals s) role

end Evaluator

end GameSearch
