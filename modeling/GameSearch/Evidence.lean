import GameSearch.Turn

/-!
# Evidence about a play

What is known about a play of a game: for some plies the states it may be in, for some plies the
views that some roles have, for some plies a turn, which may name only some of the roles in
control.  A ply that is not mentioned is not constrained.
-/

namespace GameSearch

/-- Partial evidence about a play, by ply. -/
structure Evidence where
  states : Std.ExtTreeMap Int StateSet := ∅
  views : Std.ExtTreeMap Int (ByRole View) := ∅
  turns : Std.ExtTreeMap Int Turn := ∅

namespace Evidence

instance : EmptyCollection Evidence := ⟨{}⟩

/-- The plies mentioned anywhere. -/
def plies (e : Evidence) : List Int := e.states.keys ++ e.views.keys ++ e.turns.keys

/-- The smallest ply mentioned anywhere, 0 if there is none.  Plies are 32-bit words, and the
largest of these counts as none. -/
def offset (e : Evidence) : Int := (e.plies.filter (· ≠ 2147483647)).min?.getD 0

/-- The largest ply mentioned anywhere, 0 if there is none.  Plies are 32-bit words, and the
smallest of these counts as none. -/
def horizon (e : Evidence) : Int := (e.plies.filter (· ≠ -2147483648)).max?.getD 0

/-- The evidence that the play was in one of the given states. -/
def withStates (e : Evidence) (ply : Int) (states : StateSet) : Evidence :=
  { e with states := e.states.insert ply states }

/-- The evidence that a role had the given view. -/
def withView (e : Evidence) (ply : Int) (role : Role) (view : View) : Evidence :=
  { e with views := e.views.insert ply ((e.views.getD ply ∅).insert role view) }

/-- The evidence that the given plays were made, in place of what was known about that turn. -/
def withTurn (e : Evidence) (ply : Int) (turn : Turn) : Evidence :=
  { e with turns := e.turns.insert ply turn }

/-- The text of some evidence: its range, the number of possible states, the views, the turns. -/
def text (e : Evidence) : String :=
  let range := s!"Record[{e.offset}..{e.horizon}]"
  let states := e.states.toList.map fun (ply, states) => s!" states@{ply}={states.size}"
  let views := e.views.toList.flatMap fun (ply, views) =>
    views.toList.map fun (role, view) => s!" view@{ply}[{role}]={view}"
  let turns := e.turns.toList.map fun (ply, turn) => s!" turn@{ply}={turn}"
  String.join (range :: states ++ views ++ turns)

end Evidence

end GameSearch
