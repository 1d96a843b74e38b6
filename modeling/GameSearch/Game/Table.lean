import Std.Data.HashMap
import GameSearch.Game.Basic

/-!
# Games given by a table

A game whose every state is a row of a table.  A state without a row is not terminal, offers no
move and shows nothing.
-/

namespace GameSearch

/-- What a table says about one state. -/
structure Table.Row where
  isTerminal : Bool := false
  legal : ByRole (List Move) := ∅
  /-- What the roles see; without it, each of them sees the state. -/
  sees : Option (ByRole View) := none
  /-- The goals of some roles. -/
  goals : ByRole (Option Int) := ∅
  next : List (Turn × State) := []
  /-- The class of fault that asking for the legal moves raises. -/
  fault : Option Fault.Kind := none

/-- A game as a table of its states. -/
structure Table where
  roles : List Role
  start : State
  rows : Std.HashMap State Table.Row

namespace Table

/-- A table of the same value for each role. -/
def forAll {α : Type} (roles : List Role) (a : α) : ByRole α := .ofList (roles.map (·, a))

def game (t : Table) : Game where
  roles := t.roles
  start := t.start
  sees s :=
    match t.rows[s]? with
    | none => .ok ∅
    | some row => .ok (row.sees.getD (forAll t.roles s))
  legal s :=
    match t.rows[s]? with
    | none => .ok ∅
    | some row =>
      match row.fault with
      | some kind => .error (.raised kind "table failure")
      | none => .ok row.legal
  goals s :=
    match t.rows[s]? with
    | none => .ok ∅
    | some row => .ok ((forAll t.roles none).insertMany row.goals.toList)
  isTerminal s := .ok ((t.rows[s]?).any Row.isTerminal)
  play s turn :=
    match ((t.rows[s]?).bind fun row => row.next.find? (·.1 = turn)) with
    | some (_, next) => .ok next
    | none => .error (.noTransition turn.text s.text)

end Table

end GameSearch
