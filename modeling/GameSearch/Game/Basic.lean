import GameSearch.Evidence

/-!
# Games

A game answers seven queries about its states.  All else a search needs to know about it, such as
the transitions out of a state or the ranking of the roles, is derived from the answers here.
`Game.next?` is the referee: it accepts exactly one legal move of each role in control.
`Game.successors?` lists what it accepts.
-/

namespace GameSearch

/-- The fact that a role is in control. -/
def controlOf (role : Role) : Term := .compound "control" role []

namespace State

/-- The roles named by the facts `control(role)`. -/
def control? (s : State) : Except Fault (SortedSet Role) := do
  let arguments ← (s.named "control").mapM Term.arguments?
  return SortedSet.ofList (arguments.filterMap fun
    | [role] => some role
    | _ => none)

def isInControl (s : State) (role : Role) : Bool := s.contains (controlOf role)

end State

/-- The rules of a game, as answers to queries about its states. -/
structure Game where
  /-- The roles in increasing order. -/
  roles : List Role
  start : State
  /-- What each role sees. -/
  sees : State → Except Fault (ByRole View)
  /-- The legal moves in increasing order, for every role that has any.  A view can stand in for
  the state if it holds all that legality depends on. -/
  legal : State → Except Fault (ByRole (List Move))
  /-- The goals of the roles, none for a role that has none in this state. -/
  goals : State → Except Fault (ByRole (Option Int))
  isTerminal : State → Except Fault Bool
  /-- The state after a legal turn. -/
  play : State → Turn → Except Fault State

namespace Game

variable (game : Game)

/-- What a role sees: nothing, unless the game says otherwise. -/
def view? (s : State) (role : Role) : Except Fault View := do
  return (← game.sees s).getD role ∅

/-- The legal moves of a role: none, unless the game says otherwise. -/
def moves? (s : State) (role : Role) : Except Fault (List Move) := do
  return (← game.legal s).getD role []

/-- Whether a move is legal for a role. -/
def isLegal? (s : State) (role : Role) (move : Move) : Except Fault Bool := do
  return (← game.moves? s role).contains move

/-- The goal of a role, if it has one. -/
def goal? (s : State) (role : Role) : Except Fault (Option Int) := do
  return (← game.goals s).getD role none

/-- Whether a play is a legal move of a role in control. -/
def accepts (control : SortedSet Role) (legal : ByRole (List Move)) (p : Play) : Bool :=
  decide (p.role ∈ control) && (legal.getD p.role []).contains p.move

/-- The state after a turn, which must be one legal move for each role in control. -/
def next? (s : State) (turn : Turn) : Except Fault State := do
  let control ← s.control?
  if turn.size ≠ control.size then throw (.turnSize turn.text s.text)
  let legal ← game.legal s
  match turn.plays.find? fun p => !accepts control legal p with
  | some p => throw (.illegalPlay p.role.text p.move.text s.text)
  | none => game.play s turn

/-- Every way of choosing one move for each role; the moves of the first role vary slowest. -/
def jointPlays : List (Role × List Move) → List (List Play)
  | [] => [[]]
  | (role, moves) :: rest =>
    moves.flatMap fun move => (jointPlays rest).map (⟨role, move⟩ :: ·)

/-- The moves that each role in control can choose from; there must be some. -/
def choices? (s : State) (control : SortedSet Role) (legal : ByRole (List Move)) :
    Except Fault (List (Role × List Move)) :=
  control.toList.mapM fun role =>
    match legal.getD role [] with
    | [] => .error (.stuckRole role.text s.text)
    | moves => .ok (role, moves)

/-- Every turn of a state with the state after it, in increasing order of the turns; none if the
play is over. -/
def successors? (s : State) : Except Fault (List (Turn × State)) := do
  if ← game.isTerminal s then return []
  let control ← s.control?
  let legal ← game.legal s
  let choices ← choices? s control legal
  (jointPlays choices).mapM fun plays => do
    let turn := Turn.ofList plays
    return (turn, ← game.play s turn)

/-- The ranking of the roles that have a goal: the number of roles with a greater goal. -/
def ranks? (s : State) : Except Fault (ByRole Nat) := do
  let goals ← game.goals s
  let reached := goals.toList.filterMap fun (role, goal) => goal.map (role, ·)
  return .ofList (reached.map fun (role, goal) => (role, reached.countP (goal < ·.2)))

end Game

end GameSearch
