import GameSearch.Game.Basic

/-!
# Dark split corridor

The roles `left` and `right` race their pawns from b1 to row 4, each on its own board of three
columns and four rows.  They alternate, left first.  The role in control moves its pawn one cell,
or places a border on a crossing of the opponent's board.  A crossing is named after the two cells
that it separates, in order.

Borders are hidden from the role that they hinder.  Running into one leaves the pawn where it is
and reveals the border, after which that move is no longer legal.  A border may not be placed on a
crossing of row 4, on a blocked crossing, or where it would cut the opponent off from row 4.  Each
role sees who is in control, both pawns, the borders it placed and those it ran into.  The first
pawn on row 4 wins.
-/

namespace GameSearch.Corridor

def left : Role := .symbol "left"

def right : Role := .symbol "right"

def other (role : Role) : Role := if role = left then right else left

/-- The character some places after another one, counted around within one byte. -/
def charAfter (c : Char) (places : Int) : Char :=
  Char.ofNat ((Int.ofNat c.toNat + places).emod 256).toNat

/-- The name of the cell at a column and a row, both from 0. -/
def cellName (column row : Int) : String :=
  String.ofList [charAfter 'a' column, charAfter '1' row]

/-- The name of the crossing between two cells, the smaller name first. -/
def crossingName (a b : String) : String := if a < b then a ++ "-" ++ b else b ++ "-" ++ a

/-- A cell of a board. -/
structure Cell where
  column : Fin 3
  row : Fin 4
deriving DecidableEq

/-- The directions in which a pawn can move, by name. -/
inductive Direction where
  | east
  | north
  | south
  | west
deriving DecidableEq

namespace Direction

def all : List Direction := [east, north, south, west]

def name : Direction → String
  | east => "east"
  | north => "north"
  | south => "south"
  | west => "west"

def ofName? (s : String) : Option Direction := all.find? (·.name = s)

end Direction

namespace Cell

def name (c : Cell) : String := cellName c.column.val c.row.val

def all : List Cell :=
  (List.finRange 3).flatMap fun column => (List.finRange 4).map fun row => ⟨column, row⟩

def ofName? (s : String) : Option Cell := all.find? (·.name = s)

/-- Whether a pawn on the cell has won. -/
def isGoal (c : Cell) : Bool := c.row = 3

/-- The next cell in a direction, if the board has one. -/
def neighbour? (c : Cell) : Direction → Option Cell
  | .north => if h : c.row.val + 1 < 4 then some ⟨c.column, ⟨c.row + 1, h⟩⟩ else none
  | .south => if 0 < c.row.val then some ⟨c.column, ⟨c.row - 1, by omega⟩⟩ else none
  | .east => if h : c.column.val + 1 < 3 then some ⟨⟨c.column + 1, h⟩, c.row⟩ else none
  | .west => if 0 < c.column.val then some ⟨⟨c.column - 1, by omega⟩, c.row⟩ else none

/-- The name of the crossing between two cells. -/
def crossing (a b : Cell) : String := crossingName a.name b.name

end Cell

/-- The pairs of neighbours of a board, each once. -/
def neighbours : List (Cell × Cell) :=
  Cell.all.flatMap fun c =>
    [Direction.north, Direction.east].filterMap fun d => (c.neighbour? d).map (c, ·)

/-- The pairs of neighbours with the names of their crossings. -/
def crossings : List (String × Cell × Cell) :=
  neighbours.map fun (a, b) => (a.crossing b, a, b)

/-- The pairs of neighbours that borders of the given names separate. -/
def separated (borders : List String) : List (Cell × Cell) :=
  (crossings.filter fun (name, _) => borders.contains name).map (·.2)

/-- The crossings on which a border may be placed: all but those within row 4. -/
def blockable : List String :=
  ((crossings.filter fun (_, a, b) => !(a.isGoal && b.isGoal)).map (·.1)).mergeSort

/-- Whether a pawn can step from a cell to a neighbour. -/
def isOpen (walls : List (Cell × Cell)) (a b : Cell) : Bool :=
  !walls.contains (a, b) && !walls.contains (b, a)

/-- Whether a pawn can reach row 4 from one of the cells of the queue without visiting others
again. -/
def search (walls : List (Cell × Cell)) : Nat → List Cell → List Cell → Bool
  | 0, _, _ => false
  | _ + 1, _, [] => false
  | count + 1, visited, c :: queue =>
    if c.isGoal then true
    else
      let fresh := (Direction.all.filterMap c.neighbour?).filter fun d =>
        !visited.contains d && isOpen walls c d
      search walls count (visited ++ fresh) (queue ++ fresh)

/-- Whether a pawn can reach row 4 in spite of the given walls.  Each of the twelve cells is looked
at no more than once. -/
def canReach (walls : List (Cell × Cell)) (c : Cell) : Bool := search walls 12 [c] [c]

/-- Whether a pawn can reach row 4 without crossing the given borders or one more. -/
def canFinish (c : Cell) (borders : List String) (extra : String) : Bool :=
  canReach (separated (extra :: borders)) c

/-- The move of a pawn in a direction. -/
def step (d : Direction) : Move :=
  match d with
  | .east => .compound "move" (.symbol "east") []
  | .north => .compound "move" (.symbol "north") []
  | .south => .compound "move" (.symbol "south") []
  | .west => .compound "move" (.symbol "west") []

/-- The fact that the pawn of a role is at a cell. -/
def pawnAt (role : Role) (cell : Term) : Term := .compound "at" role [cell]

/-- The fact that a border hinders a role. -/
def border (role : Role) (crossing : Term) : Term := .compound "border" role [crossing]

/-- The fact that a role ran into a border. -/
def revealed (role : Role) (crossing : Term) : Term := .compound "revealed" role [crossing]

/-- What a state, or a view with both pawns, says about the board of a role. -/
structure Board where
  pawn : Cell
  borders : List String
  revealed : List String

/-- What has been read of a board: its pawn may not have been met yet. -/
structure Reading where
  pawn : Option Cell := none
  borders : List String := []
  revealed : List String := []

/-- Adds what a fact says about the board of a role. -/
def Reading.add? (role : Role) (r : Reading) (fact : Term) : Except Fault Reading := do
  let name := fact.name
  if name ≠ "at" && name ≠ "border" && name ≠ "revealed" then return r
  match ← fact.arguments? with
  | [owner, what] =>
    if owner ≠ role then return r
    if name = "at" then
      match Cell.ofName? what.text with
      | some c => return { r with pawn := some c }
      | none => throw (.malformedCell what.text)
    else if name = "border" then return { r with borders := what.text :: r.borders }
    else return { r with revealed := what.text :: r.revealed }
  | _ => return r

def board? (s : State) (role : Role) : Except Fault Board := do
  let r ← s.toList.foldlM (Reading.add? role) {}
  match r.pawn with
  | some pawn => return ⟨pawn, r.borders, r.revealed⟩
  | none => throw (.noPosition role.text s.text)

def isVisible? (s : State) (role : Role) (fact : Term) : Except Fault Bool := do
  let name := fact.name
  if name = "control" || name = "at" then return true
  let arguments ← fact.arguments?
  match name, arguments with
  | "revealed", owner :: _ => return owner = role
  | "border", [owner] => return owner ≠ role
  | "border", owner :: crossing :: _ =>
    return owner ≠ role || s.contains (revealed role crossing)
  | _, _ => return false

def view? (s : State) (role : Role) : Except Fault View := do
  return .ofList (← s.toList.filterM (isVisible? s role))

/-- The moves of a pawn that its role does not know to be blocked. -/
def pawnMoves (own : Board) : List Move :=
  (Direction.all.filter fun d =>
    (own.pawn.neighbour? d).any fun next => !own.revealed.contains (own.pawn.crossing next)).map
      step

/-- The crossings of the opponent's board on which a border may be placed now. -/
def openBlocks (opponent : Board) : List String :=
  let walls := separated opponent.borders
  blockable.filter fun crossing =>
    !opponent.borders.contains crossing &&
      canReach (separated [crossing] ++ walls) opponent.pawn

/-- The move that places a border. -/
def block? (crossing : String) : Except Fault Move := do
  return .compound "block" (← Term.ofText? crossing) []

/-- The legal moves of a role in control. -/
def moves? (s : State) (role : Role) : Except Fault (List Move) := do
  let own ← board? s role
  let opponent ← board? s (other role)
  let blocks ← (openBlocks opponent).mapM block?
  return blocks ++ pawnMoves own

/-- Whether the play is over: a pawn is on row 4. -/
def isOver? (s : State) : Except Fault Bool := do
  if (← board? s left).pawn.isGoal then return true
  return (← board? s right).pawn.isGoal

/-- The goals of left and right at the end of a play. -/
def finalGoals (leftDone rightDone : Bool) : Int × Int :=
  if leftDone && rightDone then (50, 50) else if leftDone then (100, 0) else (0, 100)

/-- A table of what is the case for `left` and for `right`. -/
def both {α : Type} (atLeft atRight : α) : ByRole α := .ofList [(left, atLeft), (right, atRight)]

/-- The state after the first move of a turn. -/
def play (s : State) (turn : Turn) : Except Fault State := do
  let some p := turn.plays.head? | throw .outOfRange
  let own ← board? s p.role
  let facts := s.withoutNamed "control" ++ [controlOf (other p.role)]
  let some argument := (← p.move.arguments?).head? | throw .outOfRange
  if p.move.name = "block" then return .ofList (facts ++ [border (other p.role) argument])
  let next ← match Direction.ofName? argument.text with
    | none => pure own.pawn
    | some d =>
      match own.pawn.neighbour? d with
      | some next => pure next
      | none => throw (.blockedDirection p.role.text argument.text own.pawn.name)
  let crossed := own.pawn.crossing next
  if own.borders.contains crossed then
    return .ofList (facts ++ [revealed p.role (← Term.ofText? crossed)])
  let source := pawnAt p.role (← Term.ofText? own.pawn.name)
  let target := pawnAt p.role (← Term.ofText? next.name)
  return .ofList (facts.map fun fact => if fact = source then target else fact)

/-- The pawns' first cell. -/
def firstCell : Term := .symbol "b1"

def game : Game where
  roles := [left, right]
  start := .ofList [pawnAt left firstCell, pawnAt right firstCell, controlOf left]
  sees s := return both (← view? s left) (← view? s right)
  legal s := do
    let control ← s.control?
    return .ofList (← control.toList.mapM fun role => return (role, ← moves? s role))
  goals s := do
    if !(← isOver? s) then return both none none
    let goals := finalGoals (← board? s left).pawn.isGoal (← board? s right).pawn.isGoal
    return both (some goals.1) (some goals.2)
  isTerminal := isOver?
  play := play

end GameSearch.Corridor
