import GameSearch.Decimal.Reader
import GameSearch.Game.Basic

/-!
# Tic-tac-toe

The roles `x` and `o` take turns, `x` first, to mark a blank cell of a board of three rows and
three columns.  A state holds `control(role)` and a fact `cell(row,column,role)` for each marked
cell.  Three marks in a row score 100 against 0, a full board without such a row 50 each.  Both
roles see the whole state.
-/

namespace GameSearch.Tictactoe

def x : Role := .symbol "x"

def o : Role := .symbol "o"

/-- The marks of one role, a bit for each cell: row by row, from the left. -/
abbrev Marks := BitVec 16

structure Board where
  x : Marks := 0
  o : Marks := 0

/-- The cells marked by either role. -/
def Board.full (b : Board) : Marks := b.x ||| b.o

/-- The cell at a row and a column, both from 1.  Cells off the board count modulo 32, and have no
mark from 16 on. -/
def mark (row column : Int) : Marks :=
  (1 : Marks) <<< (((row - 1) * 3 + (column - 1)).emod 32).toNat

/-- Three cells. -/
def triple (a b c : Nat) : Marks := (1 <<< a) ||| (1 <<< b) ||| (1 <<< c)

/-- Rows, columns and diagonals. -/
def lines : List Marks :=
  [triple 0 1 2, triple 3 4 5, triple 6 7 8, triple 0 3 6, triple 1 4 7, triple 2 5 8,
    triple 0 4 8, triple 2 4 6]

/-- Whether three marks are in a row. -/
def hasLine (m : Marks) : Bool := lines.any fun line => line &&& m = line

def count (m : Marks) : Nat := (List.range 16).countP m.getLsbD

/-- A row or a column as a term. -/
def coordinate? (t : Term) : Except Fault Int :=
  match Decimal.readWhole? 32 t.text with
  | some n => .ok n
  | none => .error .notANumber

/-- Adds the mark that a fact tells of. -/
def addMark? (b : Board) (fact : Term) : Except Fault Board := do
  match ← fact.arguments? with
  | [row, column, role] =>
    let m := mark (← coordinate? row) (← coordinate? column)
    return if role = x then { b with x := b.x ||| m } else { b with o := b.o ||| m }
  | _ => throw (.malformedFact fact.text)

def board? (s : State) : Except Fault Board := (s.named "cell").foldlM addMark? {}

/-- Whether the play is over: three in a row, or nine marks. -/
def Board.isOver (b : Board) : Bool := hasLine b.x || hasLine b.o || count b.full == 9

def cells : List (Nat × Nat) := [1, 2, 3].flatMap fun row => [1, 2, 3].map fun column => (row, column)

/-- The move that marks a cell. -/
def moveAt (row column : Int) : Move := .compound "cell" (.ofInt row) [.ofInt column]

/-- The moves that mark a blank cell. -/
def moves (b : Board) : List Move :=
  (cells.filter fun (row, column) => b.full &&& mark row column = 0).map fun (row, column) =>
    moveAt row column

/-- The goals of both roles at the end of a play. -/
def Board.goals (b : Board) : Int × Int :=
  if hasLine b.x then (100, 0) else if hasLine b.o then (0, 100) else (50, 50)

/-- A table of what is the case for `x` and for `o`. -/
def both {α : Type} (atX atO : α) : ByRole α := (∅ : ByRole α).insert x atX |>.insert o atO

/-- The state after the first move of a turn. -/
def play (s : State) (turn : Turn) : Except Fault State := do
  let some p := turn.plays.head? | throw .outOfRange
  match ← p.move.arguments? with
  | row :: column :: _ =>
    let row ← coordinate? row
    let column ← coordinate? column
    let fact := Term.compound "cell" (.ofInt row) [.ofInt column, p.role]
    let other := if p.role = x then o else x
    return .ofList (s.withoutNamed "control" ++ [fact, controlOf other])
  | _ => throw .outOfRange

def game : Game where
  roles := [o, x]
  start := .ofList [controlOf x]
  sees s := .ok (both s s)
  legal s := do
    let b ← board? s
    if b.isOver then return ∅
    let control ← s.control?
    return .ofList (control.toList.map (·, moves b))
  goals s := do
    let b ← board? s
    if !b.isOver then return both none none
    return both (some b.goals.1) (some b.goals.2)
  isTerminal s := return (← board? s).isOver
  play := play

end GameSearch.Tictactoe
