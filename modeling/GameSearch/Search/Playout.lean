import Std.Data.ExtTreeMap
import GameSearch.Search.Evaluator

/-!
# Playouts

A playout plays uniformly random moves until the play is over or long enough.  Where a book holds
the exact value of a state for a role, a playout made for that role alone can stop at that state.
-/

namespace GameSearch

/-- Exact utilities of states for one role. -/
abbrev Book (R : Type) := Std.ExtTreeMap State R

/-- Where a playout ended. -/
structure Playout (R : Type) where
  state : State
  depth : Nat
  /-- The value of the state according to the book, if the playout ended because of that. -/
  bookValue : Option R

/-- A turn of one uniformly chosen legal move for each role in control. -/
def Game.randomTurn {ε : Type} [Dice ε] (game : Game) (s : State) : Action ε Turn := do
  let legal ← game.legal s
  let plays ← (← s.control?).toList.mapM fun role =>
    match legal.getD role [] with
    | [] => throw (.noLegalMove role.text)
    | moves => return ⟨role, ← Dice.choose moves⟩
  return Turn.ofList plays

/-- Evaluation by playouts. -/
structure PlayoutEvaluator (R ε : Type) where
  /-- After how many plies a playout stops. -/
  maxDepth : Nat
  /-- What terminal states are worth. -/
  final : Evaluator R ε
  /-- A book, and the role whose utilities it holds. -/
  book : Option (Book R × Role) := none

namespace PlayoutEvaluator

variable {R ε : Type} [Scalar R]

/-- After how many plies a playout stops, unless told otherwise. -/
def defaultMaxDepth : Int := 1000

/-- Evaluation by playouts of limited length. -/
def ofMaxDepth? (maxDepth : Int) (final : Evaluator R ε) : Except Fault (PlayoutEvaluator R ε) :=
  if maxDepth < 0 then .error .negativeMaxDepth
  else .ok { maxDepth := maxDepth.toNat, final := final }

/-- The evaluation with a book for a role. -/
def withBook (e : PlayoutEvaluator R ε) (book : Book R) (role : Role) : PlayoutEvaluator R ε :=
  { e with book := some (book, role) }

/-- Plays at most `left` more plies, and no further than a state of the book. -/
def playFrom [Dice ε] (game : Game) (book : Book R) :
    (left : Nat) → (s : State) → (depth : Nat) → Action ε (Playout R)
  | left, s, depth => do
    if let some value := book[s]? then return ⟨s, depth, some value⟩
    match left with
    | 0 => return ⟨s, depth, none⟩
    | left + 1 =>
      if ← game.isTerminal s then return ⟨s, depth, none⟩
      let turn ← game.randomTurn s
      playFrom game book left (← game.next? s turn) (depth + 1)

/-- A playout from a state, with or without a look into the book. -/
def play [Dice ε] (e : PlayoutEvaluator R ε) (game : Game) (s : State) (useBook : Bool) :
    Action ε (Playout R) :=
  let book : Book R := if useBook then (e.book.map Prod.fst).getD ∅ else ∅
  playFrom game book e.maxDepth s 0

/-- What the end of a playout is worth for a role; a playout that was cut off is worth half. -/
def worth (e : PlayoutEvaluator R ε) (game : Game) (p : Playout R) (role : Role) :
    Action ε R := do
  if let some value := p.bookValue then return value
  if ← game.isTerminal p.state then e.final.evaluate game p.state role
  else return Scalar.half

/-- Whether the book is about the given roles. -/
def knows (e : PlayoutEvaluator R ε) (roles : List Role) : Bool :=
  e.book.any fun (_, role) => roles = [role]

/-- A playout made for some roles, and what it is worth for each of them. -/
def sample [Dice ε] (e : PlayoutEvaluator R ε) (game : Game) (s : State) (roles : List Role) :
    Action ε (Playout R × ByRole R) := do
  let p ← e.play game s (e.knows roles)
  return (p, ← Evaluator.forEachRole roles (e.worth game p))

/-- A playout made for one role, and what it is worth. -/
def sampleOne [Dice ε] (e : PlayoutEvaluator R ε) (game : Game) (s : State) (role : Role) :
    Action ε (Playout R × R) := do
  let p ← e.play game s (e.knows [role])
  return (p, ← e.worth game p role)

def toEvaluator [Dice ε] (e : PlayoutEvaluator R ε) : Evaluator R ε where
  evaluate game s role := return (← e.sampleOne game s role).2
  evaluateAll game s roles := return (← e.sample game s roles).2

end PlayoutEvaluator

end GameSearch
