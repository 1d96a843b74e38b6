import GameSearch.Game.Basic

/-!
# Developments

A development is a concrete play from the first to the last ply that some evidence mentions, in
agreement with all of it.  `Game.foldDevelopments` visits the developments one after the other, the
start states in increasing order and then the turns, until the visitor has seen enough.
-/

namespace GameSearch

/-- One ply of a development: the state, and the turn taken in it unless it is the last ply. -/
structure Step where
  state : State
  turn : Option Turn
deriving DecidableEq

/-- A concrete play, one step per ply. -/
abbrev Development := List Step

namespace Game

variable (game : Game)

/-- Whether a state agrees with what is known about its ply: it is one of the possible states, and
every role with a known view has that view. -/
def agrees? (e : Evidence) (ply : Int) (s : State) : Except Fault Bool := do
  if (e.states[ply]?).any fun states => !states.contains s then return false
  match e.views[ply]? with
  | none => return true
  | some views =>
    let sees ← game.sees s
    return views.toList.all fun (role, view) => sees.getD role ∅ = view

/-- Visits the members of a list until the visitor has seen enough. -/
def visitAll {α β : Type} (visit : α → β → Except Fault (ForInStep β)) :
    List α → β → Except Fault (ForInStep β)
  | [], b => .ok (.yield b)
  | a :: rest, b =>
    match visit a b with
    | .error e => .error e
    | .ok (.done b) => .ok (.done b)
    | .ok (.yield b) => visitAll visit rest b

variable {β : Type} (e : Evidence) (visit : Development → β → ForInStep β)

/-- Visits the developments that go on from a state, `count` plies before the last one; `earlier`
holds the steps so far, the latest first. -/
def visitFrom (count : Nat) (ply : Int) (s : State) (earlier : List Step) (b : β) :
    Except Fault (ForInStep β) := do
  if !(← game.agrees? e ply s) then return .yield b
  match count with
  | 0 => return visit (⟨s, none⟩ :: earlier).reverse b
  | count + 1 =>
    let known := e.turns.getD ply ∅
    visitAll (fun (turn, next) b => visitFrom count (ply + 1) next (⟨s, some turn⟩ :: earlier) b)
      ((← game.successors? s).filter fun (turn, _) => turn.includes known) b

/-- Where the developments of some evidence start: in the possible states of its first ply, or in
the initial state if that ply is 0 and nothing else is known of it. -/
def origins? : Except Fault (List State) :=
  match e.states[e.offset]? with
  | some states => .ok states.toList
  | none =>
    if e.offset = 0 then .ok [game.start]
    else .error (.unknownStart e.offset)

/-- Visits the developments that agree with some evidence. -/
def foldDevelopments (b : β) : Except Fault β := do
  let count := (e.horizon - e.offset).toNat
  return (← visitAll (fun s b => game.visitFrom e visit count e.offset s [] b)
    (← game.origins? e) b).value

/-- All developments that agree with some evidence. -/
def developments? : Except Fault (List Development) := do
  let found ← game.foldDevelopments e (fun d (ds : List Development) => .yield (d :: ds)) []
  return found.reverse

end Game

end GameSearch
