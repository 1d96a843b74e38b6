import GameSearch.Game.Basic

/-!
# Minipoker

A bluffing game with one card.  Chance deals a red or a black card to the bluffer.  With a red card
the bluffer may resign (-10) or hold, with a black one it must hold.  The caller, who has not seen
the card, then resigns (the bluffer gets 4) or calls: a call costs the bluffer 20 on red and brings
it 16 on black.  The goals of bluffer and caller add up to nothing.  The caller sees the colour
only once it has called.
-/

namespace GameSearch.Minipoker

def bluffer : Role := .symbol "bluffer"

def caller : Role := .symbol "caller"

def red : Term := .symbol "red"

def black : Term := .symbol "black"

/-- The move of chance that deals a card. -/
def deal (colour : Term) : Move := .compound "deal" colour []

def hold : Move := .symbol "hold"

def call : Move := .symbol "call"

def resign : Move := .symbol "resign"

/-- The fact that a card has been dealt, which all see. -/
def dealt : Term := .symbol "dealt"

/-- The fact that a card of the given colour has been dealt. -/
def dealtCard (colour : Term) : Term := .compound "dealt" colour []

def held : Term := .compound "held" bluffer []

def called : Term := .compound "called" caller []

def resigned (role : Role) : Term := .compound "resigned" role []

def isOver (s : State) : Bool :=
  s.contains (resigned bluffer) || s.contains (resigned caller) || s.contains called

def callerView (s : State) : View :=
  if s.contains called then s
  else .ofList (s.toList.filter fun fact => fact ≠ dealtCard red && fact ≠ dealtCard black)

def legal (s : State) : ByRole (List Move) :=
  if s.contains (controlOf chance) then .ofList [(chance, [deal black, deal red])]
  else if s.contains (controlOf bluffer) then
    .ofList [(bluffer, if s.contains (dealtCard red) then [hold, resign] else [hold])]
  else if s.contains (controlOf caller) then .ofList [(caller, [call, resign])]
  else ∅

/-- What the bluffer gets, if the play is over. -/
def blufferGoal (s : State) : Option Int :=
  if s.contains (resigned bluffer) then some (-10)
  else if s.contains (resigned caller) then some 4
  else if s.contains called then some (if s.contains (dealtCard red) then -20 else 16)
  else none

/-- The state after the first move of a turn. -/
def play (s : State) (turn : Turn) : Except Fault State := do
  let some p := turn.plays.head? | throw .outOfRange
  let facts := s.withoutNamed "control"
  if p.role = chance then
    match ← p.move.arguments? with
    | colour :: _ => return .ofList (facts ++ [dealt, dealtCard colour, controlOf bluffer])
    | [] => throw .outOfRange
  else if p.role = bluffer then
    if p.move = hold then return .ofList (facts ++ [held, controlOf caller])
    else return .ofList (facts ++ [resigned bluffer])
  else if p.role = caller then
    return .ofList (facts ++ [if p.move = call then called else resigned caller])
  else throw (.unexpectedRole p.role.text)

def game : Game where
  roles := [bluffer, caller, chance]
  start := .ofList [controlOf chance]
  sees s := .ok (.ofList [(bluffer, s), (caller, callerView s), (chance, s)])
  legal s := .ok (legal s)
  goals s :=
    let goal := blufferGoal s
    .ok (.ofList [(bluffer, goal), (caller, goal.map (-·)), (chance, none)])
  isTerminal s := .ok (isOver s)
  play := play

end GameSearch.Minipoker
