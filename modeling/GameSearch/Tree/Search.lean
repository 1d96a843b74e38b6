import GameSearch.Hosted
import GameSearch.Search.Evaluator
import GameSearch.Tree.Belief
import GameSearch.Tree.Perfect

/-!
# Growing and evaluating nodes

What a search does with a node of either kind: it expands the node, draws one of its worlds and
evaluates it.
-/

namespace GameSearch.Arena

variable {R : Type}

/-- Adds all edges of a node. -/
def expand (game : Game) (id : NodeId) : Action (Arena R) Unit := do
  match (← node id).knowledge with
  | .perfect _ _ => expandPerfect game id
  | .belief _ => expandBelief game id

/-- Expands a node and its children. -/
def fill (game : Game) (id : NodeId) : Action (Arena R) Unit := do
  expand game id
  for e in ← (← get).edges? id do
    expand game e.child

/-- Drops the edges that do not agree with what is known at a node. -/
def trim (id : NodeId) : Action (Arena R) Unit := do
  match (← node id).knowledge with
  | .perfect _ _ => trimPerfect id
  | .belief _ => trimBelief id

/-- Commits the owner of a node to a move. -/
def commit (id : NodeId) (move : Move) : Action (Arena R) Unit := do
  let _ ← node id
  change id fun n => { n with move := some move }

/-- Takes one more utility into the valuation of a node. -/
def propagate [Scalar R] (id : NodeId) (utility : R) : Action (Arena R) Unit := do
  match (← node id).valuation with
  | some v => change id fun n => { n with valuation := some (v.add utility) }
  | none =>
    let v ← (Valuation.ofUtility? utility : Except Fault (Valuation R))
    change id fun n => { n with valuation := some v }

/-- A uniformly chosen world of a node; the only world of a node of perfect information takes no
draw. -/
def drawWorld {ε : Type} [Dice ε] (n : Node R) : Action ε State :=
  match n.knowledge with
  | .perfect s _ => return s
  | .belief b => Dice.choose b.worlds.toList

/-- Estimates the utility of a world of a node for its owner, and takes it into the valuation; the
world is drawn unless it is given. -/
def evaluate {ε : Type} [Dice ε] [Scalar R] (game : Game) (evaluator : Evaluator R ε)
    (id : NodeId) (world : Option State) : Action (Hosted (Arena R) ε) R := do
  let n ← Hosted.onOwn (node id)
  let world ← match world with
    | none => Hosted.onHost (drawWorld n)
    | some w => if n.hasWorld w then pure w else throw (.notAWorld w.text id)
  let utility ← Hosted.onHost (evaluator.evaluate game world n.role)
  Hosted.onOwn (propagate id utility)
  return utility

/-- Takes a utility into the valuations of a node and of all above it; `fuel` bounds their
number. -/
def propagateUp [Scalar R] (utility : R) : (fuel : Nat) → Option Int → Action (Arena R) Unit
  | _, none => return
  | 0, some _ => throw .outOfSteps
  | fuel + 1, some number => do
    let id ← (← get).resolve? number
    propagate id utility
    propagateUp utility fuel (← node id).parent

/-- Takes a utility into the valuations of all nodes above a node. -/
def backpropagate [Scalar R] (id : NodeId) (utility : R) : Action (Arena R) Unit := do
  propagateUp utility (← heightBound) (← node id).parent

/-- The only distinct child of a node, or the node itself if it has several, none, or perhaps more
than are known. -/
def soleChild? (a : Arena R) (id : NodeId) : Except Fault NodeId := do
  let n ← a.node? id
  match n.isExpanded, n.children with
  | true, [child] => return child
  | _, _ => return id

end GameSearch.Arena
