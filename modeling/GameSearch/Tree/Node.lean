import Std.Data.HashMap
import Std.Data.HashSet
import GameSearch.Evidence
import GameSearch.Game.Basic
import GameSearch.Search.Valuation

/-!
# Nodes of search trees

A node describes one ply of a play from the point of view of its owner, a role.  There are two
kinds of nodes: at a node of perfect information the owner knows the state, at a belief it knows a
set of worlds, that is the states that agree with all it has observed.  An edge leads from a node to
a child for each transition out of a world.  Edges out of a belief that the owner cannot tell apart
share a child, which is found by what the owner observes of the transition.
-/

namespace GameSearch

/-- The number of a node in its arena. -/
abbrev NodeId := Nat

/-- What an edge is chosen by: the joint turn at a node of perfect information; at a belief the
world it leads out of, together with the owner's own move if the owner is in control, else with the
joint turn. -/
structure Edge.Key where
  world : Option State
  turn : Turn
deriving DecidableEq

def Edge.Key.text (key : Edge.Key) : String :=
  match key.world with
  | none => key.turn.text
  | some world => s!"({world}, {key.turn})"

/-- One transition out of a node. -/
structure Edge where
  key : Edge.Key
  turn : Turn
  next : State
  child : NodeId

/-- What the owner of a node observes of a transition. -/
structure Observation where
  /-- Its own move, if it makes one. -/
  move : Option Move
  /-- Whether it is in control afterwards. -/
  inControl : Bool
  /-- What it sees afterwards. -/
  view : View
deriving DecidableEq, Hashable

/-- Whether the owner of a belief is in control. -/
inductive Standing where
  /-- The owner is in control, and has the given view as far as that is known. -/
  | visible (view : Option View)
  /-- The owner is not in control. -/
  | hidden
deriving DecidableEq

/-- What the owner of a node believes about the state. -/
structure Belief where
  /-- The states that are possible. -/
  worlds : StateSet
  /-- The worlds whose transitions are among the edges. -/
  expanded : StateSet := ∅
  /-- The children by what the owner observes of the transitions to them. -/
  buckets : Std.HashMap Observation NodeId := ∅
  /-- The owner's views and own moves so far, as far as they are known. -/
  history : Evidence := ∅
  /-- Whether the worlds are all possible states, rather than a sample of them. -/
  isComplete : Bool
  standing : Standing
  nonempty : worlds.isEmpty = false

/-- What the owner of a node knows about the state. -/
inductive Knowledge where
  /-- The state itself, and the joint turn that led to it if the node is not a root. -/
  | perfect (state : State) (turn : Option Turn)
  | belief (belief : Belief)

/-- A node of a search tree. -/
structure Node (R : Type) where
  /-- The number of the node that this one was made for as a child; there may be no such node. -/
  parent : Option Int
  /-- The ply that the node describes. -/
  depth : Nat
  /-- The owner. -/
  role : Role
  knowledge : Knowledge
  /-- The edges; there are none yet if the node has never been expanded. -/
  edges : Option (Array Edge) := none
  valuation : Option (Valuation R) := none
  /-- The move that the owner is committed to. -/
  move : Option Move := none

namespace Belief

/-- A world of a belief. -/
def firstWorld (b : Belief) : State :=
  b.worlds.min (by
    intro h
    have := b.nonempty
    simp [h] at this)

/-- Whether the transitions of all worlds are among the edges. -/
def isExpanded (b : Belief) : Bool := b.expanded.size = b.worlds.size

/-- Whether the owner is in control. -/
def isVisible (b : Belief) : Bool :=
  match b.standing with
  | .visible _ => true
  | .hidden => false

/-- The view of the owner, if it is known and the owner is in control. -/
def view? (b : Belief) : Option View :=
  match b.standing with
  | .visible view => view
  | .hidden => none

def addWorld (b : Belief) (s : State) : Belief :=
  { b with worlds := b.worlds.insert s, nonempty := by simp }

/-- The belief that only some of the worlds are possible. -/
def narrow (b : Belief) (worlds : StateSet) (nonempty : worlds.isEmpty = false) : Belief :=
  { b with
    worlds := worlds
    expanded := b.expanded.filter worlds.contains
    nonempty := nonempty }

/-- The belief of an owner that has the given view. -/
def observe (b : Belief) (view : View) : Belief :=
  match b.standing with
  | .visible _ => { b with standing := .visible (some view) }
  | .hidden => b

end Belief

inductive Node.Kind where
  | perfect
  | visible
  | hidden
deriving DecidableEq

namespace Node

variable {R : Type}

/-- Takes a ply as the depth of a node. -/
def depth? (depth : Int) : Except Fault Nat :=
  if depth < 0 then .error (.negativeDepth depth) else .ok depth.toNat

/-- A node whose owner knows the state. -/
def perfect? (parent : Option Int) (depth : Int) (role : Role) (state : State)
    (turn : Option Turn) : Except Fault (Node R) := do
  let depth ← depth? depth
  return { parent := parent, depth := depth, role := role, knowledge := .perfect state turn }

/-- A node whose owner knows a set of worlds, of which there must be some. -/
def belief? (parent : Option Int) (depth : Int) (role : Role) (worlds : StateSet)
    (isComplete : Bool) (standing : Standing) : Except Fault (Node R) := do
  let depth ← depth? depth
  if h : worlds.isEmpty = false then
    return {
      parent := parent
      depth := depth
      role := role
      knowledge := .belief {
        worlds := worlds
        isComplete := isComplete
        standing := standing
        nonempty := h } }
  else throw .noWorlds

/-- How the owner stands that is in control or not, and has a view. -/
def standingOf (inControl : Bool) (view : View) : Standing :=
  if inControl then .visible (some view) else .hidden

def kind (n : Node R) : Kind :=
  match n.knowledge with
  | .perfect _ _ => .perfect
  | .belief b => if b.isVisible then .visible else .hidden

/-- The worlds of a node in increasing order. -/
def worlds (n : Node R) : List State :=
  match n.knowledge with
  | .perfect s _ => [s]
  | .belief b => b.worlds.toList

def firstWorld (n : Node R) : State :=
  match n.knowledge with
  | .perfect s _ => s
  | .belief b => b.firstWorld

/-- Whether a state is one of the worlds. -/
def hasWorld (n : Node R) (s : State) : Bool :=
  match n.knowledge with
  | .perfect t _ => s = t
  | .belief b => b.worlds.contains s

/-- Whether there is one world only. -/
def isCertain (n : Node R) : Bool :=
  match n.knowledge with
  | .perfect _ _ => true
  | .belief b => b.worlds.size = 1

/-- Whether every transition out of every world is among the edges. -/
def isExpanded (n : Node R) : Bool :=
  n.edges.isSome &&
    match n.knowledge with
    | .perfect _ _ => true
    | .belief b => b.isExpanded

/-- Whether the node is expanded and has no edge. -/
def isTerminal (n : Node R) : Bool := n.isExpanded && n.edges.any Array.isEmpty

/-- The distinct children in the order of the edges. -/
def children (n : Node R) : List NodeId :=
  ((n.edges.getD #[]).toList.map Edge.child).eraseDups

/-- The roles in control of a world, of any world if none is given. -/
def control? (n : Node R) (world : Option State) : Except Fault (SortedSet Role) :=
  (world.getD n.firstWorld).control?

/-- Whether the owner is in control of a world. -/
def isInControl? (n : Node R) (world : Option State) : Except Fault Bool := do
  let control ← n.control? world
  return decide (n.role ∈ control)

/-- Whether chance alone is in control of a world. -/
def isChance? (n : Node R) (world : Option State) : Except Fault Bool := do
  return (← n.control? world).toList = [chance]

/-- Whether an edge agrees with the move that the owner is committed to. -/
def isCommitted (n : Node R) (e : Edge) : Bool :=
  match n.move with
  | none => true
  | some move =>
    match n.kind with
    | .perfect => e.turn.contains n.role move
    | .visible => e.key.turn.contains n.role move
    | .hidden => true

/-- Every transition out of every world, world by world. -/
def successors? (n : Node R) (game : Game) : Except Fault (List (Turn × State)) := do
  return (← n.worlds.mapM game.successors?).flatten

/-- Whether every world shows the owner the view that the node says it has. -/
def isViewConsistent? (n : Node R) (game : Game) : Except Fault Bool :=
  match n.knowledge with
  | .perfect _ _ => .ok true
  | .belief b =>
    match b.view? with
    | none => .ok true
    | some view => b.worlds.toList.allM fun s => return (← game.view? s n.role) = view

variable [Scalar R]

/-- The text of a valuation that may be missing. -/
def valuationText (valuation : Option (Valuation R)) : String :=
  (valuation.map Valuation.text).getD "-"

/-- The text of the node with the given number. -/
def text (n : Node R) (id : NodeId) : String :=
  let valuation := valuationText n.valuation
  let common := s!"node {id} depth={n.depth} role={n.role} valuation={valuation}"
  match n.knowledge with
  | .perfect _ _ => common
  | .belief b =>
    match b.standing with
    | .hidden => common
    | .visible view =>
      let view := (view.map State.text).getD "-"
      s!"{common} view={view}"

end Node

end GameSearch
