import GameSearch.Game.Development
import GameSearch.Tree.Arena

/-!
# Trees of perfect information

The owner of a node of perfect information knows the state.  Its edges are the transitions out of
that state; a move that the owner is committed to leaves the edges by that move.
-/

namespace GameSearch.Arena

variable {R : Type}

/-- Drops the edges that do not agree with the committed move. -/
def trimPerfect (id : NodeId) : Action (Arena R) Unit :=
  change id fun n =>
    match n with
    | ⟨parent, depth, role, knowledge, some edges, valuation, some move⟩ =>
      ⟨parent, depth, role, knowledge, some (edges.filter fun e => e.turn.contains role move),
        valuation, some move⟩
    | n => n

/-- Adds a child for a transition, and gives the edge to it. -/
def addPerfectChild (parent depth : Nat) (role : Role) (turn : Turn) (next : State) :
    Action (Arena R) Edge := do
  let child ← add (Node.perfect? (some (Int.ofNat parent)) (depth + 1) role next (some turn))
  return { key := ⟨none, turn⟩, turn := turn, next := next, child := child }

/-- Adds the edges of a node that has none yet. -/
def expandPerfect (game : Game) (id : NodeId) : Action (Arena R) Unit := do
  let s ← (← get).state? id
  let n ← node id
  if n.isExpanded then return
  let next ← game.successors? s
  let edges ← next.mapM fun (turn, t) => addPerfectChild id n.depth n.role turn t
  change id fun n => { n with edges := some edges.toArray }
  trimPerfect id

def firstDevelopment? (game : Game) (e : Evidence) : Except Fault (Option Development) :=
  game.foldDevelopments e (fun d _ => .done (some d)) none

/-- The edge of a node for a joint turn. -/
def edgeFor? (a : Arena R) (id : NodeId) (turn : Turn) : Option Edge :=
  ((a.find? id).bind Node.edges).bind fun edges =>
    (turnIndex? edges none turn).bind fun i => edges[i]?

/-- Follows a development from a node along edges as long as there are any, and then through new
nodes without a parent: the node for its last step. -/
def followPerfect (role : Role) :
    (current : NodeId) → (inTree : Bool) → (depth : Nat) → Development → Action (Arena R) NodeId
  | current, inTree, depth, ⟨_, some turn⟩ :: step :: rest => do
    let a ← get
    match if inTree then a.edgeFor? current turn else none with
    | some e => followPerfect role e.child true (depth + 1) (step :: rest)
    | none =>
      let next ← add (Node.perfect? none (depth + 1) role step.state (some turn))
      followPerfect role next false (depth + 1) (step :: rest)
  | current, _, _, _ => return current

/-- The node for a later ply at which the owner has the given view. -/
def developPerfect (game : Game) (id : NodeId) (ply : Int) (view : View) :
    Action (Arena R) NodeId := do
  let s ← (← get).state? id
  let n ← node id
  if ply < n.depth then throw (.developedBack n.depth ply)
  if ply = n.depth then
    if (← game.view? s n.role) ≠ view then
      throw (.viewContradictsState view.text s.text ply)
    trimPerfect id
    return id
  let e := ((∅ : Evidence).withStates n.depth {s}).withView ply n.role view
  let e := match n.move with
    | some move => e.withTurn n.depth (.single n.role move)
    | none => e
  match ← firstDevelopment? game e with
  | none => throw (.noDevelopmentFromPly n.depth view.text ply)
  | some d => followPerfect n.role id true n.depth d

end GameSearch.Arena
