import GameSearch.Agent.Mcts

/-!
# Search from one point of view

The agent keeps one tree of beliefs of its own role.  A simulation draws one world of the root and
follows it down the tree; the other roles are thought to favour what the statistics of the tree
favour.  Where the world leaves the tree, that world alone is expanded, so that a simulation does not
take longer when more worlds are possible.
-/

namespace GameSearch

/-- The memory of an agent that searches from its own point of view. -/
structure SingleObserver where
  tree : RootMemory := {}

namespace SingleObserver

variable {R ε : Type}

def root : Deliberation SingleObserver R ε NodeId := do (← TreeAgent.memorized).tree.root?

/-- Makes a node the root of the tree, which alone is kept. -/
def reroot (id : NodeId) : Deliberation SingleObserver R ε Unit := do
  TreeAgent.remember fun _ => ⟨⟨some id⟩⟩
  TreeAgent.onArena (Arena.reroot id)

/-- Follows a world from a node, by the selector and then by the draw of one of the edges with the
selected key, to the node at which the world has no edge yet; `fuel` bounds the height of the
tree. -/
def descend [Scalar R] [Dice ε] (selector : Selector R ε) :
    (fuel : Nat) → NodeId → (world : State) → Action (Hosted (Arena R) ε) (NodeId × State)
  | 0, _, _ => throw .outOfSteps
  | fuel + 1, id, world => do
    let a ← Hosted.onOwn get
    let b ← a.belief? id
    if !b.expanded.contains world then return (id, world)
    let edges ← a.edges? id
    if !(edges.any fun e => e.key.world = some world) then return (id, world)
    let key ← Hosted.onHost (a.select selector id (some world))
    let e ← Hosted.onHost (Dice.choose (edges.filter (·.key = key)).toList)
    descend selector fuel e.child e.next

/-- A simulation: a world of the root is followed down to a leaf, where it is expanded and
evaluated. -/
def simulate [Scalar R] [Dice ε] (game : Game) (selector : Selector R ε)
    (evaluator : Evaluator R ε) (root : NodeId) : Action (Hosted (Arena R) ε) Unit := do
  let world ← Hosted.onHost (Arena.drawWorld (← Hosted.onOwn (Arena.node root)))
  let (leaf, world) ← descend selector (← Hosted.onOwn Arena.heightBound) root world
  Hosted.onOwn (Arena.expandWorld game leaf world)
  let utility ← Arena.evaluate game evaluator leaf (some world)
  Hosted.onOwn (Arena.backpropagate leaf utility)

/-- A belief of a role in the initial state. -/
def firstBelief? (game : Game) (role : Role) : Except Fault (Node R) := do
  let view ← game.view? game.start role
  Node.belief? none 0 role {game.start} true
    (Node.standingOf (game.start.isInControl role) view)

def plant (game : Game) (role : Role) : Deliberation SingleObserver R ε Unit := do
  let n ← (firstBelief? game role : Except Fault (Node R))
  let root ← TreeAgent.onArena (Arena.add (pure n))
  TreeAgent.remember fun _ => ⟨⟨some root⟩⟩

/-- Commits the root to a move and goes on to its child if there is only one left. -/
def commit (move : Move) : Deliberation SingleObserver R ε Unit := do
  let root ← root
  TreeAgent.onArena (Arena.commit root move)
  TreeAgent.onArena (Arena.trim root)
  let next ← (← TreeAgent.onArena get).soleChild? root
  reroot next

end SingleObserver

instance {R ε : Type} [Scalar R] [Host ε] : SearchMethod SingleObserver R ε where
  name := "sois-mcts"
  fresh := {}
  plant := do
    let (game, role) ← TreeAgent.gameAndRole "sois-mcts"
    SingleObserver.plant game role
  develop ply view := do
    let root ← SingleObserver.root
    let _ ← TreeAgent.onArena (Arena.node root)
    let game ← (← Hosted.read).seat.game? "sois-mcts"
    SingleObserver.reroot (← TreeAgent.onTrees (Arena.develop game root ply view))
  step := do
    let game ← (← Hosted.read).seat.game? "sois-mcts"
    let selector ← TreeAgent.theSelector
    let evaluator ← TreeAgent.theEvaluator
    let root ← SingleObserver.root
    TreeAgent.onTrees (SingleObserver.simulate game selector evaluator root)
  decisionNode := SingleObserver.root
  commit := SingleObserver.commit

end GameSearch
