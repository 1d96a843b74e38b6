import GameSearch.Agent.Tree
import GameSearch.Search.Solver

/-!
# Search with perfect information

The agent keeps one tree of nodes of perfect information, which suits games in which every role sees
the whole state.  On demand it spends the start clock on a book of exact values, at which its
playouts then stop.
-/

namespace GameSearch

/-- What is kept of a single tree: its root, if there is one. -/
structure RootMemory where
  root : Option NodeId := none

/-- The root of a tree that must have been planted. -/
def RootMemory.root? (memory : RootMemory) : Except Fault NodeId :=
  match memory.root with
  | some id => .ok id
  | none => .error (.noNode (-1))

/-- The memory of an agent that searches with perfect information. -/
structure Mcts where
  tree : RootMemory := {}

namespace Mcts

variable {R ε : Type}

def root : Deliberation Mcts R ε NodeId := do (← TreeAgent.memorized).tree.root?

/-- Makes a node the root of the tree, which alone is kept. -/
def reroot (id : NodeId) : Deliberation Mcts R ε Unit := do
  TreeAgent.remember fun _ => ⟨⟨some id⟩⟩
  TreeAgent.onArena (Arena.reroot id)

/-- Follows the selector from a node to one that is not expanded or terminal; `fuel` bounds the
height of the tree. -/
def descend (selector : Selector R ε) [Scalar R] :
    (fuel : Nat) → NodeId → Action (Hosted (Arena R) ε) NodeId
  | 0, _ => throw .outOfSteps
  | fuel + 1, id => do
    let a ← Hosted.onOwn get
    let n ← a.node? id
    if !n.isExpanded || n.isTerminal then return id
    let key ← Hosted.onHost (a.select selector id none)
    match (n.edges.getD #[]).find? (·.key = key) with
    | some e => descend selector fuel e.child
    | none => throw (.noChild id)

/-- A simulation in a tree: from the root down to a leaf, which is expanded and evaluated. -/
def simulate [Scalar R] [Dice ε] (game : Game) (selector : Selector R ε)
    (evaluator : Evaluator R ε) (root : NodeId) : Action (Hosted (Arena R) ε) Unit := do
  let leaf ← descend selector (← Hosted.onOwn Arena.heightBound) root
  Hosted.onOwn (Arena.expand game leaf)
  let utility ← Arena.evaluate game evaluator leaf none
  Hosted.onOwn (Arena.backpropagate leaf utility)

variable [Scalar R] [Host ε]

/-- Works on a book until it is complete or the time is up: the number of steps done; `limit`
bounds it. -/
def solve (p : Solver.Problem R ε) (deadline : Int) :
    (limit done : Nat) → Action (Hosted (Solver R) ε) Nat
  | 0, _ => throw .outOfSteps
  | limit + 1, done => do
    if (← Hosted.read).isDone then return done
    if deadline ≤ (← Hosted.onHost Host.readClock) then return done
    p.step
    solve p deadline limit (done + 1)

/-- The problem of finding the values of a game for a role. -/
def bookProblem (game : Game) (role : Role) : Except Fault (Solver.Problem R ε) :=
  Solver.Problem.of? (some game) role Evaluator.final ⟨Scalar.zero, Scalar.one⟩ [] none
    Solver.defaultMaxPlies

/-- Spends the start clock on a book. -/
def makeBook (game : Game) (role : Role) (settings : SearchSettings)
    (startClock : Clock.Settings Binary64) : Action ε (Book R) := fun host =>
  let action : Action (Hosted (Solver R) ε) (Book R) := do
    let began ← Hosted.onHost Host.readClock
    let p ← bookProblem game role
    let steps ← solve p (began + settings.bookTime startClock) TreeAgent.maxSteps 0
    let solver ← Hosted.read
    let book := solver.book
    let elapsed := (← Hosted.onHost Host.readClock) - began
    Hosted.onHost (Host.report (.builtBook "mcts" book.size steps elapsed solver.isDone))
    return book
  match action ⟨{}, host⟩ with
  | .ok book ⟨_, host⟩ => .ok book host
  | .error e ⟨_, host⟩ => .error e host

/-- Plants the tree, and makes a book if that is wanted. -/
def plant (game : Game) (role : Role) : Deliberation Mcts R ε Unit := do
  let root ← TreeAgent.onArena (Arena.add (Node.perfect? none 0 role game.start none))
  TreeAgent.remember fun _ => ⟨⟨some root⟩⟩
  let settings := (← Hosted.read).settings
  if settings.buildsBook then
    let startClock := (← Hosted.read).seat.startClock
    let book : Book R ← Hosted.onHost (makeBook game role settings startClock)
    let playouts : PlayoutEvaluator R ε ←
      PlayoutEvaluator.ofMaxDepth? settings.maxPlayoutDepth Evaluator.final
    -- the end of the match leaves it in place
    Hosted.change fun agent =>
      { agent with evaluator := (playouts.withBook book role).toEvaluator }

/-- Commits the root to a move and goes on to its child if there is only one left. -/
def commit (move : Move) : Deliberation Mcts R ε Unit := do
  let root ← root
  TreeAgent.onArena (Arena.commit root move)
  TreeAgent.onArena (Arena.trim root)
  let next ← (← TreeAgent.onArena get).soleChild? root
  reroot next

end Mcts

/-- The game and the role of an agent. -/
def TreeAgent.gameAndRole {μ R ε : Type} (name : String) : Deliberation μ R ε (Game × Role) := do
  let seat := (← Hosted.read).seat
  return (← seat.game? name, ← seat.role? name)

instance {R ε : Type} [Scalar R] [Host ε] : SearchMethod Mcts R ε where
  name := "mcts"
  fresh := {}
  plant := do
    let (game, role) ← TreeAgent.gameAndRole "mcts"
    Mcts.plant game role
  develop ply view := do
    let root ← Mcts.root
    let _ ← TreeAgent.onArena (Arena.node root)
    let game ← (← Hosted.read).seat.game? "mcts"
    Mcts.reroot (← TreeAgent.onTrees (Arena.develop game root ply view))
  step := do
    let game ← (← Hosted.read).seat.game? "mcts"
    let selector ← TreeAgent.theSelector
    let evaluator ← TreeAgent.theEvaluator
    let root ← Mcts.root
    TreeAgent.onTrees (Mcts.simulate game selector evaluator root)
  decisionNode := Mcts.root
  commit := Mcts.commit

end GameSearch
