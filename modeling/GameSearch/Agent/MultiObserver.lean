import GameSearch.Agent.SingleObserver

/-!
# Search from every point of view

The agent keeps one tree of beliefs for each role but chance.  A simulation draws one world of the
agent's own root and finds, in every other tree, the node that describes the same world.  Then all
trees are descended in step: every role in control selects its move at its own node, chance moves
uniformly, and every tree follows the joint turn.

The tree of another role is rooted at the last ply at which the agent could tell at which node of it
that role is.  Below that ply, the node for a world is located by a development that agrees with what
the agent has seen and done; it is kept until the agent's own tree changes.
-/

namespace GameSearch

/-- The memory of an agent that searches from every point of view. -/
structure MultiObserver where
  trees : ByRole NodeId := ∅
  /-- The views of the agent's role, by ply. -/
  views : Std.ExtTreeMap Int View := ∅
  /-- The moves that the agent made, by ply. -/
  moves : Std.ExtTreeMap Int Move := ∅
  /-- The nodes of other roles that worlds were located at. -/
  locations : Std.HashMap (Role × State) NodeId := ∅

/-- The nodes that a simulation reached in the trees, and the world that they agree on. -/
structure JointNode where
  nodes : ByRole NodeId
  world : State

namespace MultiObserver

def label : String := "mo-ismcts"

/-- The root of the tree of a role. -/
def root? (memory : MultiObserver) (role : Role) : Except Fault NodeId :=
  match memory.trees[role]? with
  | some id => .ok id
  | none => .error .outOfRange

/-- What the agent knows about the play from the ply of another role's root to that of its own, if it
is at the given world there. -/
def evidence (memory : MultiObserver) (role : Role) (first last : Nat) (worlds : StateSet)
    (world : State) : Evidence :=
  let e := ((∅ : Evidence).withStates first worlds).withStates last {world}
  let e := memory.views.toList.foldl (fun e (ply, view) =>
    if first ≤ ply ∧ ply ≤ last then e.withView ply role view else e) e
  memory.moves.toList.foldl (fun e (ply, move) =>
    if first ≤ ply ∧ ply < last then e.withTurn ply (.single role move) else e) e

variable {R ε : Type}

/-- Follows a development down the tree of a role, expanding the nodes on the way. -/
def follow (game : Game) (role : Role) : NodeId → (ply : Int) → Development →
    Action (Arena R) NodeId
  | id, ply, ⟨s, some turn⟩ :: step :: rest => do
    Arena.expand game id
    let edges ← (← get).edges? id
    match (Arena.turnIndex? edges (some s) turn).bind fun i => edges[i]? with
    | none => throw (.noEntryAtPly id role.text turn.text ply)
    | some e => follow game role e.child (ply + 1) (step :: rest)
  | id, _, _ => return id

/-- The node of another role's tree that describes a world at the ply of the agent's own root. -/
def locate [Dice ε] (game : Game) (own other : Role) (world : State) :
    Deliberation MultiObserver R ε NodeId := do
  let memory ← TreeAgent.memorized
  let root ← memory.root? other
  let arena ← TreeAgent.onArena get
  let worlds := (← arena.belief? root).worlds
  let first := (← arena.node? root).depth
  let last := (← arena.node? (← memory.root? own)).depth
  if first = last then
    if worlds.contains world then return root
    throw (.worldNotHeld other.text last world.text)
  match memory.locations[(other, world)]? with
  | some id => return id
  | none =>
    let developments ← game.developments? (memory.evidence own first last worlds world)
    if developments.isEmpty then throw (.worldUnreachable world.text other.text first)
    let development ← Hosted.onHost (Dice.choose developments)
    let id ← TreeAgent.onArena (follow game other root first development)
    TreeAgent.remember fun memory =>
      { memory with locations := memory.locations.insert (other, world) id }
    return id

/-- The node of every role for a world of the agent's own root. -/
def locateAll [Dice ε] (game : Game) (own : Role) (world : State) :
    Deliberation MultiObserver R ε (ByRole NodeId) := do
  let memory ← TreeAgent.memorized
  let found ← memory.trees.toList.mapM fun (role, root) => do
    if role = own then return (role, root)
    else return (role, ← locate game own role world)
  return .ofList found

variable [Scalar R]

/-- The move of a role in control: selected at its node, or drawn if it has none. -/
def selectMove [Dice ε] (game : Game) (selector : Selector R ε) (joint : JointNode) (role : Role) :
    Action (Hosted (Arena R) ε) Play := do
  match joint.nodes[role]? with
  | none =>
    let moves ← game.moves? joint.world role
    return ⟨role, ← Hosted.onHost (Dice.choose moves)⟩
  | some id =>
    let a ← Hosted.onOwn get
    let key ← Hosted.onHost (a.select selector id (some joint.world))
    return ⟨role, ← key.turn.at? role⟩

/-- The edge that a joint turn takes in the tree of a role. -/
def edgeFor? (a : Arena R) (world : State) (turn : Turn) (role : Role) (id : NodeId) :
    Except Fault Edge := do
  let edges ← a.edges? id
  match (Arena.turnIndex? edges (some world) turn).bind fun i => edges[i]? with
  | some e => return e
  | none => throw (.noEntryInWorld id role.text turn.text world.text)

/-- One joint turn in all trees, unless the play is over or some tree ends. -/
def advance [Dice ε] (game : Game) (selector : Selector R ε) (joint : JointNode) :
    Action (Hosted (Arena R) ε) (Option JointNode) := do
  if ← game.isTerminal joint.world then return none
  let a ← Hosted.onOwn get
  if !(← joint.nodes.toList.allM fun (_, id) => return (← a.node? id).isExpanded) then return none
  let plays ← (← joint.world.control?).toList.mapM (selectMove game selector joint)
  let turn := Turn.ofList plays
  let edges ← joint.nodes.toList.mapM fun (role, id) => do
    return (role, ← edgeFor? a joint.world turn role id)
  match edges.getLast? with
  | none => throw .outOfRange
  | some (_, last) =>
    return some {
      nodes := .ofList (edges.map fun (role, e) => (role, e.child))
      world := last.next }

/-- Descends all trees in step; `fuel` bounds their height. -/
def descend [Dice ε] (game : Game) (selector : Selector R ε) :
    (fuel : Nat) → JointNode → Action (Hosted (Arena R) ε) JointNode
  | 0, _ => throw .outOfSteps
  | fuel + 1, joint => do
    match ← advance game selector joint with
    | none => return joint
    | some next => descend game selector fuel next

/-- The way of one simulation: the nodes that it reaches. -/
def select [Dice ε] : Deliberation MultiObserver R ε JointNode := do
  let (game, role) ← TreeAgent.gameAndRole label
  let root ← (← TreeAgent.memorized).root? role
  let n ← TreeAgent.onArena (Arena.node root)
  let world ← Hosted.onHost (Arena.drawWorld n)
  let nodes ← locateAll game role world
  let selector ← TreeAgent.theSelector
  TreeAgent.onTrees do
    descend game selector (← Hosted.onOwn Arena.heightBound) ⟨nodes, world⟩

/-- A simulation: the nodes that it reaches are expanded, and valued by the utilities of one
evaluation. -/
def simulate [Dice ε] : Deliberation MultiObserver R ε Unit := do
  let game ← (← Hosted.read).seat.game? label
  let joint ← select
  for (_, id) in joint.nodes.toList do
    TreeAgent.onArena (Arena.expand game id)
  let evaluator ← TreeAgent.theEvaluator
  let utilities ← Hosted.onHost (evaluator.evaluateAll game joint.world joint.nodes.keys)
  for (role, id) in joint.nodes.toList do
    match utilities[role]? with
    | none => throw .outOfRange
    | some utility =>
      TreeAgent.onArena (Arena.propagate id utility)
      TreeAgent.onArena (Arena.backpropagate id utility)

/-- The nodes some plies below a root, if all nodes above them are expanded. -/
def expandedBelow (a : Arena R) : (plies : Nat) → List NodeId → Option (List NodeId)
  | 0, frontier => some frontier
  | plies + 1, frontier =>
    let nodes := frontier.filterMap a.find?
    if nodes.all Node.isExpanded then
      let next := (nodes.flatMap Node.children).eraseDups
      if next.length > Arena.maxFrontier then none else expandedBelow a plies next
    else none

/-- Roots the tree of another role at the ply of the agent's own root, if that role can be at one
node only. -/
def catchUp (own other : Role) (ply : Int) : Deliberation MultiObserver R ε Unit := do
  let memory ← TreeAgent.memorized
  let root ← memory.root? other
  let a ← TreeAgent.onArena get
  let depth := (← a.node? root).depth
  if ply ≤ depth then return
  match expandedBelow a (ply - depth).toNat [root] with
  | none => return
  | some frontier =>
    -- these may be a sample, in which case the world of the play can be at another node
    let worlds := (← a.belief? (← memory.root? own)).worlds
    match ← TreeAgent.onArena (Arena.soleHolder? frontier worlds) with
    | none => return
    | some id =>
      TreeAgent.remember fun memory => { memory with trees := memory.trees.insert other id }
      TreeAgent.onArena (Arena.detach id)

/-- Forgets where worlds were located, and keeps nothing but the trees. -/
def tidy : Deliberation MultiObserver R ε Unit := do
  TreeAgent.remember fun memory => { memory with locations := ∅ }
  let roots := (← TreeAgent.memorized).trees.values
  TreeAgent.onArena (modify fun a => (a.sweep roots).2)

/-- Makes a node the root of the agent's own tree. -/
def reroot (role : Role) (id : NodeId) : Deliberation MultiObserver R ε Unit := do
  TreeAgent.remember fun memory => { memory with trees := memory.trees.insert role id }
  TreeAgent.onArena (Arena.detach id)

/-- Develops the agent's own tree, and roots the others where it can. -/
def develop [Dice ε] (ply : Int) (view : View) : Deliberation MultiObserver R ε Unit := do
  TreeAgent.remember fun memory => { memory with views := memory.views.insert ply view }
  let role ← (← Hosted.read).seat.role? label
  let root ← (← TreeAgent.memorized).root? role
  let _ ← TreeAgent.onArena (Arena.node root)
  let game ← (← Hosted.read).seat.game? label
  reroot role (← TreeAgent.onTrees (Arena.develop game root ply view))
  for other in (← TreeAgent.memorized).trees.keys do
    if other ≠ role then catchUp role other ply
  tidy

/-- Commits the agent's own root to a move and goes on to its child if there is only one left. -/
def commit (move : Move) : Deliberation MultiObserver R ε Unit := do
  let role ← (← Hosted.read).seat.role? label
  let root ← (← TreeAgent.memorized).root? role
  let depth := (← TreeAgent.onArena (Arena.node root)).depth
  TreeAgent.remember fun memory => { memory with moves := memory.moves.insert depth move }
  TreeAgent.onArena (Arena.commit root move)
  TreeAgent.onArena (Arena.trim root)
  reroot role (← (← TreeAgent.onArena get).soleChild? root)
  tidy

/-- Plants a tree for each role but chance. -/
def plant : Deliberation MultiObserver R ε Unit := do
  let (game, role) ← TreeAgent.gameAndRole label
  -- the roots of roles of an earlier game are kept
  for other in game.roles do
    if other ≠ chance then
      let n ← (SingleObserver.firstBelief? game other : Except Fault (Node R))
      let root ← TreeAgent.onArena (Arena.add (pure n))
      TreeAgent.remember fun memory => { memory with trees := memory.trees.insert other root }
  if !(← TreeAgent.memorized).trees.contains role then throw (.notARole role.text)

def ownRoot : Deliberation MultiObserver R ε NodeId := do
  let role ← (← Hosted.read).seat.role? label
  (← TreeAgent.memorized).root? role

end MultiObserver

instance {R ε : Type} [Scalar R] [Host ε] : SearchMethod MultiObserver R ε where
  name := MultiObserver.label
  fresh := {}
  plant := MultiObserver.plant
  develop := MultiObserver.develop
  step := MultiObserver.simulate
  decisionNode := MultiObserver.ownRoot
  commit := MultiObserver.commit

end GameSearch
