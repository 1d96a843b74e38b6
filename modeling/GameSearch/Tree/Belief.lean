import GameSearch.Tree.Arena

/-!
# Trees of beliefs

The worlds of a belief are expanded one at a time: that adds an edge for each transition out of the
world.  When a belief gets narrower, or its owner commits itself to a move, the edges that no longer
agree with it are dropped, and the children that they led to get narrower in turn.
-/

namespace GameSearch.Arena

variable {R : Type}

/-! ## Expansion -/

/-- The history of the child that an observation leads to. -/
def childHistory (history : Evidence) (depth : Nat) (role : Role) (o : Observation) : Evidence :=
  let history := match o.move with
    | some move => history.withTurn depth (.single role move)
    | none => history
  if o.inControl then history.withView (depth + 1) role o.view else history

/-- Adds the child for an observation that no other transition has led to. -/
def addBeliefChild (id : NodeId) (depth : Nat) (role : Role) (isComplete : Bool)
    (history : Evidence) (o : Observation) (next : State) : Action (Arena R) NodeId := do
  let child ← add (Node.belief? (some (Int.ofNat id)) (depth + 1) role {next} isComplete
    (Node.standingOf o.inControl o.view))
  changeBelief child fun b => { b with history := childHistory history depth role o }
  changeBelief id fun b => { b with buckets := b.buckets.insert o child }
  return child

/-- The child that an observation leads to, which gets the next state as a world. -/
def childFor (id : NodeId) (n : Node R) (b : Belief) (o : Observation) (next : State) :
    Action (Arena R) NodeId := do
  match b.buckets[o]? with
  | none => addBeliefChild id n.depth n.role b.isComplete b.history o next
  | some child =>
    let _ ← belief child
    changeBelief child (·.addWorld next)
    return child

/-- What a role observes of a transition. -/
def observation? (game : Game) (role : Role) (turn : Turn) (next : State) :
    Except Fault Observation := do
  return {
    move := turn.find? role
    inControl := next.isInControl role
    view := ← game.view? next role }

/-- The key of a transition out of a world. -/
def keyOf (n : Node R) (world : State) (turn : Turn) : Edge.Key :=
  ⟨some world, if n.kind = .visible then turn.restrict n.role else turn⟩

/-- Adds the edge for a transition out of a world, unless it disagrees with the committed move. -/
def addTransition (game : Game) (id : NodeId) (world : State) (turn : Turn) (next : State) :
    Action (Arena R) Unit := do
  let n ← node id
  let b ← belief id
  let e : Edge := { key := keyOf n world turn, turn := turn, next := next, child := id }
  if !n.isCommitted e then return
  let o ← observation? game n.role turn next
  let child ← childFor id n b o next
  change id fun n => { n with edges := n.edges.map (·.push { e with child := child }) }

def addTransitions (game : Game) (id : NodeId) (world : State) : Action (Arena R) Unit := do
  change id fun n => { n with edges := n.edges.or (some #[]) }
  for (turn, next) in ← game.successors? world do
    addTransition game id world turn next
  -- only now, so a view that fails on the way leaves the edges before it and no mark
  changeBelief id fun b => { b with expanded := b.expanded.insert world }

/-- Adds the edges of every world that has none yet. -/
def expandBelief (game : Game) (id : NodeId) : Action (Arena R) Unit := do
  let n ← node id
  if n.isExpanded then return
  let b ← belief id
  for world in b.worlds.toList do
    if !b.expanded.contains world then addTransitions game id world

/-- Adds the edges of a world, unless that has been done already. -/
def expandWorld (game : Game) (id : NodeId) (world : State) : Action (Arena R) Unit := do
  let b ← belief id
  if b.expanded.contains world then return
  if !b.worlds.contains world then throw (.notAWorld world.text id)
  addTransitions game id world

/-! ## Narrowing -/

/-- The states that the edges to each child lead to. -/
def statesByChild (edges : Array Edge) : Std.ExtTreeMap NodeId StateSet :=
  edges.foldl (fun m e => m.insert e.child ((m.getD e.child ∅).insert e.next)) ∅

/-- Drops the edges that lead out of no world of the belief or disagree with the committed move,
and narrows the children down to the states that the other edges lead to. -/
def trimWith (narrowChild : NodeId → StateSet → Action (Arena R) Unit) (id : NodeId) :
    Action (Arena R) Unit := do
  let n ← node id
  let b ← belief id
  match n.edges with
  | none => return
  | some edges =>
    let kept := edges.filter fun e => e.key.world.any b.worlds.contains && n.isCommitted e
    let states := statesByChild kept
    change id fun n => { n with edges := some kept }
    -- an observation that no edge makes any longer must not lead to a child that may be swept
    changeBelief id fun b =>
      { b with buckets := b.buckets.filter fun _ child => states.contains child }
    for (child, states) in states.toList do
      narrowChild child states

/-- Narrows a belief down to the worlds that are among some states, at least one, and drops what
follows from the others; `fuel` bounds the height of the tree. -/
def restrictWithin : (fuel : Nat) → NodeId → StateSet → Action (Arena R) Unit
  | 0, _, _ => throw .outOfSteps
  | fuel + 1, id, allowed => do
    let b ← belief id
    let worlds := b.worlds.filter allowed.contains
    if h : worlds.isEmpty = false then
      if worlds.size = b.worlds.size then return
      changeBelief id (·.narrow worlds h)
      trimWith (restrictWithin fuel) id
    else throw (.emptyRestriction id)

/-- More than the height of any tree of an arena. -/
def heightBound : Action (Arena R) Nat := do return (← get).slots.size + 1

/-- Narrows a belief down to the worlds that are among some states, at least one, and drops what
follows from the others. -/
def restrict (id : NodeId) (allowed : StateSet) : Action (Arena R) Unit := do
  restrictWithin (← heightBound) id allowed

/-- Drops what does not agree with the belief and the committed move. -/
def trimBelief (id : NodeId) : Action (Arena R) Unit := do
  trimWith (restrictWithin (← heightBound)) id

/-- Takes a belief, and all that follow from it, for samples; `fuel` bounds the height of the
tree. -/
def markSampledWithin : (fuel : Nat) → NodeId → Action (Arena R) Unit
  | 0, _ => throw .outOfSteps
  | fuel + 1, id => do
    let b ← belief id
    if !b.isComplete then return
    changeBelief id fun b => { b with isComplete := false }
    let n ← node id
    for e in n.edges.getD #[] do
      markSampledWithin fuel e.child

/-- Takes a belief, and all that follow from it, for samples. -/
def markSampled (id : NodeId) : Action (Arena R) Unit := do
  markSampledWithin (← heightBound) id

/-- Narrows a belief down to a sample of its worlds. -/
def setSample (id : NodeId) (sample : StateSet) : Action (Arena R) Unit := do
  markSampled id
  restrict id sample

end GameSearch.Arena
