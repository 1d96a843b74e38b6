import GameSearch.Hosted
import GameSearch.Tree.Belief
import GameSearch.Tree.Perfect

/-!
# Following a play

`Arena.develop` finds the node for a later ply of a play, given what the owner sees there.  For a
belief there are three ways.  The tree can be grown up to that ply, which yields the nodes whose
worlds agree with the view.  The developments from the worlds of the belief can be listed, which is
what must be done if the worlds are a sample.  And if no world of a sample explains the view, the
belief is made anew from the initial state and all that the owner has observed.
-/

namespace GameSearch.Arena

variable {R : Type}

/-- With more nodes than this at one ply, a tree is not followed. -/
def maxFrontier : Nat := 4096

/-- How many worlds a belief keeps. -/
def maxWorlds : Nat := 256

/-- The states that show a role the given view. -/
def agreeing? (game : Game) (role : Role) (view : View) (states : StateSet) :
    Except Fault StateSet := do
  return .ofList (← states.toList.filterM fun s => return (← game.view? s role) = view)

/-- A new root for a belief, whose worlds must agree on whether the owner is in control. -/
def addBelief (role : Role) (ply : Int) (view : View) (states : StateSet) (isComplete : Bool) :
    Action (Arena R) NodeId := do
  let inControl := states.toList.map (·.isInControl role)
  if inControl.any (· ≠ inControl.headD false) then throw (.controlDiffers role.text view.text)
  add (Node.belief? none ply role states isComplete
    (Node.standingOf (inControl.headD false) view))

/-- The owner of a node has the given view, and so only some states are possible. -/
def observeAt (id : NodeId) (view : View) (states : StateSet) : Action (Arena R) Unit := do
  changeBelief id (·.observe view)
  restrict id states
  trimBelief id

/-- Grows the tree by one ply below some nodes: the children, unless they are too many or one of
the nodes has a sample of its worlds only. -/
def growFrontier (game : Game) (frontier : List NodeId) :
    Action (Arena R) (Option (List NodeId)) := do
  let mut found : Found := {}
  for id in frontier do
    -- below a sample, worlds would be missing
    if !(← belief id).isComplete then return none
    expandBelief game id
    for e in ← (← get).edges? id do
      found := found.note e.child
  if found.order.size > maxFrontier then return none
  return some found.order.toList

/-- Grows the tree by some plies below some nodes. -/
def growFrontiers (game : Game) :
    (plies : Nat) → List NodeId → Action (Arena R) (Option (List NodeId))
  | 0, frontier => return some frontier
  | plies + 1, frontier => do
    match ← growFrontier game frontier with
    | none => return none
    | some next => growFrontiers game plies next

/-- The nodes with the worlds of theirs that show the owner the given view, if there are any. -/
def candidates (game : Game) (role : Role) (view : View) (frontier : List NodeId) :
    Action (Arena R) (List (NodeId × StateSet)) := do
  let found ← frontier.mapM fun id => do
    return (id, ← agreeing? game role view (← belief id).worlds)
  return found.filter fun (_, states) => !states.isEmpty

/-- Finds the node for a later ply by growing the tree. -/
def developThroughTree (game : Game) (id : NodeId) (ply : Int) (view : View) :
    Action (Arena R) (Option NodeId) := do
  let n ← node id
  match ← growFrontiers game (ply - n.depth).toNat [id] with
  | none => return none
  | some frontier =>
    match ← candidates game n.role view frontier with
    | [] => throw (.unreachableView view.text ply id)
    | [(found, states)] =>
      observeAt found view states
      return some found
    | found =>
      -- what the owner saw in between is not known here, so it may be at any of them
      let states : StateSet := found.foldl (fun all (_, states) => all.insertMany states.toList) ∅
      addBelief n.role ply view states true

/-- The last states of the developments of some evidence. -/
def lastStates? (game : Game) (e : Evidence) : Except Fault StateSet :=
  game.foldDevelopments e (fun d (states : StateSet) =>
    .yield ((d.getLast?.map Step.state).elim states states.insert)) ∅

/-- The last states of the developments of some evidence, up to a number of them, and whether that
number was not reached. -/
def someLastStates? (game : Game) (e : Evidence) (limit : Nat) :
    Except Fault (StateSet × Bool) :=
  game.foldDevelopments e (fun d (states, _) =>
    let states : StateSet := (d.getLast?.map Step.state).elim states states.insert
    if states.size < limit then .yield (states, true) else .done (states, false)) (∅, true)

/-- Makes a belief anew from all that its owner has observed. -/
def resample (game : Game) (role : Role) (ply : Int) (view : View) (observed : Evidence) :
    Action (Arena R) NodeId := do
  let e := observed.withStates 0 {game.start}
  let (states, isComplete) ← someLastStates? game e maxWorlds
  if states.isEmpty then throw (.noWorldAgrees ply role.text e.text)
  addBelief role ply view states isComplete

/-- The node of a subtree that alone holds some of the states, if it holds all of them. -/
def soleHolder? (ids : List NodeId) (states : StateSet) : Action (Arena R) (Option NodeId) := do
  let found ← ids.mapM fun id => do
    return (id, (← belief id).worlds)
  match found.filter fun (_, worlds) => states.toList.any fun s => worlds.contains s with
  | [(id, worlds)] => return if states.toList.all fun s => worlds.contains s then some id else none
  | _ => return none

/-- Finds or makes the node for a later ply by listing the developments from the worlds of a
belief. -/
def developThroughDevelopments (game : Game) (id : NodeId) (ply : Int) (view : View)
    (observed : Evidence) : Action (Arena R) NodeId := do
  let n ← node id
  let b ← belief id
  let e := ((∅ : Evidence).withStates n.depth b.worlds).withView ply n.role view
  let e := match n.move with
    | some move => e.withTurn n.depth (.single n.role move)
    | none => e
  let states ← lastStates? game e
  if states.isEmpty then
    if b.isComplete then throw (.noDevelopmentFromNode id view.text ply)
    -- the play left the sample
    resample game n.role ply view observed
  else
    let ids := (← get).nodesBelow maxFrontier (ply - n.depth).toNat [id]
    match ← soleHolder? ids states with
    | some found =>
      if !b.isComplete then markSampled found
      observeAt found view states
      return found
    | none => addBelief n.role ply view states b.isComplete

/-- The node for the present ply: the node itself if a world agrees with the view. -/
def developHere (game : Game) (id : NodeId) (ply : Int) (view : View) (observed : Evidence) :
    Action (Arena R) NodeId := do
  let n ← node id
  let b ← belief id
  -- the worlds are not looked at, as a visible node was made for this view
  if b.view? = some view then return id
  let states ← agreeing? game n.role view b.worlds
  if states.isEmpty then
    if b.isComplete then throw (.viewContradictsWorlds view.text id ply)
    resample game n.role ply view observed
  else
    observeAt id view states
    return id

/-- What the owner of a node has observed up to a ply at which it has the given view. -/
def observedUpTo (n : Node R) (b : Belief) (ply : Int) (view : View) : Evidence :=
  let e := match n.move with
    | some move => if ply > n.depth then b.history.withTurn n.depth (.single n.role move)
      else b.history
    | none => b.history
  e.withView ply n.role view

/-- The node for a later ply at which the owner of a belief has the given view, before it is
sampled. -/
def developBelief (game : Game) (id : NodeId) (ply : Int) (view : View) :
    Action (Arena R) NodeId := do
  let n ← node id
  let b ← belief id
  if ply < n.depth then throw (.developedBack n.depth ply)
  let observed := observedUpTo n b ply view
  let found ←
    if ply = n.depth then developHere game id ply view observed
    else do
      trimBelief id
      match ← developThroughTree game id ply view with
      | some found => pure found
      | none => developThroughDevelopments game id ply view observed
  changeBelief found fun b => { b with history := observed }
  return found

variable {ε : Type} [Dice ε]

/-- Samples the worlds of a belief that has too many. -/
def limitWorlds (id : NodeId) : Action (Hosted (Arena R) ε) Unit := do
  let b ← Hosted.onOwn (belief id)
  if b.worlds.size > maxWorlds then
    let sample ← Hosted.onHost (Dice.sample maxWorlds b.worlds.toList)
    Hosted.onOwn (setSample id (.ofList sample))

/-- The node for a later ply at which the owner has the given view: the node itself, a node of its
subtree or a new root. -/
def develop (game : Game) (id : NodeId) (ply : Int) (view : View) :
    Action (Hosted (Arena R) ε) NodeId := do
  let n ← Hosted.onOwn (node id)
  match n.knowledge with
  | .perfect _ _ => Hosted.onOwn (developPerfect game id ply view)
  | .belief _ =>
    let found ← Hosted.onOwn (developBelief game id ply view)
    limitWorlds found
    return found

end GameSearch.Arena
