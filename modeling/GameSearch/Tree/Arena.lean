import GameSearch.Chance.Dice
import GameSearch.Tree.Node

/-!
# Arenas

An arena holds the nodes of one or more trees.  A node is known by its number.  Nodes are removed
only by a sweep, which keeps what can be reached from some roots along edges; the numbers of removed
nodes are given out again, the one removed last first.  `Arena.find?` is the view that the other
operations are described by.
-/

namespace GameSearch

/-- The nodes of some search trees. -/
structure Arena (R : Type) where
  /-- The nodes by number. -/
  slots : Array (Option (Node R)) := #[]
  /-- The numbers to be given out again, the next one first. -/
  free : List NodeId := []
  size : Nat := 0

namespace Arena

variable {R : Type}

instance : EmptyCollection (Arena R) := ⟨{}⟩

instance : Inhabited (Arena R) := ⟨∅⟩

def find? (a : Arena R) (id : NodeId) : Option (Node R) := (a.slots[id]?).join

/-- Whether there is a node with the given number. -/
def contains (a : Arena R) (id : NodeId) : Bool := (a.find? id).isSome

/-- The node with the given number, which must exist. -/
def node? (a : Arena R) (id : NodeId) : Except Fault (Node R) :=
  match a.find? id with
  | some n => .ok n
  | none => .error (.noNode id)

/-- Takes a number, possibly negative, as that of a node, which must exist. -/
def resolve? (a : Arena R) (id : Int) : Except Fault NodeId :=
  if id < 0 then .error (.noNode id) else (a.node? id.toNat).map fun _ => id.toNat

/-- The belief at a node, which must be one with a belief. -/
def belief? (a : Arena R) (id : NodeId) : Except Fault Belief := do
  match (← a.node? id).knowledge with
  | .belief b => return b
  | .perfect _ _ => throw (.wrongNode id)

/-- The state at a node, which must be one of perfect information. -/
def state? (a : Arena R) (id : NodeId) : Except Fault State := do
  match (← a.node? id).knowledge with
  | .perfect s _ => return s
  | .belief _ => throw (.wrongNode id)

/-- The edges of a node, which must have been expanded. -/
def edges? (a : Arena R) (id : NodeId) : Except Fault (Array Edge) := do
  match (← a.node? id).edges with
  | some edges => return edges
  | none => throw (.notExpanded id)

/-- The arena with a number set aside for a node, and that number. -/
def reserve (a : Arena R) : NodeId × Arena R :=
  match a.free with
  | [] => (a.slots.size, { a with slots := a.slots.push none })
  | id :: free => (id, { a with free := free })

/-- The arena with a node in a slot that was set aside for it. -/
def fillSlot (a : Arena R) (id : NodeId) (n : Node R) : Arena R :=
  { a with slots := a.slots.setIfInBounds id (some n), size := a.size + 1 }

/-- Adds a node.  The number is set aside before it is known whether there will be a node. -/
def add (n : Except Fault (Node R)) : Action (Arena R) NodeId := do
  let id ← modifyGet reserve
  -- if there is none, the number stays set aside
  let n ← n
  modify (·.fillSlot id n)
  return id

def update (a : Arena R) (id : NodeId) (f : Node R → Node R) : Arena R :=
  { a with slots := a.slots.modify id (Option.map f) }

def change (id : NodeId) (f : Node R → Node R) : Action (Arena R) Unit := modify (·.update id f)

def changeBelief (id : NodeId) (f : Belief → Belief) : Action (Arena R) Unit :=
  change id fun n =>
    match n with
    | ⟨parent, depth, role, .belief b, edges, valuation, move⟩ =>
      ⟨parent, depth, role, .belief (f b), edges, valuation, move⟩
    | n => n

/-- The node with the given number, which must exist. -/
def node (id : NodeId) : Action (Arena R) (Node R) := do (← get).node? id

/-- The belief at a node, which must be one with a belief. -/
def belief (id : NodeId) : Action (Arena R) Belief := do (← get).belief? id

/-- Makes a node a root. -/
def detach (id : NodeId) : Action (Arena R) Unit := do
  let _ ← node id
  change id fun n => { n with parent := none }

/-! ## Reachability -/

/-- The nodes found so far, in the order of discovery. -/
structure Found where
  order : Array NodeId := #[]
  seen : Std.HashSet NodeId := ∅

/-- Takes note of a node. -/
def Found.note (found : Found) (id : NodeId) : Found :=
  if found.seen.contains id then found
  else { order := found.order.push id, seen := found.seen.insert id }

/-- Follows the edges of the found nodes from the one at index `i`, and of those found on the way;
`fuel` bounds their number. -/
def followEdges (a : Arena R) : (fuel i : Nat) → Found → Found
  | 0, _, found => found
  | fuel + 1, i, found =>
    match found.order[i]? with
    | none => found
    | some id =>
      let edges := ((a.find? id).bind Node.edges).getD #[]
      followEdges a fuel (i + 1) (edges.foldl (fun found e => found.note e.child) found)

/-- The nodes that can be reached from some roots along edges, breadth first. -/
def reachable (a : Arena R) (roots : List NodeId) : Found :=
  a.followEdges (a.slots.size + 1) 0 ((roots.filter a.contains).foldl Found.note {})

/-- The nodes that cannot be reached from some roots, in increasing order. -/
def unreachable (a : Arena R) (roots : List NodeId) : List NodeId :=
  let keep := (a.reachable roots).seen
  (List.range a.slots.size).filter fun id => a.contains id && !keep.contains id

/-- The arena without a node, whose number will be the next to be given out. -/
def remove (a : Arena R) (id : NodeId) : Arena R :=
  { slots := a.slots.setIfInBounds id none, free := id :: a.free, size := a.size - 1 }

/-- Removes the nodes that cannot be reached from the given roots: how many there were, and the
arena without them. -/
def sweep (a : Arena R) (roots : List NodeId) : Nat × Arena R :=
  let ids := a.unreachable roots
  (ids.length, ids.foldl remove a)

/-- Makes a node the only root. -/
def reroot (id : NodeId) : Action (Arena R) Unit := do
  detach id
  modify fun a => (a.sweep [id]).2

/-! ## Shape -/

/-- The length of the longest path of edges from a node; `fuel` bounds it. -/
def heightWithin (a : Arena R) : (fuel : Nat) → NodeId → Nat
  | 0, _ => 0
  | fuel + 1, id =>
    match a.find? id with
    | none => 0
    | some n => n.children.foldl (fun h child => max h (1 + heightWithin a fuel child)) 0

/-- The length of the longest path of edges from a node. -/
def height (a : Arena R) (id : NodeId) : Nat := a.heightWithin a.slots.size id

/-- The distinct nodes of a subtree, breadth first. -/
def subtree (a : Arena R) (id : NodeId) : List NodeId := (a.reachable [id]).order.toList

/-- The distinct nodes some plies below a node, unless there are more than `limit` of them at some
ply. -/
def nodesBelow (a : Arena R) (limit : Nat) : (plies : Nat) → List NodeId → List NodeId
  | 0, frontier => frontier
  | plies + 1, frontier =>
    let next := (frontier.foldl (fun (found : Found) id =>
      (((a.find? id).bind Node.edges).getD #[]).foldl (fun found e => found.note e.child) found)
      {}).order.toList
    if next.length > limit then [] else nodesBelow a limit plies next

/-- The index of the first edge with a key. -/
def keyIndex? (edges : Array Edge) (key : Edge.Key) : Option Nat :=
  edges.findIdx? (·.key = key)

/-- The index of the first edge with a joint turn, and out of a world if one is given and the edge
leads out of a particular one. -/
def turnIndex? (edges : Array Edge) (world : Option State) (turn : Turn) : Option Nat :=
  edges.findIdx? fun e =>
    e.turn = turn && !(world.any fun w => e.key.world.any (· ≠ w))

end Arena

end GameSearch
