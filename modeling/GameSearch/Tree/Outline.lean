import GameSearch.Tree.Arena

/-!
# Outlines of trees

A tree as text: one line for each distinct node, breadth first, with the number, the kind, the
statistics and the children of the node.
-/

namespace GameSearch

namespace Node

variable {R : Type}

def Kind.text : Kind → String
  | perfect => "perfect"
  | visible => "visible"
  | hidden => "hidden"

/-- The number of the parent, -1 for a root. -/
def parentNumber (n : Node R) : Int := n.parent.getD (-1)

/-- How many worlds a node has, if its owner does not know the state, and whether those are all that
are possible. -/
def worldsText (n : Node R) : String :=
  match n.knowledge with
  | .perfect _ _ => ""
  | .belief b => s!" worlds={b.worlds.size}" ++ if b.isComplete then "" else " sampled"

/-- The line of a node in an outline; how its mean is written is up to the caller. -/
def outline (writeMean : R → String) (id : NodeId) (n : Node R) : String :=
  let value := match n.valuation with
    | some v => s!"{v.playouts} mean=" ++ writeMean v.mean
    | none => "-"
  let children := match n.edges with
    | some edges => " ->" ++ String.join (edges.toList.map fun (e : Edge) => s!" {e.child}")
    | none => ""
  let kind := n.kind.text
  s!"{id} {kind} parent={n.parentNumber} depth={n.depth}{n.worldsText} n={value}{children}"

end Node

/-- The lines of the outline of a tree. -/
def Arena.outline? {R : Type} (a : Arena R) (writeMean : R → String) (root : NodeId) :
    Except Fault (List String) := do
  let _ ← a.node? root
  (a.subtree root).mapM fun id => return (← a.node? id).outline writeMean id

end GameSearch
