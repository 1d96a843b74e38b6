import GameSearch.Tree.Arena

/-!
# Selection

A selector picks one of the options that a node offers.  At a node of perfect information, and
where one world is singled out, the options are the keys of the edges; at a belief they are the
turns of the keys, that is the owner's own moves if it is in control.  The statistics of an option
are those of all the distinct children that it leads to.  Of equally good options the first one
counts.
-/

namespace GameSearch

/-- One of the options that a node offers. -/
structure Candidate (R : Type) where
  key : Edge.Key
  /-- The distinct children that it leads to. -/
  children : Array NodeId
  playouts : Nat
  /-- The mean utility of the playouts, if there were any. -/
  mean : R

/-- A way of picking one of some options. -/
structure Selector (R ε : Type) where
  /-- The index of the option picked in a state, for an owner of the node. -/
  pick : State → Role → (options : Array (Candidate R)) → 0 < options.size →
    Action ε (Fin options.size)

namespace Candidate

variable {R : Type} [Scalar R]

/-- An option that leads nowhere so far. -/
def ofKey (key : Edge.Key) : Candidate R := ⟨key, #[], 0, Scalar.zero⟩

/-- The option with one more child, unless it leads to that child already. -/
def addChild (c : Candidate R) (child : NodeId) (valuation : Option (Valuation R)) :
    Candidate R :=
  if c.children.contains child then c
  else
    let c := { c with children := c.children.push child }
    match valuation with
    | none => c
    | some v =>
      if v.playouts = 0 then c
      else
        let playouts := c.playouts + v.playouts
        { c with
          mean := (c.mean * Scalar.ofNat c.playouts + v.mean * Scalar.ofNat v.playouts)
            / Scalar.ofNat playouts
          playouts := playouts }

/-- Adds a child to the option with the given key, which comes last if it is a new one. -/
def addTo (options : Array (Candidate R)) (key : Edge.Key) (child : NodeId)
    (valuation : Option (Valuation R)) : Array (Candidate R) :=
  match options.findIdx? (·.key = key) with
  | some i => options.modify i (·.addChild child valuation)
  | none => options.push ((ofKey key).addChild child valuation)

def isVisited (c : Candidate R) : Bool := 0 < c.playouts

end Candidate

namespace Arena

variable {R : Type} [Scalar R]

/-- The options of a node, edges with the same key being taken together; with a world, only the
edges out of that world count. -/
def group? (a : Arena R) (id : NodeId) (world : Option State) (keyOf : Edge → Edge.Key) :
    Except Fault (Array (Candidate R)) := do
  (← a.edges? id).foldlM (fun options e => do
    if world.any fun w => e.key.world.any (· ≠ w) then return options
    return Candidate.addTo options (keyOf e) e.child (← a.node? e.child).valuation) #[]

def options? (a : Arena R) (id : NodeId) (world : Option State) :
    Except Fault (Array (Candidate R)) := do
  let whole := world.isSome || (← a.node? id).kind = .perfect
  a.group? id world fun e => if whole then e.key else ⟨none, e.key.turn⟩

/-- The moves of a role that a node offers. -/
def moveOptions? (a : Arena R) (id : NodeId) (role : Role) :
    Except Fault (Array (Candidate R)) :=
  a.group? id none fun e => ⟨none, e.key.turn.restrict role⟩

variable {ε : Type}

/-- Picks one of some options of a node; there must be one. -/
def pickOf (selector : Selector R ε) (n : Node R) (world : Option State)
    (options : Array (Candidate R)) (none : Fault) : Action ε (Candidate R) :=
  if h : 0 < options.size then do
    return options[← selector.pick (world.getD n.firstWorld) n.role options h]
  else throw none

/-- Selects the key of one of the edges of a node. -/
def select (a : Arena R) (selector : Selector R ε) (id : NodeId) (world : Option State) :
    Action ε Edge.Key := do
  let options ← a.options? id world
  return (← pickOf selector (← a.node? id) world options (.noChild id)).key

/-- Chooses a move of a role at a node. -/
def chooseMove (a : Arena R) (selector : Selector R ε) (id : NodeId) (role : Role) :
    Action ε Move := do
  let options ← a.moveOptions? id role
  (← pickOf selector (← a.node? id) none options (.noMoveAt id role.text)).key.turn.at? role

end Arena

namespace Selector

variable {R ε : Type} [Scalar R]

/-- The index that comes out on top when each index after the first has to beat the best so far. -/
def bestIndex {n : Nat} (h : 0 < n) (beats : Fin n → Fin n → Bool) : Fin n :=
  (List.finRange n).foldl (fun best i => if beats i best then i else best) ⟨0, h⟩

/-- A uniformly drawn index. -/
def drawIndex [Dice ε] {n : Nat} (h : 0 < n) : Action ε (Fin n) := fun source =>
  let (i, source) := Dice.roll n h source
  .ok i source

/-- Picks the option with the highest mean; those without playouts rank lowest. -/
def best : Selector R ε where
  pick _ _ options h := pure (bestIndex h fun i best =>
    options[i].isVisited &&
      (!options[best].isVisited || decide (options[best].mean < options[i].mean)))

/-- Picks the option with the most playouts. -/
def mostVisited : Selector R ε where
  pick _ _ options h := pure (bestIndex h fun i best =>
    decide (options[best].playouts < options[i].playouts))

/-- Picks any option with the same probability. -/
def random [Dice ε] : Selector R ε where
  pick _ _ _ h := drawIndex h

end Selector

namespace Selector

variable {R ε : Type} [AnalyticScalar R]

/-- How much an option promises: its mean for whoever is in control, and a bonus for options with
few of the `total` playouts. -/
def score (constant : R) (inControl : Bool) (logTotal : R) (c : Candidate R) : R :=
  (if inControl then c.mean else Scalar.one - c.mean)
    + constant * AnalyticScalar.sqrt (logTotal / Scalar.ofNat c.playouts)

/-- The index of the highest score, of the first one if no score counts. -/
def highestScore {n : Nat} (h : 0 < n) (score : Fin n → R) : Fin n :=
  let best := (List.finRange n).foldl (fun (best : Option (Fin n × R)) i =>
    let s := score i
    match best with
    | none => if AnalyticScalar.counts s then some (i, s) else none
    | some (_, t) => if t < s then some (i, s) else best) none
  (best.map Prod.fst).getD ⟨0, h⟩

/-- Picks an option that has not been visited if there is one, else any option if chance alone is in
control, else the option with the highest score. -/
def upperConfidence [Dice ε] (constant : R) : Selector R ε where
  pick world role options h := do
    match (List.finRange options.size).find? fun i => !options[i].isVisited with
    | some i => return i
    | none =>
      let control ← world.control?
      if control.toList = [chance] then drawIndex h
      else
        let total := options.foldl (fun n c => n + c.playouts) 0
        let logTotal : R := AnalyticScalar.log (Scalar.ofNat total)
        return highestScore h fun i =>
          score constant (decide (role ∈ control)) logTotal options[i]

/-- The weight of the bonus, unless another one is wanted. -/
def defaultConstant : R := AnalyticScalar.sqrt (Scalar.ofInt 2)

/-- The upper-confidence selector with a weight of the bonus that is not negative. -/
def upperConfidence? [Dice ε] (constant : R) : Except Fault (Selector R ε) :=
  if (Scalar.zero : R) ≤ constant then .ok (upperConfidence constant)
  else .error (.negativeExploration (Scalar.text constant))

end Selector

end GameSearch
