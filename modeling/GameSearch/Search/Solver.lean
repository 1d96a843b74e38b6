import Std.Data.HashMap
import Std.Data.HashSet
import GameSearch.Data.Deque
import GameSearch.Hosted
import GameSearch.Search.Playout

/-!
# Solving games

A solver computes the exact values that the states of a game have for one role, if all roles see
everything: a terminal state is worth what an evaluator says, a state in the hands of chance the
mean of its distinct successors, a state in the hands of the role and its allies the best of its
successors, and any other state the worst.

The work is done in small steps.  A queue holds two kinds of tasks: to play a random playout from a
state, which leads the solver to states whose value is easy to find, and to search a state with a
window of values outside of which its exact value does not matter.  The solver keeps a lower and an
upper bound of the value of each state it has looked at; the value is known when the bounds meet.
-/

namespace GameSearch.Solver

/-- What a value is known to lie between. -/
structure Bounds (R : Type) where
  lower : R
  upper : R

/-- What there is to do. -/
inductive Task (R : Type) where
  /-- Plays a random playout from a state. -/
  | seed (state : State)
  /-- Bounds the value of a state, as far as it lies between `low` and `high`. -/
  | search (state : State) (low high : R)

/-- What a look at the successors of a state tells. -/
inductive Verdict (R : Type) where
  /-- The value of the state has these bounds. -/
  | settled (bounds : Bounds R)
  /-- These tasks have to be done first. -/
  | waiting (tasks : List (Task R))

/-- What there is to solve. -/
structure Problem (R ε : Type) where
  game : Game
  role : Role
  evaluator : Evaluator R ε
  /-- The least and the greatest value that a state can have. -/
  range : Bounds R
  /-- The roles that want what the role wants, itself among them. -/
  allies : SortedSet Role
  /-- The state whose value is asked for. -/
  origin : State
  /-- The number of plies after which a playout is given up. -/
  maxPlies : Nat

/-- The bounds found so far. -/
abbrev Entries (R : Type) := Std.HashMap State (Bounds R)

end Solver

structure Solver (R : Type) where
  entries : Solver.Entries R := ∅
  /-- The states that a playout has been started from. -/
  seeded : Std.HashSet State := ∅
  queue : Deque (Solver.Task R) := ∅
  isDone : Bool := false

namespace Solver

variable {R ε : Type} [Scalar R]

/-- Whether both bounds are the same value. -/
def Bounds.isExact (b : Bounds R) : Bool := b.lower == b.upper

/-- A limit on the length of playouts that no sensible game reaches. -/
def defaultMaxPlies : Nat := 1000000

/-- The problem of solving a game, which must be given, for a role and values from a range, which
must not be empty. -/
def Problem.of? (game : Option Game) (role : Role) (evaluator : Evaluator R ε) (range : Bounds R)
    (allies : List Role) (origin : Option State) (maxPlies : Nat) :
    Except Fault (Problem R ε) :=
  match game with
  | none => .error .noGameForBook
  | some game =>
    if range.lower ≤ range.upper then
      .ok {
        game := game
        role := role
        evaluator := evaluator
        range := range
        allies := SortedSet.ofList (role :: allies)
        origin := origin.getD game.start
        maxPlies := maxPlies }
    else .error (.emptyValueRange (Scalar.text range.lower) (Scalar.text range.upper))

/-- The value of a state, if it is known. -/
def Entries.value? (entries : Entries R) (s : State) : Option R :=
  (entries[s]?).bind fun b => if b.isExact then some b.lower else none

/-- The value of a state, if it is known. -/
def value? (solver : Solver R) (s : State) : Option R := solver.entries.value? s

/-- The states with known values. -/
def book (solver : Solver R) : Book R :=
  .ofList (solver.entries.toList.filterMap fun (s, b) =>
    if b.isExact then some (s, b.lower) else none)

namespace Problem

variable (p : Problem R ε)

/-- The distinct successors of a state, in the order of the turns that lead to them. -/
def children? (s : State) : Except Fault (List State) := do
  return ((← p.game.successors? s).map Prod.snd).eraseDups

/-- The verdict on a state in the hands of chance. -/
def average (entries : Entries R) (children : List State) : Verdict R :=
  match children.filter fun c => (entries.value? c).isNone with
  | [] =>
    -- a state counts once, however many moves lead to it
    let total : R := (children.filterMap entries.value?).foldl (· + ·) Scalar.zero
    let mean := total / Scalar.ofNat children.length
    .settled ⟨mean, mean⟩
  | unknown => .waiting (unknown.map fun c => .search c p.range.lower p.range.upper)

/-- The successors that still matter to a state in the hands of the role: `low` is the value that
one of them has to exceed, `skipped` the greatest upper bound of those that cannot. -/
def maximizeRest (entries : Entries R) (value low high : R) :
    List State → (skipped : R) → (pending : List (Task R)) → Verdict R
  | [], skipped, [] => .settled ⟨value, Scalar.larger value skipped⟩
  | [], _, pending => .waiting pending.reverse
  | c :: rest, skipped, pending =>
    match entries[c]? with
    | none => maximizeRest entries value low high rest skipped (.search c low high :: pending)
    | some b =>
      if b.isExact then maximizeRest entries value low high rest skipped pending
      else if b.upper ≤ low then
        maximizeRest entries value low high rest (Scalar.larger skipped b.upper) pending
      else if high ≤ b.lower then .settled ⟨b.lower, p.range.upper⟩
      else maximizeRest entries value low high rest skipped (.search c low high :: pending)

/-- The verdict on a state in the hands of the role and its allies. -/
def maximize (entries : Entries R) (low high : R) (children : List State) : Verdict R :=
  let value := (children.filterMap entries.value?).foldl Scalar.larger p.range.lower
  if high ≤ value then .settled ⟨value, p.range.upper⟩
  else p.maximizeRest entries value (Scalar.larger low value) high children p.range.lower []

/-- The successors that still matter to a state in other hands: `high` is the value that one of
them has to stay below, `skipped` the least lower bound of those that cannot. -/
def minimizeRest (entries : Entries R) (value low high : R) :
    List State → (skipped : R) → (pending : List (Task R)) → Verdict R
  | [], skipped, [] => .settled ⟨Scalar.smaller value skipped, value⟩
  | [], _, pending => .waiting pending.reverse
  | c :: rest, skipped, pending =>
    match entries[c]? with
    | none => minimizeRest entries value low high rest skipped (.search c low high :: pending)
    | some b =>
      if b.isExact then minimizeRest entries value low high rest skipped pending
      else if high ≤ b.lower then
        minimizeRest entries value low high rest (Scalar.smaller skipped b.lower) pending
      else if b.upper ≤ low then .settled ⟨p.range.lower, b.upper⟩
      else minimizeRest entries value low high rest skipped (.search c low high :: pending)

/-- The verdict on a state in other hands. -/
def minimize (entries : Entries R) (low high : R) (children : List State) : Verdict R :=
  let value := (children.filterMap entries.value?).foldl Scalar.smaller p.range.upper
  if value ≤ low then .settled ⟨p.range.lower, value⟩
  else p.minimizeRest entries value low (Scalar.smaller high value) children p.range.upper []

/-- The verdict on a state, by who is in control of it. -/
def judge (entries : Entries R) (control : SortedSet Role) (low high : R)
    (children : List State) : Verdict R :=
  if control.toList = [chance] then p.average entries children
  else if control.toList.all fun role => decide (role ∈ p.allies) then
    p.maximize entries low high children
  else p.minimize entries low high children

def tighten (s : State) (b : Bounds R) : Action (Hosted (Solver R) ε) Unit := do
  let old := (← Hosted.read).entries.getD s p.range
  let new : Bounds R := ⟨Scalar.larger old.lower b.lower, Scalar.smaller old.upper b.upper⟩
  Hosted.change fun solver => { solver with entries := solver.entries.insert s new }
  if !decide (new.lower ≤ new.upper) then
    throw (.inconsistentBounds (Scalar.text new.lower) (Scalar.text new.upper) s.text)

/-- Finds the value of a terminal state. -/
def settleTerminal (s : State) : Action (Hosted (Solver R) ε) Unit := do
  let value ← Hosted.onHost (p.evaluator.evaluate p.game s p.role)
  p.tighten s ⟨value, value⟩

/-- Adds tasks at the end of the queue. -/
def postpone (tasks : List (Task R)) : Action (Hosted (Solver R) ε) Unit :=
  Hosted.change fun solver => { solver with queue := tasks.foldl Deque.pushBack solver.queue }

/-- Plays on from a state until a state whose value is known: the last state whose value was not,
if there was one. -/
def playToKnown [Dice ε] :
    (left : Nat) → State → (before : Option State) → Action (Hosted (Solver R) ε) (Option State)
  | left, s, before => do
    if ((← Hosted.read).value? s).isSome then return before
    if ← p.game.isTerminal s then
      p.settleTerminal s
      return before
    match left with
    | 0 => throw .outOfSteps
    | left + 1 =>
      let turn ← Hosted.onHost (p.game.randomTurn s)
      playToKnown left (← p.game.next? s turn) (some s)

/-- Plays a playout from a state, and plans to search the state before its end and to play from
the successors of the state. -/
def plant [Dice ε] (s : State) : Action (Hosted (Solver R) ε) Unit := do
  if (← Hosted.read).seeded.contains s then return
  Hosted.change fun solver => { solver with seeded := solver.seeded.insert s }
  if let some last ← p.playToKnown p.maxPlies s none then
    postpone [.seed last, .search last p.range.lower p.range.upper]
  let children ← p.children? s
  let seeded := (← Hosted.read).seeded
  postpone ((children.filter fun c => !seeded.contains c).map .seed)

/-- Whether the bounds of a state say all that a window asks for. -/
def answers (bounds : Option (Bounds R)) (low high : R) : Bool :=
  bounds.any fun b => b.isExact || decide (high ≤ b.lower) || decide (b.upper ≤ low)

/-- Searches a state, or puts the search behind those of its successors. -/
def search (s : State) (low high : R) : Action (Hosted (Solver R) ε) Unit := do
  if answers ((← Hosted.read).entries[s]?) low high then return
  if ← p.game.isTerminal s then
    p.settleTerminal s
    return
  let children ← p.children? s
  match p.judge (← Hosted.read).entries (← s.control?) low high children with
  | .settled b => p.tighten s b
  | .waiting tasks =>
    Hosted.change fun solver =>
      { solver with queue := (solver.queue.pushFront (.search s low high)).prepend tasks }

def perform [Dice ε] : Task R → Action (Hosted (Solver R) ε) Unit
  | .seed s => p.plant s
  | .search s low high => p.search s low high

/-- Fills the queue of a solver that has nothing to do. -/
def restart : Action (Hosted (Solver R) ε) Unit := do
  let solver ← Hosted.read
  if (solver.value? p.origin).isSome then
    Hosted.change fun solver => { solver with isDone := true }
  else
    if !solver.seeded.contains p.origin then postpone [.seed p.origin]
    postpone [.search p.origin p.range.lower p.range.upper]

/-- Does the next task; the solver is done once the value of the state that was asked for is
known. -/
def step [Dice ε] : Action (Hosted (Solver R) ε) Unit := do
  if (← Hosted.read).isDone then return
  if (← Hosted.read).queue.isEmpty then p.restart
  match (← Hosted.read).queue.popFront? with
  | none => return
  | some (task, rest) =>
    Hosted.change fun solver => { solver with queue := rest }
    p.perform task
    if ((← Hosted.read).value? p.origin).isSome then
      Hosted.change fun solver => { solver with isDone := true }

/-- Makes up to `count` steps, fewer if everything is known or a step fails: how many entries and
how many tasks there were after each step, and how the last one failed, if it did. -/
def advance [Dice ε] : (count : Nat) → (sizes : Array (Nat × Nat)) → Hosted (Solver R) ε →
    (Array (Nat × Nat) × Option Fault) × Hosted (Solver R) ε
  | 0, sizes, s => ((sizes, none), s)
  | count + 1, sizes, s =>
    if s.own.isDone then ((sizes, none), s)
    else
      match p.step s with
      | .error e s => ((sizes, some e), s)
      | .ok _ s => advance count (sizes.push (s.own.entries.size, s.own.queue.size)) s

end Problem

end Solver

end GameSearch
