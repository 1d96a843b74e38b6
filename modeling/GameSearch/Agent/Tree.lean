import GameSearch.Agent.Basic
import GameSearch.Agent.Settings
import GameSearch.Search.Repeater
import GameSearch.Tree.Develop
import GameSearch.Tree.Search

/-!
# Searching agents

A searching agent keeps one or more trees in an arena.  Asked for a move, it develops the trees to
the present ply, does simulations until its time is up, chooses the move that the simulations favour,
and commits itself to it.  What the trees are and how a simulation goes is up to a `SearchMethod`.
-/

namespace GameSearch

/-- An agent with search trees, and a memory of what else its method needs. -/
structure TreeAgent (μ R ε : Type) where
  seat : Seat
  settings : SearchSettings
  /-- Picks the ways that simulations go. -/
  selector : Selector R ε
  /-- Picks the move to play. -/
  chooser : Selector R ε
  evaluator : Evaluator R ε
  memory : μ
  /-- How the last search went. -/
  lastSearch : Repeater.Outcome := {}
  arena : Arena R := ∅

/-- What a searching agent does. -/
abbrev Deliberation (μ R ε α : Type) := Action (Hosted (TreeAgent μ R ε) ε) α

/-- Ways of searching. -/
class SearchMethod (μ R ε : Type) where
  /-- The name of agents that use the method. -/
  name : String
  /-- The memory before a match. -/
  fresh : μ
  /-- Plants the trees at the initial state. -/
  plant : Deliberation μ R ε Unit
  /-- Develops the trees to a ply at which the agent's role has the given view. -/
  develop : (ply : Int) → View → Deliberation μ R ε Unit
  step : Deliberation μ R ε Unit
  /-- The node that the move is chosen at. -/
  decisionNode : Deliberation μ R ε NodeId
  commit : Move → Deliberation μ R ε Unit

namespace TreeAgent

variable {μ R ε α : Type}

/-- How many simulations are done at most for a move, however slow the clock is. -/
def maxSteps : Nat := 1 <<< 50

/-! ## Parts of an agent -/

/-- An action on the trees of an agent. -/
def onTrees (action : Action (Hosted (Arena R) ε) α) : Deliberation μ R ε α :=
  fun ⟨⟨seat, settings, selector, chooser, evaluator, memory, last, arena⟩, host⟩ =>
    match action ⟨arena, host⟩ with
    | .ok a ⟨arena, host⟩ =>
      .ok a ⟨⟨seat, settings, selector, chooser, evaluator, memory, last, arena⟩, host⟩
    | .error e ⟨arena, host⟩ =>
      .error e ⟨⟨seat, settings, selector, chooser, evaluator, memory, last, arena⟩, host⟩

/-- An action on the trees of an agent alone. -/
def onArena (action : Action (Arena R) α) : Deliberation μ R ε α := onTrees (Hosted.onOwn action)

/-- An action on the seat of an agent. -/
def onSeat (action : Action Seat α) : Deliberation μ R ε α :=
  fun ⟨⟨seat, settings, selector, chooser, evaluator, memory, last, arena⟩, host⟩ =>
    match action seat with
    | .ok a seat =>
      .ok a ⟨⟨seat, settings, selector, chooser, evaluator, memory, last, arena⟩, host⟩
    | .error e seat =>
      .error e ⟨⟨seat, settings, selector, chooser, evaluator, memory, last, arena⟩, host⟩

def remember (f : μ → μ) : Deliberation μ R ε Unit :=
  Hosted.change fun agent => { agent with memory := f agent.memory }

def memorized : Deliberation μ R ε μ := do return (← Hosted.read).memory

/-- The way an agent picks the ways that simulations go. -/
def theSelector : Deliberation μ R ε (Selector R ε) := do return (← Hosted.read).selector

/-- The way an agent estimates utilities. -/
def theEvaluator : Deliberation μ R ε (Evaluator R ε) := do return (← Hosted.read).evaluator

variable [SearchMethod μ R ε]

def theName : Deliberation μ R ε String := return SearchMethod.name μ R ε

def theGame : Deliberation μ R ε Game := do (← Hosted.read).seat.game? (← theName)

def theRole : Deliberation μ R ε Role := do (← Hosted.read).seat.role? (← theName)

/-! ## A match -/

/-- A match begins. -/
def prepare (role : Role) (ruleset : Ruleset) (startClock playClock : Clock.Settings Binary64) :
    Deliberation μ R ε Unit := do
  onSeat (Seat.take role ruleset startClock playClock)
  onArena (set (∅ : Arena R))
  SearchMethod.plant

/-- The match is over. -/
def leave : Deliberation μ R ε Unit := do
  onSeat (modify Seat.leave)
  onArena (set (∅ : Arena R))
  remember fun _ => SearchMethod.fresh R ε

/-- Does simulations for some time. -/
def search [Host ε] (timeout : Int) : Deliberation μ R ε Unit := fun s =>
  let run := Repeater.run (Hosted.onHost Host.readClock) (Repeater.lift SearchMethod.step) timeout
    maxSteps
  match run { inner := s } with
  | .ok outcome r =>
    let ⟨agent, host⟩ := r.inner
    .ok () ⟨{ agent with lastSearch := outcome }, host⟩
  | .error e r => .error e r.inner

/-- The line about an option that the debugging notes show. -/
def optionLine [Scalar R] (role : Role) (c : Candidate R) : Except Fault String := do
  let move ← c.key.turn.at? role
  let mean := Scalar.fixed 3 c.mean
  return s!"  {move}: {mean} ({c.playouts} playouts)"

/-- What the debugging notes show of the options at a node: those with the most playouts. -/
def optionLines [Scalar R] (role : Role) (limit : Int) (options : List (Candidate R)) :
    Except Fault (List String) := do
  let sorted := options.mergeSort fun a b => decide (b.playouts ≤ a.playouts)
  if 0 ≤ limit ∧ limit < options.length then
    let shown ← (sorted.take limit.toNat).mapM (optionLine role)
    return s!"options (top {limit} out of {options.length}):" :: shown
  else return "options:" :: (← sorted.mapM (optionLine role))

/-- Notes the options at a node. -/
def noteOptions [Scalar R] [Host ε] (id : NodeId) : Deliberation μ R ε Unit := do
  let role ← theRole
  let options ← (← onArena get).moveOptions? id role
  let limit := (← Hosted.read).settings.maxLoggedOptions
  let lines ← optionLines role limit options.toList
  Hosted.onHost (Host.report (.plain .debug ("\n".intercalate lines)))

/-- The move that the simulations favour. -/
def choose [Scalar R] (id : NodeId) : Deliberation μ R ε Move := do
  let chooser := (← Hosted.read).chooser
  let role ← theRole
  let arena ← onArena get
  Hosted.onHost (arena.chooseMove chooser id role)

/-- Finds a move by search. -/
def calculate [Scalar R] [Host ε] (ply timeLeft : Int) (view : View) :
    Deliberation μ R ε Move := do
  let game ← theGame
  let role ← theRole
  let began ← Hosted.onHost Host.readClock
  SearchMethod.develop ply view
  let used := (← Hosted.onHost Host.readClock) - began
  let playClock := (← Hosted.read).seat.playClock
  search ((← Hosted.read).settings.timeout playClock timeLeft used)
  let id ← SearchMethod.decisionNode
  let _ ← onArena (Arena.node id)
  let move ← choose id
  noteOptions id
  let name ← theName
  Hosted.onHost (Host.report (.chose name role.text move.text ply))
  SearchMethod.commit move
  if !(← game.isLegal? view role move) then throw (.illegalChoice name move.text)
  return move

instance [Scalar R] [Host ε] : Agent (TreeAgent μ R ε) ε where
  name _ := SearchMethod.name μ R ε
  prepare := prepare
  move := calculate
  conclude _ := leave
  abort := leave

end TreeAgent

/-- A searching agent over floating-point numbers; what is not given is made from the settings. -/
def TreeAgent.of? {μ ε : Type} [Dice ε] [SearchMethod μ Binary64 ε] (source : Option GameSource)
    (settings : SearchSettings) (selector chooser : Option (Selector Binary64 ε))
    (evaluator : Option (Evaluator Binary64 ε)) : Except Fault (TreeAgent μ Binary64 ε) := do
  let seat ← Seat.ofSource? source
  let selector ← match selector with
    | some selector => pure selector
    | none => Selector.upperConfidence? settings.explorationConstant
  let evaluator ← match evaluator with
    | some evaluator => pure evaluator
    | none =>
      let playouts ← PlayoutEvaluator.ofMaxDepth? settings.maxPlayoutDepth Evaluator.final
      pure playouts.toEvaluator
  return {
    seat := seat
    settings := settings
    selector := selector
    chooser := chooser.getD Selector.mostVisited
    evaluator := evaluator
    memory := SearchMethod.fresh Binary64 ε }

end GameSearch
