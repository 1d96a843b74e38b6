import GameSearch.Agent.MultiObserver
import GameSearch.Agent.Random
import GameSearch.Agent.Scripted

/-!
# Players

The agents of the library as one type, so that agents of different kinds can meet in a match.
-/

namespace GameSearch

/-- An agent of any kind. -/
inductive Player (ε : Type) where
  | random (agent : RandomAgent)
  | mcts (agent : TreeAgent Mcts Binary64 ε)
  | singleObserver (agent : TreeAgent SingleObserver Binary64 ε)
  | multiObserver (agent : TreeAgent MultiObserver Binary64 ε)
  | scripted (agent : ScriptedAgent)

namespace Player

variable {ε β : Type}

/-- Does something with an agent of one kind, and puts it back. -/
def within {α : Type} (wrap : α → Player ε) (action : Action (Hosted α ε) β) (agent : α)
    (host : ε) : EStateM.Result Fault (Hosted (Player ε) ε) β :=
  match action ⟨agent, host⟩ with
  | .ok b ⟨agent, host⟩ => .ok b ⟨wrap agent, host⟩
  | .error e ⟨agent, host⟩ => .error e ⟨wrap agent, host⟩

variable [Host ε]

/-- Does something that every agent can do. -/
def act (action : {α : Type} → [Agent α ε] → Action (Hosted α ε) β) :
    Action (Hosted (Player ε) ε) β := fun ⟨player, host⟩ =>
  match player with
  | .random agent => within .random action agent host
  | .mcts agent => within .mcts action agent host
  | .singleObserver agent => within .singleObserver action agent host
  | .multiObserver agent => within .multiObserver action agent host
  | .scripted agent => within .scripted action agent host

/-- Does something that only searching agents can do. -/
def deliberate (action : {μ : Type} → [SearchMethod μ Binary64 ε] → Deliberation μ Binary64 ε β) :
    Action (Hosted (Player ε) ε) (Option β) := fun ⟨player, host⟩ =>
  match player with
  | .mcts agent => within .mcts (some <$> action) agent host
  | .singleObserver agent => within .singleObserver (some <$> action) agent host
  | .multiObserver agent => within .multiObserver (some <$> action) agent host
  | player => .ok none ⟨player, host⟩

/-- Changes an agent in a way that every agent can be changed. -/
def map (f : {α : Type} → [Agent α ε] → α → α) : Player ε → Player ε
  | .random agent => .random (f agent)
  | .mcts agent => .mcts (f agent)
  | .singleObserver agent => .singleObserver (f agent)
  | .multiObserver agent => .multiObserver (f agent)
  | .scripted agent => .scripted (f agent)

def name : Player ε → String
  | .random agent => Agent.name ε agent
  | .mcts agent => Agent.name ε agent
  | .singleObserver agent => Agent.name ε agent
  | .multiObserver agent => Agent.name ε agent
  | .scripted agent => Agent.name ε agent

instance : Agent (Player ε) ε where
  name := name
  setUp := map (Agent.setUp ε)
  tearDown := map (Agent.tearDown ε)
  prepare role ruleset startClock playClock :=
    act (Agent.prepare role ruleset startClock playClock)
  move ply timeLeft view := act (Agent.move ply timeLeft view)
  conclude view := act (Agent.conclude view)
  abort := act Agent.abort

/-- The agent of the given name; the random agent has no use for settings. -/
def ofName? (name : String) (source : Option GameSource) (settings : SearchSettings)
    (selector chooser : Option (Selector Binary64 ε)) (evaluator : Option (Evaluator Binary64 ε)) :
    Except Fault (Player ε) :=
  match name with
  | "random" => .random <$> RandomAgent.ofSource? source
  | "mcts" => .mcts <$> TreeAgent.of? source settings selector chooser evaluator
  | "sois-mcts" => .singleObserver <$> TreeAgent.of? source settings selector chooser evaluator
  | "mo-ismcts" => .multiObserver <$> TreeAgent.of? source settings selector chooser evaluator
  | name => .error (.unknownAgent name)

end Player

end GameSearch
