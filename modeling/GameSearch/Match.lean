import GameSearch.Agent.Basic

/-!
# Matches

A match is played between agents, one for each role.  Every agent is prepared within the start clock;
then, as long as the play is not over, each role in control is asked for its move, within its own
play clock.  An agent that fails, takes too long or plays an illegal move does not respond: the match
is aborted, and every agent is told so.  Otherwise every agent is told how the match ended.  A failed
internal check ends the match with that fault.
-/

namespace GameSearch

/-- How a match went. -/
structure MatchResult where
  /-- The states, one per ply. -/
  states : List State := []
  /-- The goals at the end, if the match was not aborted. -/
  goals : ByRole (Option Int) := ∅
  /-- The role that did not respond, and in what way, if the match was aborted. -/
  failure : Option (Role × String) := none

namespace MatchResult

def isAborted (r : MatchResult) : Bool := r.failure.isSome

/-- The number of plies played; one less than none if the match did not begin. -/
def plies (r : MatchResult) : Int := r.states.length - 1

end MatchResult

/-- A match between agents. -/
structure Match (α : Type) where
  game : Game
  ruleset : Ruleset
  agents : ByRole α
  startClock : Clock.Settings Binary64
  playClock : Clock.Settings Binary64
  clocks : ByRole Clock

namespace Match

variable {α β ε : Type}

/-- More plies than a match can have. -/
def maxPlies : Nat := 1 <<< 50

/-- A match between the given agents: one for each role of the game, and no more. -/
def of? (game : Game) (ruleset : Ruleset) (agents : ByRole (Option α))
    (startClock playClock : Clock.Settings Binary64) : Except Fault (Match α) :=
  match game.roles.find? fun role => ((agents.getD role none)).isNone with
  | some role => .error (.noAgentFor role.text)
  | none =>
    if agents.size ≠ game.roles.length then .error (.agentCount agents.size game.roles.length)
    else .ok {
      game := game
      ruleset := ruleset
      agents := .ofList (agents.toList.filterMap fun (role, agent) => agent.map (role, ·))
      startClock := startClock
      playClock := playClock
      clocks := .ofList (game.roles.map fun role => (role, Clock.ofTimes playClock.times)) }

/-- Lets the agent of a role do something. -/
def withAgent (role : Role) (action : Action (Hosted α ε) β) : Action (Hosted (Match α) ε) β :=
  fun ⟨m, host⟩ =>
    match m.agents[role]? with
    | none => .error .outOfRange ⟨m, host⟩
    | some agent =>
      match action ⟨agent, host⟩ with
      | .ok b ⟨agent, host⟩ => .ok b ⟨{ m with agents := m.agents.insert role agent }, host⟩
      | .error e ⟨agent, host⟩ => .error e ⟨{ m with agents := m.agents.insert role agent }, host⟩

/-- Does something and tells how it failed, if it did. -/
def attempt {σ : Type} (action : Action σ β) : Action σ (Except Fault β) := fun s =>
  match action s with
  | .ok b s => .ok (.ok b) s
  | .error e s => .ok (.error e) s

variable [Host ε]

def now : Action (Hosted (Match α) ε) Int := Hosted.onHost Host.readClock

def note (n : Note) : Action (Hosted (Match α) ε) Unit := Hosted.onHost (Host.report n)

variable [Agent α ε]

/-- Tells an agent that the match is aborted. -/
def abortAgent (role : Role) : Action (Hosted (Match α) ε) Unit := do
  match ← attempt (withAgent role Agent.abort) with
  | .ok _ => return
  | .error e => if e.kind.isOwn then note (.abortFailed role.text e.message) else throw e

/-- Aborts the match, because of a role that did not respond. -/
def abort (role : Role) (reason : String) : Action (Hosted (Match α) ε) Unit := do
  let agents := (← Hosted.read).agents
  let name := (agents[role]?.map (Agent.name ε)).getD ""
  note (.noResponse role.text name reason)
  for other in agents.keys do
    abortAgent other

/-- What an agent answers, with a clock running: the answer, or in what way there is none, and the
clock after that.  Faults that are not the agent's are passed on. -/
def ask (role : Role) (clock : Clock) (action : Action (Hosted α ε) β) :
    Action (Hosted (Match α) ε) (Except String β × Clock) := do
  let clock := clock.start (← now)
  match ← attempt (withAgent role action) with
  | .ok b => return (.ok b, (clock.stop (← now)).2)
  | .error e =>
    if e.kind.isRecoverable then return (.error e.message, (clock.stop (← now)).2) else throw e

/-- Prepares the agent of a role: in what way it did not respond, if it did not. -/
def prepare (role : Role) : Action (Hosted (Match α) ε) (Option String) := do
  let m ← Hosted.read
  let (answer, clock) ← ask role (Clock.ofTimes m.startClock.times)
    (Agent.prepare role m.ruleset m.startClock m.playClock)
  match answer with
  | .error reason => return some reason
  | .ok _ => return if clock.isExpired then some "start clock expired" else none

/-- Prepares the agents of some roles: who did not respond, and in what way. -/
def prepareAll : List Role → Action (Hosted (Match α) ε) (Option (Role × String))
  | [] => return none
  | role :: rest => do
    match ← prepare role with
    | some reason => return some (role, reason)
    | none => prepareAll rest

def clockOf (role : Role) : Action (Hosted (Match α) ε) Clock := do
  match (← Hosted.read).clocks[role]? with
  | some clock => return clock
  | none => throw .outOfRange

def setClock (role : Role) (clock : Clock) : Action (Hosted (Match α) ε) Unit :=
  Hosted.change fun m => { m with clocks := m.clocks.insert role clock }

/-- Asks a role for its move: the move, or in what way it did not respond. -/
def requestMove (role : Role) (ply : Nat) (s : State) :
    Action (Hosted (Match α) ε) (Except String Move) := do
  let clock ← clockOf role
  let game := (← Hosted.read).game
  let view ← game.view? s role
  let (answer, clock) ← ask role clock (Agent.move ply clock.left view)
  setClock role clock
  match answer with
  | .error reason => return .error reason
  | .ok move =>
    if clock.isExpired then return .error s!"play clock expired at ply {ply}"
    if !(← game.isLegal? s role move) then return .error s!"illegal move {move} at ply {ply}"
    return .ok move

/-- Asks some roles for their moves: the plays, or who did not respond and in what way. -/
def requestPlays (ply : Nat) (s : State) :
    List Role → Action (Hosted (Match α) ε) (Except (Role × String) (List Play))
  | [] => return .ok []
  | role :: rest => do
    match ← requestMove role ply s with
    | .error reason => return .error (role, reason)
    | .ok move =>
      match ← requestPlays ply s rest with
      | .error failure => return .error failure
      | .ok plays => return .ok (⟨role, move⟩ :: plays)

/-- Plays from a state until the play is over or a role does not respond: the states after that one,
and who did not respond; `limit` bounds the number of plies. -/
def playFrom : (limit ply : Nat) → State →
    Action (Hosted (Match α) ε) (List State × Option (Role × String))
  | limit, ply, s => do
    let game := (← Hosted.read).game
    if ← game.isTerminal s then return ([], none)
    match limit with
    | 0 => throw .outOfSteps
    | limit + 1 =>
      match ← requestPlays ply s (← s.control?).toList with
      | .error failure => return ([], some failure)
      | .ok plays =>
        let turn := Turn.ofList plays
        note (.played ply turn.text)
        let next ← game.next? s turn
        let (states, failure) ← playFrom limit (ply + 1) next
        return (next :: states, failure)

/-- Tells every agent how the match ended: the goals. -/
def conclude (states : List State) (last : State) :
    Action (Hosted (Match α) ε) (ByRole (Option Int)) := do
  let m ← Hosted.read
  let sees ← m.game.sees last
  for role in m.agents.keys do
    withAgent role (Agent.conclude (sees.getD role ∅))
  let goals ← m.game.goals last
  let reached := goals.toList.filterMap fun (role, goal) => goal.map (role.text, ·)
  note (.matchOver (states.length - 1) reached)
  return goals

/-- Plays the match; the play clocks go on from where the last match between the agents left
them. -/
def run : Action (Hosted (Match α) ε) MatchResult := do
  let m ← Hosted.read
  match ← prepareAll m.agents.keys with
  | some (role, reason) =>
    abort role reason
    return { failure := some (role, reason) }
  | none =>
    let (rest, failure) ← playFrom maxPlies 0 m.game.start
    let states := m.game.start :: rest
    match failure with
    | some (role, reason) =>
      abort role reason
      return { states := states, failure := failure }
    | none =>
      return { states := states, goals := ← conclude states (states.getLastD m.game.start) }

end Match

end GameSearch
