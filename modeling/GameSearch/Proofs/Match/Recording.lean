import GameSearch.Match
import GameSearch.Proofs.Action

/-!
# Recorded matches

The agents of a recorded match note every call that they get, and its host notes what the match reads
off the clock.  Without the notes a recorded match goes as the match does (`erase_run`), so that what is
true of the record is true of what the agents were told.
-/

namespace GameSearch

/-- What an agent is called for, and what it answers. -/
inductive Call where
  | prepare (role : Role) (ruleset : Ruleset) (startClock playClock : Clock.Settings Binary64)
      (answer : Except Fault Unit)
  | move (ply left : Int) (view : View) (answer : Except Fault Move)
  | conclude (view : View) (answer : Except Fault Unit)
  | abort (answer : Except Fault Unit)

/-- What the record of a match consists of: readings of its clock and calls of its agents. -/
inductive Event where
  | time (t : Int)
  | call (role : Role) (call : Call)

/-- An agent that notes its calls under the role that it plays. -/
structure Recorded (α : Type) where
  role : Role
  agent : α

/-- A host with a record, the earliest event first. -/
structure Recording (ε : Type) where
  inner : ε
  log : List Event := []

variable {α β ε : Type}

/-- Only the match itself looks at this clock; its agents look at the one inside. -/
instance [Host ε] : Host (Recording ε) where
  roll n h r := ((Dice.roll n h r.inner).1, { r with inner := (Dice.roll n h r.inner).2 })
  now r := ((Host.now r.inner).1, ⟨(Host.now r.inner).2, r.log ++ [.time (Host.now r.inner).1]⟩)
  pause t r := { r with inner := Host.pause t r.inner }
  note n r := { r with inner := Host.note n r.inner }

namespace Recorded

/-- Lets the agent do something, and notes the call and the answer. -/
def perform (action : Action (Hosted α ε) β) (call : Except Fault β → Call) :
    Action (Hosted (Recorded α) (Recording ε)) β := fun ⟨a, r⟩ =>
  match action ⟨a.agent, r.inner⟩ with
  | .ok b ⟨agent, inner⟩ => .ok b ⟨⟨a.role, agent⟩, ⟨inner, r.log ++ [.call a.role (call (.ok b))]⟩⟩
  | .error e ⟨agent, inner⟩ =>
    .error e ⟨⟨a.role, agent⟩, ⟨inner, r.log ++ [.call a.role (call (.error e))]⟩⟩

instance [Agent α ε] : Agent (Recorded α) (Recording ε) where
  name a := Agent.name ε a.agent
  setUp a := { a with agent := Agent.setUp ε a.agent }
  tearDown a := { a with agent := Agent.tearDown ε a.agent }
  prepare role ruleset startClock playClock :=
    perform (Agent.prepare role ruleset startClock playClock) (.prepare role ruleset startClock playClock)
  move ply left view := perform (Agent.move ply left view) (.move ply left view)
  conclude view := perform (Agent.conclude view) (.conclude view)
  abort := perform Agent.abort .abort

end Recorded

namespace Match

/-- The match with other agents in the place of its own. -/
def withAgents {γ : Type} (m : Match α) (agents : ByRole γ) : Match γ where
  game := m.game
  ruleset := m.ruleset
  agents := agents
  startClock := m.startClock
  playClock := m.playClock
  clocks := m.clocks

/-- The match with agents that note their calls. -/
def recorded (m : Match α) : Match (Recorded α) :=
  m.withAgents (m.agents.map fun role agent => ⟨role, agent⟩)

/-- The events of the match, as far as it goes. -/
def record [Host ε] [Agent α ε] (m : Match α) (host : ε) : List Event :=
  match run ⟨m.recorded, ({ inner := host } : Recording ε)⟩ with
  | .ok _ t => t.host.log
  | .error _ t => t.host.log

/-! ## Taking the notes away -/

/-- A recorded match and its surroundings. -/
abbrev RecordedTable (α ε : Type) := Hosted (Match (Recorded α)) (Recording ε)

/-- The match without the notes. -/
def erase (s : RecordedTable α ε) : Hosted (Match α) ε :=
  ⟨s.own.withAgents (s.own.agents.map fun _ a => a.agent), s.host.inner⟩

/-- What comes of the match without the notes. -/
def eraseResult : EStateM.Result Fault (RecordedTable α ε) β →
    EStateM.Result Fault (Hosted (Match α) ε) β
  | .ok b s => .ok b (erase s)
  | .error e s => .error e (erase s)

/-- An action on a recorded match does what another one does on the match without the notes. -/
def Mirrors (x' : Action (RecordedTable α ε) β)
    (x : Action (Hosted (Match α) ε) β) : Prop := ∀ s, x (erase s) = eraseResult (x' s)

section

variable {γ : Type} {x' : Action (RecordedTable α ε) β}
  {x : Action (Hosted (Match α) ε) β}

lemma mirrors_pure (b : β) :
    Mirrors (pure b : Action (RecordedTable α ε) β) (pure b) := fun _ => rfl

lemma mirrors_throw (e : Fault) :
    Mirrors (throw e : Action (RecordedTable α ε) β) (throw e) := fun _ => rfl

lemma mirrors_lift (q : Except Fault β) :
    Mirrors (liftM q : Action (RecordedTable α ε) β) (liftM q) := by
  intro s
  cases q <;> rfl

lemma Mirrors.bind {f' : β → Action (RecordedTable α ε) γ}
    {f : β → Action (Hosted (Match α) ε) γ} (hx : Mirrors x' x) (hf : ∀ b, Mirrors (f' b) (f b)) :
    Mirrors (x' >>= f') (x >>= f) := by
  intro s
  have hs := hx s
  cases hx' : x' s with
  | ok b t =>
    rw [hx'] at hs
    rw [Action.bind_of_ok hx', Action.bind_of_ok hs, hf b t]
  | error e t =>
    rw [hx'] at hs
    rw [Action.bind_of_error hx', Action.bind_of_error hs]
    rfl

lemma mirrors_ite {y' : Action (RecordedTable α ε) β} {y : Action (Hosted (Match α) ε) β} (p : Prop)
    [Decidable p] (hx : Mirrors x' x) (hy : Mirrors y' y) :
    Mirrors (if p then x' else y') (if p then x else y) := by
  split
  · exact hx
  · exact hy

lemma mirrors_read {f' : Match (Recorded α) → Action (RecordedTable α ε) γ}
    {f : Match α → Action (Hosted (Match α) ε) γ}
    (hf : ∀ m : Match (Recorded α), Mirrors (f' m) (f (m.withAgents (m.agents.map fun _ a => a.agent)))) :
    Mirrors (Hosted.read >>= f') (Hosted.read >>= f) := fun s => hf s.own s

lemma mirrors_forIn {l : List γ} {f' : γ → PUnit → Action (RecordedTable α ε) (ForInStep PUnit)}
    {f : γ → PUnit → Action (Hosted (Match α) ε) (ForInStep PUnit)} (h : ∀ c, Mirrors (f' c ⟨⟩) (f c ⟨⟩)) :
    Mirrors (forIn l ⟨⟩ f') (forIn l ⟨⟩ f) := by
  induction l with
  | nil => exact mirrors_pure _
  | cons c l ih =>
    rw [List.forIn_cons, List.forIn_cons]
    refine (h c).bind fun r => ?_
    cases r with
    | done _ => exact mirrors_pure _
    | yield _ => exact ih

lemma mirrors_attempt (h : Mirrors x' x) : Mirrors (attempt x') (attempt x) := by
  intro s
  have hs := h s
  unfold attempt
  cases hx' : x' s with
  | ok b t =>
    rw [hx'] at hs
    simp only [hs]
    rfl
  | error e t =>
    rw [hx'] at hs
    simp only [hs]
    rfl

lemma map_insert (agents : ByRole (Recorded α)) (role : Role) (a : Recorded α) :
    (agents.insert role a).map (fun _ a => a.agent) = (agents.map fun _ a => a.agent).insert role a.agent := by
  refine Std.ExtTreeMap.ext_getElem? fun other => ?_
  simp only [Std.ExtTreeMap.getElem?_map, Std.ExtTreeMap.getElem?_insert]
  split <;> rfl

/-- The agent of a role does the same with notes and without. -/
lemma mirrors_withAgent (role : Role) (action : Action (Hosted α ε) β) (call : Except Fault β → Call) :
    Mirrors (withAgent role (Recorded.perform action call)) (withAgent role action) := by
  rintro ⟨m, r⟩
  have hagent : (m.agents.map fun _ a => a.agent)[role]? = m.agents[role]?.map (·.agent) :=
    Std.ExtTreeMap.getElem?_map
  cases ha : m.agents[role]? with
  | none => simp [withAgent, erase, withAgents, hagent, ha, eraseResult]
  | some a =>
    cases hrun : action ⟨a.agent, r.inner⟩ <;>
      simp [withAgent, Recorded.perform, erase, withAgents, hagent, ha, hrun, eraseResult, map_insert]

lemma mirrors_clockOf (role : Role) :
    Mirrors (clockOf role : Action (RecordedTable α ε) Clock) (clockOf role) := by
  refine mirrors_read fun m => ?_
  simp only [withAgents]
  cases m.clocks[role]? with
  | some clock => exact mirrors_pure _
  | none => exact mirrors_throw _

lemma mirrors_setClock (role : Role) (clock : Clock) :
    Mirrors (setClock role clock : Action (RecordedTable α ε) Unit) (setClock role clock) := fun _ => rfl

lemma erase_recorded (m : Match α) (host : ε) : erase ⟨m.recorded, ({ inner := host } : Recording ε)⟩ = ⟨m, host⟩ := by
  have hagents : (m.agents.map fun role agent => (⟨role, agent⟩ : Recorded α)).map (fun _ a => a.agent) =
      m.agents := by
    refine Std.ExtTreeMap.ext_getElem? fun role => ?_
    rw [Std.ExtTreeMap.getElem?_map, Std.ExtTreeMap.getElem?_map, Option.map_map]
    exact Option.map_id_apply
  simp [erase, recorded, withAgents, hagents]

end

section

variable [Host ε]

lemma mirrors_now : Mirrors (now : Action (RecordedTable α ε) Int) now := fun _ => rfl

lemma mirrors_note (n : Note) : Mirrors (note n : Action (RecordedTable α ε) Unit) (note n) := fun _ => rfl

lemma mirrors_ask (role : Role) (clock : Clock) (action : Action (Hosted α ε) β)
    (call : Except Fault β → Call) :
    Mirrors (ask role clock (Recorded.perform action call)) (ask role clock action) := by
  refine mirrors_now.bind fun began => (mirrors_attempt (mirrors_withAgent role action call)).bind fun answer => ?_
  cases answer with
  | ok b => exact mirrors_now.bind fun ended => mirrors_pure _
  | error e => exact mirrors_ite _ (mirrors_now.bind fun ended => mirrors_pure _) (mirrors_throw e)

variable [Agent α ε]

lemma mirrors_abortAgent (role : Role) :
    Mirrors (abortAgent role : Action (RecordedTable α ε) Unit) (abortAgent role) := by
  refine (mirrors_attempt (mirrors_withAgent role Agent.abort .abort)).bind fun answer => ?_
  cases answer with
  | ok _ => exact mirrors_pure _
  | error e => exact mirrors_ite _ (mirrors_note _) (mirrors_throw e)

lemma mirrors_abort (role : Role) (reason : String) :
    Mirrors (abort role reason : Action (RecordedTable α ε) Unit) (abort role reason) := by
  refine mirrors_read fun m => ?_
  have hname : ((m.agents.map fun _ a => a.agent)[role]?.map (Agent.name ε)).getD "" =
      (m.agents[role]?.map (Agent.name (Recording ε))).getD "" := by
    rw [Std.ExtTreeMap.getElem?_map, Option.map_map]
    rfl
  have hkeys : (m.agents.map fun _ a => a.agent).keys = m.agents.keys := Std.ExtTreeMap.keys_map
  simp only [withAgents, hname, hkeys]
  refine (mirrors_note _).bind fun _ => (mirrors_forIn fun other => ?_).bind fun _ => mirrors_pure _
  exact (mirrors_abortAgent other).bind fun _ => mirrors_pure _

lemma mirrors_prepare (role : Role) :
    Mirrors (prepare role : Action (RecordedTable α ε) (Option String)) (prepare role) := by
  refine mirrors_read fun m => (mirrors_ask role _ _ _).bind fun ⟨answer, clock⟩ => ?_
  cases answer with
  | error reason => exact mirrors_pure _
  | ok _ => exact mirrors_pure _

lemma mirrors_prepareAll (roles : List Role) :
    Mirrors (prepareAll roles : Action (RecordedTable α ε) (Option (Role × String))) (prepareAll roles) := by
  induction roles with
  | nil => exact mirrors_pure _
  | cons role rest ih =>
    refine (mirrors_prepare role).bind fun failure => ?_
    cases failure with
    | some reason => exact mirrors_pure _
    | none => exact ih

lemma mirrors_requestMove (role : Role) (ply : Nat) (s : State) :
    Mirrors (requestMove role ply s : Action (RecordedTable α ε) (Except String Move))
      (requestMove role ply s) := by
  refine (mirrors_clockOf role).bind fun clock => mirrors_read fun m => (mirrors_lift _).bind fun view =>
    (mirrors_ask role clock _ _).bind fun ⟨answer, clock'⟩ => (mirrors_setClock role clock').bind fun _ => ?_
  cases answer with
  | error reason => exact mirrors_pure _
  | ok move =>
    refine mirrors_ite _ (mirrors_pure _) ((mirrors_lift _).bind fun legal => ?_)
    exact mirrors_ite _ (mirrors_pure _) (mirrors_pure _)

lemma mirrors_requestPlays (ply : Nat) (s : State) (roles : List Role) :
    Mirrors (requestPlays ply s roles : Action (RecordedTable α ε) (Except (Role × String) (List Play)))
      (requestPlays ply s roles) := by
  induction roles with
  | nil => exact mirrors_pure _
  | cons role rest ih =>
    refine (mirrors_requestMove role ply s).bind fun answer => ?_
    cases answer with
    | error reason => exact mirrors_pure _
    | ok move =>
      refine ih.bind fun answer => ?_
      cases answer with
      | error failure => exact mirrors_pure _
      | ok plays => exact mirrors_pure _

lemma mirrors_playFrom (limit ply : Nat) (s : State) :
    Mirrors (playFrom limit ply s : Action (RecordedTable α ε) (List State × Option (Role × String)))
      (playFrom limit ply s) := by
  induction limit generalizing ply s with
  | zero =>
    refine mirrors_read fun m => (mirrors_lift _).bind fun ended => ?_
    exact mirrors_ite _ (mirrors_pure _) (mirrors_throw _)
  | succ limit ih =>
    refine mirrors_read fun m => (mirrors_lift _).bind fun ended => mirrors_ite _ (mirrors_pure _) ?_
    refine (mirrors_lift _).bind fun control => (mirrors_requestPlays ply s _).bind fun answer => ?_
    cases answer with
    | error failure => exact mirrors_pure _
    | ok plays =>
      refine (mirrors_note _).bind fun _ => (mirrors_lift _).bind fun next => ?_
      exact (ih (ply + 1) next).bind fun ⟨states, failure⟩ => mirrors_pure _

lemma mirrors_conclude (states : List State) (last : State) :
    Mirrors (conclude states last : Action (RecordedTable α ε) (ByRole (Option Int)))
      (conclude states last) := by
  refine mirrors_read fun m => (mirrors_lift _).bind fun sees => ?_
  have hkeys : (m.agents.map fun _ a => a.agent).keys = m.agents.keys := Std.ExtTreeMap.keys_map
  simp only [withAgents, hkeys]
  refine (mirrors_forIn fun role => (mirrors_withAgent role _ _).bind fun _ => mirrors_pure _).bind fun _ => ?_
  exact (mirrors_lift _).bind fun goals => (mirrors_note _).bind fun _ => mirrors_pure _

lemma mirrors_run : Mirrors (run : Action (RecordedTable α ε) MatchResult) run := by
  refine mirrors_read fun m => ?_
  have hkeys : (m.agents.map fun _ a => a.agent).keys = m.agents.keys := Std.ExtTreeMap.keys_map
  simp only [withAgents, hkeys]
  refine (mirrors_prepareAll _).bind fun failure => ?_
  cases failure with
  | some failure => exact (mirrors_abort _ _).bind fun _ => mirrors_pure _
  | none =>
    refine (mirrors_playFrom _ _ _).bind fun ⟨rest, failure⟩ => ?_
    cases failure with
    | some failure => exact (mirrors_abort _ _).bind fun _ => mirrors_pure _
    | none => exact (mirrors_conclude _ _).bind fun goals => mirrors_pure _

/-- A recorded match goes as the match itself does. -/
theorem erase_run (m : Match α) (host : ε) :
    run ⟨m, host⟩ = eraseResult (run ⟨m.recorded, ({ inner := host } : Recording ε)⟩) := by
  rw [← mirrors_run, erase_recorded]

end

end Match

end GameSearch
