import GameSearch.Proofs.Match.Recording

/-!
# Transcripts of matches

`Transcript m r preparations rounds closing` says, call by call, how a match comes to its result.  The
relations below follow the loops of a match, one constructor for each way on.  Every match that
comes to a result leaves a record of such a transcript (`exists_transcript`).
-/

namespace GameSearch

/-- A call that an agent answered while its clock ran. -/
structure Exchange where
  role : Role
  call : Call
  began : Int
  ended : Int

namespace Exchange

def events (x : Exchange) : List Event := [.time x.began, .call x.role x.call, .time x.ended]

/-- A clock after it ran during the call. -/
def charge (x : Exchange) (clock : Clock) : Clock := ((clock.start x.began).stop x.ended).2

/-- The play with which the call was answered, if it was. -/
def play? (x : Exchange) : Option Play :=
  match x.call with
  | .move _ _ _ (.ok move) => some ⟨x.role, move⟩
  | _ => none

end Exchange

namespace Match

variable {α β ε : Type}

/-- The play clock of a role after some calls for moves. -/
def clockAfter (m : Match α) (role : Role) (calls : List Exchange) : Option Clock :=
  m.clocks[role]?.map fun clock => (calls.filter (·.role = role)).foldl (fun c x => x.charge c) clock

/-- A call that prepares the agent of a role for the match, and in what way the agent fails to respond,
if it does. -/
inductive Prepares (m : Match α) (x : Exchange) : Option String → Prop
  | raised {e : Fault} (call : x.call = .prepare x.role m.ruleset m.startClock m.playClock (.error e)) :
      Prepares m x (some e.message)
  | late (call : x.call = .prepare x.role m.ruleset m.startClock m.playClock (.ok ()))
      (expired : (x.charge (Clock.ofTimes m.startClock.times)).isExpired = true) :
      Prepares m x (some "start clock expired")
  | ready (call : x.call = .prepare x.role m.ruleset m.startClock m.playClock (.ok ()))
      (inTime : (x.charge (Clock.ofTimes m.startClock.times)).isExpired = false) : Prepares m x none

/-- The calls that prepare the agents of some roles, up to the first one that fails to respond. -/
inductive Preparations (m : Match α) : List Role → List Exchange → Option (Role × String) → Prop
  | done : Preparations m [] [] none
  | failed {roles : List Role} {x : Exchange} {reason : String} (fails : Prepares m x (some reason)) :
      Preparations m (x.role :: roles) [x] (some (x.role, reason))
  | next {roles : List Role} {x : Exchange} {calls : List Exchange} {failure : Option (Role × String)}
      (ready : Prepares m x none) (rest : Preparations m roles calls failure) :
      Preparations m (x.role :: roles) (x :: calls) failure

/-- A call for a move at a ply: with what the role sees and with the time left on its clock, which the
earlier calls have been charged to. -/
structure Asks (m : Match α) (earlier : List Exchange) (ply : Nat) (s : State) (x : Exchange)
    (answer : Except Fault Move) : Prop where
  intro ::
  asked : ∃ clock view, m.clockAfter x.role earlier = some clock ∧ m.game.view? s x.role = .ok view ∧
    x.call = .move ply clock.left view answer

/-- Whether the play clock of a role is exceeded after a call for its move. -/
def Late (m : Match α) (earlier : List Exchange) (x : Exchange) : Prop :=
  ∃ clock, m.clockAfter x.role (earlier ++ [x]) = some clock ∧ clock.isExpired = true

/-- A call for a move, and the move if it is answered in time with a legal move, or else in what way
it is not. -/
inductive Answers (m : Match α) (earlier : List Exchange) (ply : Nat) (s : State) (x : Exchange) :
    Except String Move → Prop
  | raised {e : Fault} (asks : Asks m earlier ply s x (.error e)) :
      Answers m earlier ply s x (.error e.message)
  | late {move : Move} (asks : Asks m earlier ply s x (.ok move)) (late : Late m earlier x) :
      Answers m earlier ply s x (.error s!"play clock expired at ply {ply}")
  | illegal {move : Move} (asks : Asks m earlier ply s x (.ok move)) (inTime : ¬Late m earlier x)
      (illegal : m.game.isLegal? s x.role move = .ok false) :
      Answers m earlier ply s x (.error s!"illegal move {move} at ply {ply}")
  | move {move : Move} (asks : Asks m earlier ply s x (.ok move)) (inTime : ¬Late m earlier x)
      (legal : m.game.isLegal? s x.role move = .ok true) : Answers m earlier ply s x (.ok move)

/-- The calls for the moves of some roles in a state, up to the first one that fails to respond. -/
inductive Round (m : Match α) (ply : Nat) (s : State) :
    (earlier : List Exchange) → List Role → List Exchange → Except (Role × String) (List Play) → Prop
  | done {earlier : List Exchange} : Round m ply s earlier [] [] (.ok [])
  | failed {earlier : List Exchange} {roles : List Role} {x : Exchange} {reason : String}
      (fails : Answers m earlier ply s x (.error reason)) :
      Round m ply s earlier (x.role :: roles) [x] (.error (x.role, reason))
  | next {earlier : List Exchange} {roles : List Role} {x : Exchange} {move : Move}
      {calls : List Exchange} {answer : Except (Role × String) (List Play)}
      (moves : Answers m earlier ply s x (.ok move)) (rest : Round m ply s (earlier ++ [x]) roles calls answer) :
      Round m ply s earlier (x.role :: roles) (x :: calls) (answer.map (⟨x.role, move⟩ :: ·))

/-- The calls for moves from a state on, ply by ply, with the states that follow it. -/
inductive Plays (m : Match α) :
    (earlier : List Exchange) → (ply : Nat) → State → List (List Exchange) → List State →
      Option (Role × String) → Prop
  | ended {earlier : List Exchange} {ply : Nat} {s : State} (terminal : m.game.isTerminal s = .ok true) :
      Plays m earlier ply s [] [] none
  | failed {earlier : List Exchange} {ply : Nat} {s : State} {control : SortedSet Role}
      {round : List Exchange} {failure : Role × String} (ongoing : m.game.isTerminal s = .ok false)
      (control_eq : s.control? = .ok control)
      (fails : Round m ply s earlier control.toList round (.error failure)) :
      Plays m earlier ply s [round] [] (some failure)
  | next {earlier : List Exchange} {ply : Nat} {s next : State} {control : SortedSet Role}
      {round : List Exchange} {plays : List Play} {rounds : List (List Exchange)} {states : List State}
      {failure : Option (Role × String)} (ongoing : m.game.isTerminal s = .ok false)
      (control_eq : s.control? = .ok control)
      (moves : Round m ply s earlier control.toList round (.ok plays))
      (next_eq : m.game.next? s (.ofList plays) = .ok next)
      (rest : Plays m (earlier ++ round) (ply + 1) next rounds states failure) :
      Plays m earlier ply s (round :: rounds) (next :: states) failure

/-- What the agents are told when the match is broken off. -/
def Aborts (m : Match α) (closing : List (Role × Call)) : Prop :=
  closing.map Prod.fst = m.agents.keys ∧ ∀ told ∈ closing, ∃ answer, told.2 = .abort answer

/-- What the agents are told when the match has come to its end. -/
def Concludes (m : Match α) (last : State) (closing : List (Role × Call)) : Prop :=
  closing.map Prod.fst = m.agents.keys ∧
    ∀ told ∈ closing, ∃ view, m.game.view? last told.1 = .ok view ∧ told.2 = .conclude view (.ok ())

/-- How a match comes to its result: the preparations, the rounds of calls for moves, one for each ply,
and what the agents are told in the end. -/
inductive Transcript (m : Match α) :
    MatchResult → List Exchange → List (List Exchange) → List (Role × Call) → Prop
  | unprepared {preparations : List Exchange} {failure : Role × String} {closing : List (Role × Call)}
      (prepares : Preparations m m.agents.keys preparations (some failure)) (aborts : Aborts m closing) :
      Transcript m { failure := some failure } preparations [] closing
  | aborted {preparations : List Exchange} {rounds : List (List Exchange)} {states : List State}
      {failure : Role × String} {closing : List (Role × Call)}
      (prepares : Preparations m m.agents.keys preparations none)
      (plays : Plays m [] 0 m.game.start rounds states (some failure)) (aborts : Aborts m closing) :
      Transcript m { states := m.game.start :: states, failure := some failure } preparations rounds closing
  | concluded {preparations : List Exchange} {rounds : List (List Exchange)} {states : List State}
      {goals : ByRole (Option Int)} {closing : List (Role × Call)}
      (prepares : Preparations m m.agents.keys preparations none)
      (plays : Plays m [] 0 m.game.start rounds states none)
      (goals_eq : m.game.goals ((m.game.start :: states).getLastD m.game.start) = .ok goals)
      (concludes : Concludes m ((m.game.start :: states).getLastD m.game.start) closing) :
      Transcript m { states := m.game.start :: states, goals := goals } preparations rounds closing

def transcriptEvents (preparations : List Exchange) (rounds : List (List Exchange))
    (closing : List (Role × Call)) : List Event :=
  preparations.flatMap Exchange.events ++ rounds.flatten.flatMap Exchange.events ++
    closing.map fun told => .call told.1 told.2

/-! ## Every match leaves the record of a transcript -/

/-- A recorded match some calls after its beginning. -/
structure Attends (m : Match α) (calls : List Exchange) (t : RecordedTable α ε) : Prop where
  game : t.own.game = m.game
  ruleset : t.own.ruleset = m.ruleset
  startClock : t.own.startClock = m.startClock
  playClock : t.own.playClock = m.playClock
  keys : t.own.agents.keys = m.agents.keys
  roles : ∀ role (a : Recorded α), t.own.agents[role]? = some a → a.role = role
  clocks : ∀ role, t.own.clocks[role]? = m.clockAfter role calls

/-- A match that goes on from another moment of it writes some events. -/
def Writes (t t' : RecordedTable α ε) (events : List Event) : Prop := t'.host.log = t.host.log ++ events

variable {m : Match α} {calls : List Exchange} {role : Role} {t t' t'' : RecordedTable α ε}
  {events events' : List Event}

lemma writes_refl : Writes t t [] := (List.append_nil _).symm

lemma Writes.trans (h : Writes t t' events) (h' : Writes t' t'' events') :
    Writes t t'' (events ++ events') := by
  rw [Writes, h', h, List.append_assoc]

lemma keys_insert {γ : Type} {agents : ByRole γ} {a b : γ} (h : agents[role]? = some a) :
    (agents.insert role b).keys = agents.keys := by
  refine SortedSet.eq_of_sorted_of_mem_iff Std.ExtTreeMap.ordered_keys Std.ExtTreeMap.ordered_keys fun other => ?_
  rw [Std.ExtTreeMap.mem_keys, Std.ExtTreeMap.mem_keys, Std.ExtTreeMap.mem_insert, or_iff_right_of_imp]
  intro heq
  rw [← Std.LawfulEqOrd.eq_of_compare heq, Std.ExtTreeMap.mem_iff_isSome_getElem?, h]
  rfl

/-- The agent of a role may change, and the host, but nothing else does. -/
lemma Attends.insert {own : Match (Recorded α)} {host host' : Recording ε} {a b : Recorded α}
    (h : Attends m calls ⟨own, host⟩) (ha : own.agents[role]? = some a) (hrole : b.role = a.role) :
    Attends m calls (⟨{ own with agents := own.agents.insert role b }, host'⟩ : RecordedTable α ε) where
  game := h.game
  ruleset := h.ruleset
  startClock := h.startClock
  playClock := h.playClock
  keys := (keys_insert ha).trans h.keys
  roles other c hc := by
    rw [Std.ExtTreeMap.getElem?_insert] at hc
    split at hc
    · rename_i heq
      obtain rfl := Option.some.inj hc
      rw [hrole, h.roles role a ha, Std.LawfulEqOrd.eq_of_compare heq]
    · exact h.roles other c hc
  clocks := h.clocks

/-- An agent of the match notes what it is called for. -/
lemma attempt_withAgent {action : Action (Hosted α ε) β} {call : Except Fault β → Call}
    {answer : Except Fault β} (h : Attends m calls t)
    (hrun : attempt (withAgent role (Recorded.perform action call)) t = .ok answer t') :
    answer = .error .outOfRange ∨ (Attends m calls t' ∧ Writes t t' [.call role (call answer)]) := by
  obtain ⟨own, host⟩ := t
  cases ha : own.agents[role]? with
  | none =>
    simp only [attempt, withAgent, ha, EStateM.Result.ok.injEq] at hrun
    exact .inl hrun.1.symm
  | some a =>
    right
    have hrole := h.roles role a ha
    cases haction : action ⟨a.agent, host.inner⟩ with
    | ok b s =>
      simp only [attempt, withAgent, Recorded.perform, ha, haction, EStateM.Result.ok.injEq] at hrun
      obtain ⟨rfl, rfl⟩ := hrun
      exact ⟨h.insert ha rfl, by rw [Writes, hrole]⟩
    | error e s =>
      simp only [attempt, withAgent, Recorded.perform, ha, haction, EStateM.Result.ok.injEq] at hrun
      obtain ⟨rfl, rfl⟩ := hrun
      exact ⟨h.insert ha rfl, by rw [Writes, hrole]⟩

lemma read_bind_eq_ok {f : Match (Recorded α) → Action (RecordedTable α ε) β} {b : β} :
    (Hosted.read >>= f) t = .ok b t' ↔ f t.own t = .ok b t' := Iff.rfl

lemma clockOf_bind_eq_ok {f : Clock → Action (RecordedTable α ε) β} {b : β}
    (hrun : (clockOf role >>= f) t = .ok b t') :
    ∃ clock, t.own.clocks[role]? = some clock ∧ f clock t = .ok b t' := by
  obtain ⟨clock, u, hclock, hrun⟩ := Action.bind_eq_ok.1 hrun
  cases hown : t.own.clocks[role]? with
  | none =>
    simp only [clockOf, read_bind_eq_ok, hown] at hclock
    cases hclock
  | some c =>
    simp only [clockOf, read_bind_eq_ok, hown] at hclock
    cases hclock
    exact ⟨_, rfl, hrun⟩

lemma clockAfter_append {x : Exchange} {other : Role} :
    m.clockAfter other (calls ++ [x]) =
      if x.role = other then (m.clockAfter other calls).map x.charge else m.clockAfter other calls := by
  unfold clockAfter
  by_cases heq : x.role = other
  · simp [List.filter_append, heq, Function.comp_def]
  · simp [List.filter_append, heq]

lemma late_iff {x : Exchange} {clock : Clock} (h : m.clockAfter x.role calls = some clock) :
    Late m calls x ↔ (x.charge clock).isExpired = true := by
  simp [Late, clockAfter_append, h]

lemma Attends.setClock {own : Match (Recorded α)} {host : Recording ε} {x : Exchange} {clock : Clock}
    (h : Attends m calls ⟨own, host⟩) (hclock : m.clockAfter x.role calls = some clock) :
    Attends m (calls ++ [x])
      (⟨{ own with clocks := own.clocks.insert x.role (x.charge clock) }, host⟩ : RecordedTable α ε) where
  game := h.game
  ruleset := h.ruleset
  startClock := h.startClock
  playClock := h.playClock
  keys := h.keys
  roles := h.roles
  clocks other := by
    rw [Std.ExtTreeMap.getElem?_insert, clockAfter_append]
    by_cases heq : x.role = other
    · subst heq
      simp [hclock]
    · simp only [Std.compare_eq_iff_eq, heq, if_false]
      exact h.clocks other

lemma forIn_writes {roles : List Role} {x : Role → Action (RecordedTable α ε) Unit}
    {told : Role → Call → Prop} {u : PUnit} (h : Attends m calls t)
    (step : ∀ t role u t', Attends m calls t → x role t = .ok u t' →
      ∃ call, told role call ∧ Attends m calls t' ∧ Writes t t' [.call role call])
    (hrun : forIn roles ⟨⟩ (fun role _ => x role >>= fun _ => pure (.yield ⟨⟩)) t = .ok u t') :
    ∃ closing : List (Role × Call), closing.map Prod.fst = roles ∧ (∀ c ∈ closing, told c.1 c.2) ∧
      Attends m calls t' ∧ Writes t t' (closing.map fun c => .call c.1 c.2) := by
  induction roles generalizing t with
  | nil =>
    cases hrun
    exact ⟨[], rfl, by simp, h, writes_refl⟩
  | cons role roles ih =>
    rw [List.forIn_cons, bind_assoc] at hrun
    obtain ⟨v, t₁, hx, hrun⟩ := Action.bind_eq_ok.1 hrun
    obtain ⟨call, htold, h₁, hw₁⟩ := step t role v t₁ h hx
    obtain ⟨closing, hroles, hclosing, h₂, hw₂⟩ := ih h₁ hrun
    exact ⟨(role, call) :: closing, by rw [List.map_cons, hroles], List.forall_mem_cons.2 ⟨htold, hclosing⟩,
      h₂, hw₁.trans hw₂⟩

lemma attends_recorded (host : ε) :
    Attends m [] (⟨m.recorded, { inner := host }⟩ : RecordedTable α ε) where
  game := rfl
  ruleset := rfl
  startClock := rfl
  playClock := rfl
  keys := Std.ExtTreeMap.keys_map
  roles role a ha := by
    simp only [recorded, withAgents, Std.ExtTreeMap.getElem?_map, Option.map_eq_some_iff] at ha
    obtain ⟨agent, -, rfl⟩ := ha
    rfl
  clocks role := by simp [clockAfter, recorded, withAgents]

variable [Host ε]

lemma now_eq_ok {time : Int} (h : Attends m calls t) (hrun : now t = .ok time t') :
    Attends m calls t' ∧ Writes t t' [.time time] := by
  cases hrun
  exact ⟨⟨h.game, h.ruleset, h.startClock, h.playClock, h.keys, h.roles, h.clocks⟩, rfl⟩

lemma note_eq_ok {n : Note} {u : Unit} (h : Attends m calls t) (hrun : note n t = .ok u t') :
    Attends m calls t' ∧ Writes t t' [] := by
  cases hrun
  exact ⟨⟨h.game, h.ruleset, h.startClock, h.playClock, h.keys, h.roles, h.clocks⟩, writes_refl⟩

/-- What comes of a call: the answer, or the message of the fault. -/
def respond : Except Fault β → Except String β
  | .ok b => .ok b
  | .error e => .error e.message

/-- A call during which a clock runs. -/
lemma ask_eq_ok {action : Action (Hosted α ε) β} {call : Except Fault β → Call} {clock clock' : Clock}
    {answer : Except String β} (h : Attends m calls t)
    (hrun : ask role clock (Recorded.perform action call) t = .ok (answer, clock') t') :
    ∃ (x : Exchange) (raw : Except Fault β), x.role = role ∧ x.call = call raw ∧ clock' = x.charge clock ∧
      answer = respond raw ∧ Attends m calls t' ∧ Writes t t' x.events := by
  unfold ask at hrun
  obtain ⟨began, t₁, hnow, hrun⟩ := Action.bind_eq_ok.1 hrun
  obtain ⟨raw, t₂, hcall, hrun⟩ := Action.bind_eq_ok.1 hrun
  obtain ⟨h₁, hw₁⟩ := now_eq_ok h hnow
  have hagent := attempt_withAgent h₁ hcall
  cases raw with
  | ok b =>
    obtain ⟨ended, t₃, hend, hrun⟩ := Action.bind_eq_ok.1 hrun
    cases hrun
    rcases hagent with hnone | ⟨h₂, hw₂⟩
    · cases hnone
    · obtain ⟨h₃, hw₃⟩ := now_eq_ok h₂ hend
      exact ⟨⟨role, call (.ok b), began, ended⟩, .ok b, rfl, rfl, rfl, rfl, h₃, (hw₁.trans hw₂).trans hw₃⟩
  | error e =>
    by_cases hkind : e.kind.isRecoverable = true
    · simp only [hkind, if_true] at hrun
      obtain ⟨ended, t₃, hend, hrun⟩ := Action.bind_eq_ok.1 hrun
      cases hrun
      rcases hagent with hnone | ⟨h₂, hw₂⟩
      · cases hnone
        cases hkind
      · obtain ⟨h₃, hw₃⟩ := now_eq_ok h₂ hend
        exact ⟨⟨role, call (.error e), began, ended⟩, .error e, rfl, rfl, rfl, rfl, h₃,
          (hw₁.trans hw₂).trans hw₃⟩
    · simp only [hkind] at hrun
      cases hrun

variable [Agent α ε]

lemma prepare_eq_ok {failure : Option String} (h : Attends m calls t)
    (hrun : prepare role t = .ok failure t') :
    ∃ x : Exchange, x.role = role ∧ Prepares m x failure ∧ Attends m calls t' ∧ Writes t t' x.events := by
  unfold prepare at hrun
  obtain ⟨⟨answer, clock⟩, t₁, hask, hrun⟩ := Action.bind_eq_ok.1 (read_bind_eq_ok.1 hrun)
  obtain ⟨x, raw, rfl, hcall, rfl, rfl, h', hw⟩ := ask_eq_ok h hask
  rw [h.ruleset, h.startClock, h.playClock] at hcall
  cases raw with
  | error e =>
    cases hrun
    exact ⟨x, rfl, .raised hcall, h', hw⟩
  | ok u =>
    simp only [respond, h.startClock] at hrun
    cases hexpired : (x.charge (Clock.ofTimes m.startClock.times)).isExpired with
    | true =>
      rw [hexpired] at hrun
      cases hrun
      exact ⟨x, rfl, .late hcall hexpired, h', hw⟩
    | false =>
      rw [hexpired] at hrun
      cases hrun
      exact ⟨x, rfl, .ready hcall hexpired, h', hw⟩

lemma prepareAll_eq_ok {roles : List Role} {failure : Option (Role × String)} (h : Attends m calls t)
    (hrun : prepareAll roles t = .ok failure t') :
    ∃ preparations, Preparations m roles preparations failure ∧ Attends m calls t' ∧
      Writes t t' (preparations.flatMap Exchange.events) := by
  induction roles generalizing t with
  | nil =>
    cases hrun
    exact ⟨[], .done, h, writes_refl⟩
  | cons role roles ih =>
    rw [prepareAll] at hrun
    obtain ⟨answer, t₁, hprepare, hrun⟩ := Action.bind_eq_ok.1 hrun
    obtain ⟨x, rfl, hprepares, h₁, hw₁⟩ := prepare_eq_ok h hprepare
    cases answer with
    | some reason =>
      cases hrun
      exact ⟨[x], .failed hprepares, h₁, by simpa using hw₁⟩
    | none =>
      obtain ⟨preparations, hrest, h₂, hw₂⟩ := ih h₁ hrun
      exact ⟨x :: preparations, .next hprepares hrest, h₂, hw₁.trans hw₂⟩

lemma requestMove_eq_ok {ply : Nat} {s : State} {answer : Except String Move} (h : Attends m calls t)
    (hrun : requestMove role ply s t = .ok answer t') :
    ∃ x : Exchange, x.role = role ∧ Answers m calls ply s x answer ∧ Attends m (calls ++ [x]) t' ∧
      Writes t t' x.events := by
  unfold requestMove at hrun
  obtain ⟨clock, hclock, hrun⟩ := clockOf_bind_eq_ok hrun
  rw [h.clocks] at hclock
  obtain ⟨view, hview, hrun⟩ := Action.lift_bind_eq_ok.1 hrun
  obtain ⟨⟨result, clock'⟩, t₂, hask, hrun⟩ := Action.bind_eq_ok.1 hrun
  obtain ⟨x, raw, rfl, hcall, rfl, rfl, h₂, hw₂⟩ := ask_eq_ok h hask
  obtain ⟨u, t₃, hset, hrun⟩ := Action.bind_eq_ok.1 hrun
  cases hset
  rw [h.game] at hview hrun
  have hasks : Asks m calls ply s x raw := ⟨clock, view, hclock, hview, hcall⟩
  have h₃ := h₂.setClock hclock
  cases raw with
  | error e =>
    cases hrun
    exact ⟨x, rfl, .raised hasks, h₃, hw₂⟩
  | ok move =>
    simp only [respond] at hrun
    by_cases hlate : (x.charge clock).isExpired = true
    · rw [if_pos hlate] at hrun
      cases hrun
      exact ⟨x, rfl, .late hasks ((late_iff hclock).2 hlate), h₃, hw₂⟩
    · rw [if_neg hlate] at hrun
      have htime : ¬Late m calls x := fun h => hlate ((late_iff hclock).1 h)
      obtain ⟨legal, hlegal, hrun⟩ := Action.lift_bind_eq_ok.1 hrun
      cases legal with
      | true =>
        cases hrun
        exact ⟨x, rfl, .move hasks htime hlegal, h₃, hw₂⟩
      | false =>
        cases hrun
        exact ⟨x, rfl, .illegal hasks htime hlegal, h₃, hw₂⟩

lemma requestPlays_eq_ok {ply : Nat} {s : State} {roles : List Role}
    {answer : Except (Role × String) (List Play)} (h : Attends m calls t)
    (hrun : requestPlays ply s roles t = .ok answer t') :
    ∃ round, Round m ply s calls roles round answer ∧ Attends m (calls ++ round) t' ∧
      Writes t t' (round.flatMap Exchange.events) := by
  induction roles generalizing calls t t' answer with
  | nil =>
    cases hrun
    exact ⟨[], .done, by rwa [List.append_nil], writes_refl⟩
  | cons role roles ih =>
    rw [requestPlays] at hrun
    obtain ⟨first, t₁, hmove, hrun⟩ := Action.bind_eq_ok.1 hrun
    obtain ⟨x, rfl, hanswers, h₁, hw₁⟩ := requestMove_eq_ok h hmove
    cases first with
    | error reason =>
      cases hrun
      exact ⟨[x], .failed hanswers, h₁, by simpa using hw₁⟩
    | ok move =>
      obtain ⟨others, t₂, hothers, hrun⟩ := Action.bind_eq_ok.1 hrun
      obtain ⟨round, hround, h₂, hw₂⟩ := ih h₁ hothers
      rw [List.append_assoc] at h₂
      cases others with
      | error failure =>
        cases hrun
        exact ⟨x :: round, .next hanswers hround, h₂, hw₁.trans hw₂⟩
      | ok plays =>
        cases hrun
        exact ⟨x :: round, .next hanswers hround, h₂, hw₁.trans hw₂⟩

lemma playFrom_eq_ok {limit ply : Nat} {s : State} {states : List State}
    {failure : Option (Role × String)} (h : Attends m calls t)
    (hrun : playFrom limit ply s t = .ok (states, failure) t') :
    ∃ rounds, Plays m calls ply s rounds states failure ∧ Attends m (calls ++ rounds.flatten) t' ∧
      Writes t t' (rounds.flatten.flatMap Exchange.events) := by
  -- The bound on the plies is what the recursion is on; `Attends` carries the calls so far through it.
  induction limit generalizing calls ply s t t' states failure with
  | zero =>
    rw [playFrom] at hrun
    obtain ⟨terminal, hended, hrun⟩ := Action.lift_bind_eq_ok.1 (read_bind_eq_ok.1 hrun)
    rw [h.game] at hended
    cases terminal with
    | true =>
      cases hrun
      exact ⟨[], .ended hended, by simpa using h, writes_refl⟩
    | false => cases hrun
  | succ limit ih =>
    rw [playFrom] at hrun
    obtain ⟨terminal, hended, hrun⟩ := Action.lift_bind_eq_ok.1 (read_bind_eq_ok.1 hrun)
    rw [h.game] at hended
    cases terminal with
    | true =>
      cases hrun
      exact ⟨[], .ended hended, by simpa using h, writes_refl⟩
    | false =>
      simp only [Bool.false_eq_true, if_false] at hrun
      obtain ⟨control, hcontrol, hrun⟩ := Action.lift_bind_eq_ok.1 hrun
      obtain ⟨answer, t₃, hplays, hrun⟩ := Action.bind_eq_ok.1 hrun
      obtain ⟨round, hround, h₃, hw₃⟩ := requestPlays_eq_ok h hplays
      cases answer with
      | error failure =>
        cases hrun
        exact ⟨[round], .failed hended hcontrol hround, by simpa using h₃, by simpa using hw₃⟩
      | ok plays =>
        obtain ⟨u, t₄, hnote, hrun⟩ := Action.bind_eq_ok.1 hrun
        obtain ⟨h₄, hw₄⟩ := note_eq_ok h₃ hnote
        obtain ⟨next, hnext, hrun⟩ := Action.lift_bind_eq_ok.1 hrun
        rw [h.game] at hnext
        obtain ⟨⟨later, failure'⟩, t₆, hrest, hrun⟩ := Action.bind_eq_ok.1 hrun
        cases hrun
        obtain ⟨rounds, hrounds, h₆, hw₆⟩ := ih h₄ hrest
        refine ⟨round :: rounds, .next hended hcontrol hround hnext hrounds, ?_, ?_⟩
        · rwa [List.flatten_cons, ← List.append_assoc]
        · simpa using (hw₃.trans hw₄).trans hw₆

lemma abortAgent_eq_ok {u : Unit} (h : Attends m calls t) (hrun : abortAgent role t = .ok u t') :
    ∃ call, (∃ answer, call = .abort answer) ∧ Attends m calls t' ∧ Writes t t' [.call role call] := by
  unfold abortAgent at hrun
  obtain ⟨answer, t₁, hcall, hrun⟩ := Action.bind_eq_ok.1 hrun
  have hagent := attempt_withAgent h hcall
  cases answer with
  | ok v =>
    cases hrun
    rcases hagent with hnone | hagent
    · cases hnone
    · exact ⟨_, ⟨_, rfl⟩, hagent⟩
  | error e =>
    by_cases hkind : e.kind.isOwn = true
    · simp only [hkind, if_true] at hrun
      rcases hagent with hnone | ⟨h₁, hw₁⟩
      · cases hnone
        cases hkind
      · obtain ⟨h₂, hw₂⟩ := note_eq_ok h₁ hrun
        exact ⟨_, ⟨_, rfl⟩, h₂, hw₁.trans hw₂⟩
    · simp only [hkind] at hrun
      cases hrun

lemma abort_eq_ok {reason : String} {u : Unit} (h : Attends m calls t)
    (hrun : abort role reason t = .ok u t') :
    ∃ closing, Aborts m closing ∧ Writes t t' (closing.map fun c => .call c.1 c.2) := by
  unfold abort at hrun
  have hrun := read_bind_eq_ok.1 hrun
  obtain ⟨v, t₁, hnote, hrun⟩ := Action.bind_eq_ok.1 hrun
  obtain ⟨h₁, hw₁⟩ := note_eq_ok h hnote
  obtain ⟨v, t₂, hloop, hrun⟩ := Action.bind_eq_ok.1 hrun
  cases hrun
  rw [h.keys] at hloop
  obtain ⟨closing, hroles, haborts, -, hw₂⟩ :=
    forIn_writes h₁ (fun _ _ _ _ h hcall => abortAgent_eq_ok h hcall) hloop
  exact ⟨closing, ⟨hroles, haborts⟩, hw₁.trans hw₂⟩

omit [Host ε] in
/-- An agent that concludes the match notes what it was shown. -/
lemma concludeAgent_eq_ok {view : View} {u : Unit} (h : Attends m calls t)
    (hrun : withAgent role (Agent.conclude view) t = .ok u t') :
    Attends m calls t' ∧ Writes t t' [.call role (.conclude view (.ok ()))] := by
  have hattempt : attempt (withAgent role (Agent.conclude view)) t = .ok (.ok u) t' := by
    rw [attempt, hrun]
  rcases attempt_withAgent h hattempt with hnone | hagent
  · cases hnone
  · exact hagent

lemma conclude_eq_ok {states : List State} {last : State} {goals : ByRole (Option Int)}
    (h : Attends m calls t) (hrun : conclude states last t = .ok goals t') :
    m.game.goals last = .ok goals ∧
      ∃ closing, Concludes m last closing ∧ Writes t t' (closing.map fun c => .call c.1 c.2) := by
  unfold conclude at hrun
  have hrun := read_bind_eq_ok.1 hrun
  obtain ⟨sees, hsees, hrun⟩ := Action.lift_bind_eq_ok.1 hrun
  obtain ⟨v, t₁, hloop, hrun⟩ := Action.bind_eq_ok.1 hrun
  rw [h.game] at hsees hrun
  rw [h.keys] at hloop
  have hview : ∀ role, m.game.view? last role = .ok (sees.getD role ∅) := fun role => by
    simp [Game.view?, hsees, bind, Except.bind, pure, Except.pure]
  have hstep : ∀ (t : RecordedTable α ε) role u t', Attends m calls t →
      withAgent role (Agent.conclude (sees.getD role ∅)) t = .ok u t' →
      ∃ call, (∃ view, m.game.view? last role = .ok view ∧ call = .conclude view (.ok ())) ∧
        Attends m calls t' ∧ Writes t t' [.call role call] := fun t role u t' h hcall =>
    ⟨_, ⟨_, hview role, rfl⟩, concludeAgent_eq_ok h hcall⟩
  obtain ⟨closing, hroles, hcloses, h₁, hw₁⟩ := forIn_writes h hstep hloop
  obtain ⟨goals', hgoals, hrun⟩ := Action.lift_bind_eq_ok.1 hrun
  obtain ⟨v, t₂, hnote, hrun⟩ := Action.bind_eq_ok.1 hrun
  obtain ⟨-, hw₂⟩ := note_eq_ok h₁ hnote
  cases hrun
  exact ⟨hgoals, closing, ⟨hroles, hcloses⟩, by simpa using hw₁.trans hw₂⟩

lemma run_eq_ok {r : MatchResult} (h : Attends m [] t) (hrun : run t = .ok r t') :
    ∃ preparations rounds closing, Transcript m r preparations rounds closing ∧
      Writes t t' (transcriptEvents preparations rounds closing) := by
  unfold run at hrun
  have hrun := read_bind_eq_ok.1 hrun
  obtain ⟨failure, t₁, hprepare, hrun⟩ := Action.bind_eq_ok.1 hrun
  rw [h.keys] at hprepare
  obtain ⟨preparations, hpreparations, h₁, hw₁⟩ := prepareAll_eq_ok h hprepare
  cases failure with
  | some failure =>
    obtain ⟨u, t₂, habort, hrun⟩ := Action.bind_eq_ok.1 hrun
    obtain ⟨closing, hcloses, hw₂⟩ := abort_eq_ok h₁ habort
    cases hrun
    exact ⟨preparations, [], closing, .unprepared hpreparations hcloses, by
      simpa [transcriptEvents] using hw₁.trans hw₂⟩
  | none =>
    obtain ⟨⟨states, failure⟩, t₂, hplay, hrun⟩ := Action.bind_eq_ok.1 hrun
    rw [h.game] at hplay hrun
    obtain ⟨rounds, hplays, h₂, hw₂⟩ := playFrom_eq_ok h₁ hplay
    cases failure with
    | some failure =>
      obtain ⟨u, t₃, habort, hrun⟩ := Action.bind_eq_ok.1 hrun
      obtain ⟨closing, hcloses, hw₃⟩ := abort_eq_ok h₂ habort
      cases hrun
      exact ⟨preparations, rounds, closing, .aborted hpreparations hplays hcloses,
        (hw₁.trans hw₂).trans hw₃⟩
    | none =>
      obtain ⟨goals, t₃, hconclude, hrun⟩ := Action.bind_eq_ok.1 hrun
      obtain ⟨hgoals, closing, hcloses, hw₃⟩ := conclude_eq_ok h₂ hconclude
      cases hrun
      exact ⟨preparations, rounds, closing, .concluded hpreparations hplays hgoals hcloses,
        (hw₁.trans hw₂).trans hw₃⟩

/-- How a match that comes to a result got there, and what its agents were called for. -/
theorem exists_transcript {host : ε} {r : MatchResult} {s : Hosted (Match α) ε}
    (hrun : run ⟨m, host⟩ = .ok r s) : ∃ preparations rounds closing,
      Transcript m r preparations rounds closing ∧
      m.record host = transcriptEvents preparations rounds closing := by
  rw [erase_run] at hrun
  cases hrecorded : run (⟨m.recorded, { inner := host }⟩ : RecordedTable α ε) with
  | error e t =>
    rw [hrecorded] at hrun
    cases hrun
  | ok r' t' =>
    rw [hrecorded] at hrun
    cases hrun
    obtain ⟨preparations, rounds, closing, htranscript, hw⟩ := run_eq_ok (attends_recorded host) hrecorded
    refine ⟨preparations, rounds, closing, htranscript, ?_⟩
    rw [record, hrecorded]
    exact hw

end Match

end GameSearch
