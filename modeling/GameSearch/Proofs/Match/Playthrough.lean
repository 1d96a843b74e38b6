import GameSearch.Proofs.Match.Calls

/-!
# Matches as legal plays

Whatever the agents do and however long they take, the result of a match is a legal play of the game:
each state follows the one before it by the moves that the roles in control answered, and goals are
given just for a play to the end.
-/

namespace GameSearch.Match

variable {α ε : Type} {m : Match α} {earlier : List Exchange} {ply : Nat} {s next : State}
  {states : State → Prop} {preparations : List Exchange} {rounds : List (List Exchange)}
  {closing : List (Role × Call)} {r : MatchResult}

/-- Every call is answered in time, and those for moves with legal ones. -/
def Responsive (m : Match α) (r : MatchResult) (preparations : List Exchange)
    (rounds : List (List Exchange)) : Prop :=
  (∀ x ∈ preparations, Prepares m x none) ∧
    ∀ before x later, rounds.flatten = before ++ x :: later →
      ∃ ply s move, r.states[ply]? = some s ∧ Answers m before ply s x (.ok move)

/-- A role fails to respond, in some way, to the last call for which a clock runs, whether for its
preparation or for a move.  All calls before that one are answered. -/
def Unresponsive (m : Match α) (r : MatchResult) (preparations : List Exchange)
    (rounds : List (List Exchange)) (role : Role) (reason : String) : Prop :=
  (∃ before x, preparations = before ++ [x] ∧ x.role = role ∧ Prepares m x (some reason) ∧
    rounds = [] ∧ ∀ y ∈ before, Prepares m y none) ∨
  (∃ before x, rounds.flatten = before ++ [x] ∧ x.role = role ∧
    (∃ ply s, r.states[ply]? = some s ∧ Answers m before ply s x (.error reason)) ∧
    (∀ y ∈ preparations, Prepares m y none) ∧ Each (AtPly (Answered m) 0 r.states) [] before)

/-- What the result of a match says about its play. -/
structure Playthrough (m : Match α) (r : MatchResult) (preparations : List Exchange)
    (rounds : List (List Exchange)) : Prop where
  /-- There are no states only if an agent cannot be prepared. -/
  unplayed : r.states = [] → ∃ x ∈ preparations, ∃ reason, Prepares m x (some reason)
  /-- Otherwise the play starts in the initial state. -/
  start : r.states ≠ [] → r.states.head? = some m.game.start
  /-- A state that is followed by another one is not terminal, and the transition is the one by the
  moves that the roles in control answered. -/
  step : ∀ ply s next, r.states[ply]? = some s → r.states[ply + 1]? = some next →
    m.game.isTerminal s = .ok false ∧ ∃ control round, s.control? = .ok control ∧ rounds[ply]? = some round ∧
      round.map Exchange.role = control.toList ∧
      (Turn.ofList (round.filterMap Exchange.play?), next) ∈ m.game.transitions s
  /-- The match is not aborted just if the last state is terminal and every agent responds. -/
  completed : r.isAborted = false ↔
    (∃ last, r.states.getLast? = some last ∧ m.game.isTerminal last = .ok true) ∧
      Responsive m r preparations rounds
  /-- The goals at the end. -/
  goals : r.isAborted = false → ∃ last, r.states.getLast? = some last ∧ m.game.goals last = .ok r.goals
  /-- A match that is aborted gives no goals. -/
  noGoals : r.isAborted = true → r.goals = ∅
  /-- A match that is aborted tells who did not respond, and in what way. -/
  culprit : ∀ role reason, r.failure = some (role, reason) →
    Unresponsive m r preparations rounds role reason

/-- The moves of a round that succeeds are a turn of the game. -/
lemma mem_transitions_of_round {control : SortedSet Role} {round : List Exchange} {plays : List Play}
    (hgame : m.game.AnswersOn states) (hs : states s) (hterminal : m.game.isTerminal s = .ok false)
    (hcontrol : s.control? = .ok control) (hround : Round m ply s earlier control.toList round (.ok plays))
    (hnext : m.game.next? s (.ofList plays) = .ok next) :
    (Turn.ofList plays, next) ∈ m.game.transitions s := by
  obtain ⟨control', legal, hcontrol', hlegal, hiff⟩ :=
    Game.mem_transitions_iff (hgame.successors? hs) hterminal
  obtain rfl : control = control' := Except.ok.inj (hcontrol.symm.trans hcontrol')
  refine (hiff _ _).2 ⟨plays, ?_, rfl, ?_⟩
  · refine hround.of_ok.2.2.2.imp fun role p ⟨hrole, hmove⟩ => ⟨hrole, ?_⟩
    simpa [Game.isLegal?, Game.moves?, hlegal, bind, Except.bind, pure, Except.pure] using hmove
  · unfold Game.next? at hnext
    obtain ⟨_, -, hnext⟩ := bind_eq_ok.1 hnext
    split at hnext
    · cases hnext
    · obtain ⟨_, -, hnext⟩ := bind_eq_ok.1 hnext
      split at hnext
      · cases hnext
      · exact hnext

namespace Plays

variable {later : List State} {failure : Option (Role × String)}

/-- The states of a play follow each other. -/
lemma mem_states (hgame : m.game.AnswersOn states) (hs : states s)
    (h : Plays m earlier ply s rounds later failure) : ∀ a ∈ s :: later, states a := by
  induction h with
  | ended => simpa using hs
  | failed => simpa using hs
  | next ongoing control_eq moves next_eq _ ih =>
    have hstep := mem_transitions_of_round hgame hs ongoing control_eq moves next_eq
    exact List.forall_mem_cons.2 ⟨hs, ih (hgame.closed _ hs _ hstep)⟩

lemma transition (hgame : m.game.AnswersOn states) (hs : states s)
    (h : Plays m earlier ply s rounds later failure) {k : Nat} {a next : State}
    (ha : (s :: later)[k]? = some a) (hnext : later[k]? = some next) :
    m.game.isTerminal a = .ok false ∧ ∃ control round, a.control? = .ok control ∧ rounds[k]? = some round ∧
      round.map Exchange.role = control.toList ∧
      (Turn.ofList (round.filterMap Exchange.play?), next) ∈ m.game.transitions a := by
  obtain ⟨control, round, before, plays, hterminal, hcontrol, hround, hmoves, hplayed⟩ := h.step ha hnext
  obtain ⟨hroles, hplays, -⟩ := hmoves.of_ok
  have ha := h.mem_states hgame hs a (List.mem_of_getElem? ha)
  have htransition := mem_transitions_of_round hgame ha hterminal hcontrol hmoves hplayed
  exact ⟨hterminal, control, round, hcontrol, hround, hroles, hplays ▸ htransition⟩

end Plays

/-- What a transcript says about the play. -/
theorem Transcript.playthrough (hgame : m.game.AnswersOn states) (hstart : states m.game.start)
    (h : Transcript m r preparations rounds closing) : Playthrough m r preparations rounds := by
  cases h with
  | @unprepared preparations failure closing prepares aborts =>
    obtain ⟨before, x, hx, hrole, hfails, hready⟩ := prepares.of_some
    have hmem : x ∈ preparations := by rw [hx]; simp
    refine ⟨fun _ => ⟨x, hmem, _, hfails⟩, fun h => absurd rfl h, fun ply s next hs => by simp at hs, ?_,
      fun h => by simp [MatchResult.isAborted] at h, fun _ => rfl, fun role reason hfailure => ?_⟩
    · simp [MatchResult.isAborted]
    · obtain rfl := Option.some.inj hfailure
      exact .inl ⟨before, x, hx, hrole, hfails, rfl, hready⟩
  | @aborted preparations rounds later failure closing prepares plays aborts =>
    obtain ⟨before, x, hx, hrole, heach, k, a, ha, hfails⟩ := plays.of_some
    rw [Nat.zero_add] at hfails
    refine ⟨fun h => by simp at h, fun _ => rfl, fun ply s next hs hnext => ?_, ?_,
      fun h => by simp [MatchResult.isAborted] at h, fun _ => rfl, fun role reason hfailure => ?_⟩
    · exact plays.transition hgame hstart hs (by simpa using hnext)
    · refine ⟨fun h => by simp [MatchResult.isAborted] at h, fun ⟨_, _, hresponsive⟩ => ?_⟩
      obtain ⟨ply, s, move, hs, hanswers⟩ := hresponsive before x [] hx
      obtain ⟨rfl, -⟩ := hanswers.asks.choose_spec.inj hfails.asks.choose_spec
      rw [Option.some.inj (hs.symm.trans ha)] at hanswers
      exact (hanswers.not_error hfails).elim
    · obtain rfl := Option.some.inj hfailure
      exact .inr ⟨before, x, hx, hrole, ⟨k, a, ha, hfails⟩, prepares.of_none.2, heach⟩
  | @concluded preparations rounds later goals closing prepares plays goals_eq concludes =>
    obtain ⟨⟨last, hlast, hterminal⟩, heach⟩ := plays.of_none
    rw [List.getLastD_eq_getLast?, hlast] at goals_eq
    refine ⟨fun h => by simp at h, fun _ => rfl, fun ply s next hs hnext => ?_, ?_,
      fun _ => ⟨last, hlast, goals_eq⟩, fun h => by simp [MatchResult.isAborted] at h,
      fun role reason hfailure => by simp at hfailure⟩
    · exact plays.transition hgame hstart hs (by simpa using hnext)
    · refine ⟨fun _ => ⟨⟨last, hlast, hterminal⟩, prepares.of_none.2, fun before x rest hx => ?_⟩,
        fun _ => rfl⟩
      obtain ⟨k, a, ha, move, hmove⟩ := each_iff.1 heach before x rest hx
      rw [List.nil_append, Nat.zero_add] at hmove
      exact ⟨k, a, move, ha, hmove⟩

/-- A match that comes to a result comes to a legal play, whatever its agents do. -/
theorem playthrough_of_run [Host ε] [Agent α ε] {host : ε} {t : Hosted (Match α) ε}
    (hgame : m.game.AnswersOn states) (hstart : states m.game.start) (hrun : run ⟨m, host⟩ = .ok r t) :
    ∃ preparations rounds closing, m.record host = transcriptEvents preparations rounds closing ∧
      Playthrough m r preparations rounds := by
  obtain ⟨preparations, rounds, closing, htranscript, hrecord⟩ := exists_transcript hrun
  exact ⟨preparations, rounds, closing, hrecord, htranscript.playthrough hgame hstart⟩

end GameSearch.Match

/-! ## A match of two bows -/

namespace GameSearch.Greeting

def guest : Role := .symbol "guest"

def landlord : Role := .symbol "landlord"

def bow : Move := .symbol "bow"

/-- Two roles bow to each other at the same time, and that is all. -/
def game : Game where
  roles := [guest, landlord]
  start := .ofList [controlOf guest, controlOf landlord]
  sees s := .ok (.ofList [(guest, s), (landlord, ∅)])
  legal _ := .ok (.ofList [(guest, [bow]), (landlord, [bow])])
  goals s := .ok (.ofList [(guest, if s = ∅ then some (50 : Int) else none), (landlord, none)])
  isTerminal s := .ok (s = ∅)
  play _ _ := .ok ∅

lemma successors?_start : game.successors? game.start =
    .ok [(.ofList [⟨guest, bow⟩, ⟨landlord, bow⟩], ∅)] := by
  rfl

lemma answers : game.AnswersOn fun s => s = game.start ∨ s = ∅ where
  sees _ _ := ⟨_, rfl⟩
  legal _ _ := ⟨_, rfl⟩
  goals _ _ := ⟨_, rfl⟩
  isTerminal _ _ := ⟨_, rfl⟩
  successors s hs := by
    rcases hs with rfl | rfl
    · exact ⟨_, successors?_start⟩
    · exact ⟨[], rfl⟩
  closed s hs step hstep := by
    rcases hs with rfl | rfl
    · rw [Game.transitions_of_ok successors?_start, List.mem_singleton] at hstep
      exact .inr (by rw [hstep])
    · cases Game.isTerminal_of_mem_transitions hstep

/-- A host whose time passes by one nanosecond whenever one looks at its clock. -/
structure Hourglass where
  time : Int

instance : Host Hourglass where
  roll _ h g := (⟨0, h⟩, g)
  now g := (g.time, ⟨g.time + 1⟩)
  pause t g := ⟨g.time + t⟩
  note _ g := g

/-- An agent that always makes the same move, and takes its time for it. -/
structure Courtier where
  move : Move
  pause : Nat

instance {ε : Type} [Host ε] : Agent Courtier ε where
  name _ := "courtier"
  prepare _ _ _ _ := pure ()
  move _ _ _ := do
    Hosted.onHost (Host.wait (← Hosted.read).pause)
    return (← Hosted.read).move
  conclude _ := pure ()
  abort := pure ()

/-- The match between two agents with five microseconds each. -/
def meeting (first second : Courtier) : Match Courtier where
  game := game
  ruleset := ⟨"greeting"⟩
  agents := .ofList [(guest, first), (landlord, second)]
  startClock := .unlimited
  playClock := .unlimited
  clocks := .ofList ([guest, landlord].map fun role => (role, Clock.ofTimes ⟨5000, 0, 0, true⟩))

/-- Whether a match comes to a result, and that result is aborted or not as given. -/
def comesTo (m : Match Courtier) (aborted : Bool) : Bool :=
  match Match.run ⟨m, (⟨0⟩ : Hourglass)⟩ with
  | .ok r _ => r.isAborted == aborted
  | .error _ _ => false

lemma exists_run {m : Match Courtier} {aborted : Bool} (h : comesTo m aborted = true) :
    ∃ r t, Match.run ⟨m, (⟨0⟩ : Hourglass)⟩ = .ok r t ∧ r.isAborted = aborted := by
  unfold comesTo at h
  split at h
  · rename_i r t hrun
    exact ⟨r, t, hrun, by simpa using h⟩
  · cases h

/-- Two polite agents bow to each other. -/
theorem playthrough_meeting : ∃ r t, Match.run ⟨meeting ⟨bow, 10⟩ ⟨bow, 20⟩, (⟨0⟩ : Hourglass)⟩ = .ok r t ∧
    r.isAborted = false ∧ ∃ preparations rounds closing,
      (meeting ⟨bow, 10⟩ ⟨bow, 20⟩).record (⟨0⟩ : Hourglass) =
        Match.transcriptEvents preparations rounds closing ∧
      Match.Playthrough (meeting ⟨bow, 10⟩ ⟨bow, 20⟩) r preparations rounds := by
  obtain ⟨r, t, hrun, haborted⟩ := exists_run (by decide +kernel : comesTo (meeting ⟨bow, 10⟩ ⟨bow, 20⟩) false = true)
  exact ⟨r, t, hrun, haborted, Match.playthrough_of_run answers (.inl rfl) hrun⟩

end GameSearch.Greeting
