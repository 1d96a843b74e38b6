import GameSearch.Proofs.Match.Playthrough

/-!
# What agents are called for

Whatever the agents do, a match that comes to a result calls each of them as it should: the preparation
first, then moves while the role is in control, and in the end one word on how the match ended.
-/

namespace GameSearch.Match

variable {α ε : Type} {m : Match α} {preparations : List Exchange} {rounds : List (List Exchange)}
  {closing : List (Role × Call)} {r : MatchResult}

/-- How the agents of a match are called: first the preparations, then the rounds of calls for moves, one
for each ply, and then the closing calls, after which there are no more. -/
structure Lifecycle (m : Match α) (r : MatchResult) (preparations : List Exchange)
    (rounds : List (List Exchange)) (closing : List (Role × Call)) : Prop where
  /-- The first calls prepare agents of the match, each at most once. -/
  prepared : (∀ x ∈ preparations, x.role ∈ m.agents ∧ ∃ answer,
    x.call = .prepare x.role m.ruleset m.startClock m.playClock answer) ∧
    (preparations.map Exchange.role).Nodup
  /-- All agents are prepared before one is asked for a move. -/
  preparedFirst : rounds ≠ [] → preparations.map Exchange.role = m.agents.keys
  /-- A role is asked for a move at a ply only if it is in control of the state of that ply, which is not
  terminal, and it is told the ply, what it sees, and the time left on its clock. -/
  asked : ∀ ply before x later, rounds[ply]? = some (before ++ x :: later) →
    ∃ s control view clock answer, r.states[ply]? = some s ∧ m.game.isTerminal s = .ok false ∧
      s.control? = .ok control ∧ x.role ∈ control ∧ m.game.view? s x.role = .ok view ∧
      m.clockAfter x.role ((rounds.take ply).flatten ++ before) = some clock ∧
      x.call = .move ply clock.left view answer
  /-- No role is asked twice at a ply. -/
  askedOnce : ∀ round ∈ rounds, (round.map Exchange.role).Nodup
  /-- In the end each agent is told once that the match is aborted, or each is shown once what its role
  sees of the terminal state. -/
  closed : (r.isAborted = true ∧ Aborts m closing) ∨ (r.isAborted = false ∧ ∃ last,
    r.states.getLast? = some last ∧ m.game.isTerminal last = .ok true ∧ Concludes m last closing)

namespace Plays

variable {s : State} {states : List State} {failure : Option (Role × String)}

lemma nodup_roles (h : Plays m [] 0 s rounds states failure) {round : List Exchange} (hround : round ∈ rounds) :
    (round.map Exchange.role).Nodup := by
  obtain ⟨k, hk⟩ := List.mem_iff_getElem?.1 hround
  obtain ⟨a, control, answer, -, -, -, hcalls⟩ := h.round hk
  exact (control.sorted.imp fun hlt heq => by simp [heq] at hlt).sublist hcalls.roles_prefix.sublist

lemma asks (h : Plays m [] 0 s rounds states failure) {ply : Nat} {before later : List Exchange}
    {x : Exchange} (hround : rounds[ply]? = some (before ++ x :: later)) :
    ∃ a control view clock answer, (s :: states)[ply]? = some a ∧ m.game.isTerminal a = .ok false ∧
      a.control? = .ok control ∧ x.role ∈ control ∧ m.game.view? a x.role = .ok view ∧
      m.clockAfter x.role ((rounds.take ply).flatten ++ before) = some clock ∧
      x.call = .move ply clock.left view answer := by
  obtain ⟨a, control, answer, ha, hterminal, hcontrol, hcalls⟩ := h.round hround
  have hrole : x.role ∈ control := hcalls.roles_prefix.subset (List.mem_map_of_mem (by simp))
  rw [List.nil_append, Nat.zero_add] at hcalls
  obtain ⟨answer, clock, view, hclock, hview, hcall⟩ := each_iff.1 hcalls.asked before x later rfl
  exact ⟨a, control, view, clock, answer, ha, hterminal, hcontrol, hrole, hview, hclock, hcall⟩

end Plays

lemma Preparations.prepared {failure : Option (Role × String)}
    (h : Preparations m m.agents.keys preparations failure) :
    (∀ x ∈ preparations, x.role ∈ m.agents ∧ ∃ answer,
      x.call = .prepare x.role m.ruleset m.startClock m.playClock answer) ∧
      (preparations.map Exchange.role).Nodup :=
  ⟨fun _ hx => ⟨Std.ExtTreeMap.mem_keys.1 (h.roles_prefix.subset (List.mem_map_of_mem hx)), h.call hx⟩,
    Std.ExtTreeMap.nodup_keys.sublist h.roles_prefix.sublist⟩

/-- What a transcript says about the calls. -/
theorem Transcript.lifecycle (h : Transcript m r preparations rounds closing) :
    Lifecycle m r preparations rounds closing := by
  cases h with
  | unprepared prepares aborts =>
    refine ⟨prepares.prepared, fun h => absurd rfl h,
      fun ply before x later hround => ?_, fun round hround => ?_, .inl ⟨rfl, aborts⟩⟩
    · simp at hround
    · cases hround
  | aborted prepares plays aborts =>
    exact ⟨prepares.prepared, fun _ => prepares.of_none.1,
      fun ply before x later => plays.asks, fun round => plays.nodup_roles, .inl ⟨rfl, aborts⟩⟩
  | concluded prepares plays goals_eq concludes =>
    obtain ⟨⟨last, hlast, hterminal⟩, -⟩ := plays.of_none
    rw [List.getLastD_eq_getLast?, hlast] at concludes
    exact ⟨prepares.prepared, fun _ => prepares.of_none.1,
      fun ply before x later => plays.asks, fun round => plays.nodup_roles,
      .inr ⟨rfl, last, hlast, hterminal, concludes⟩⟩

/-- The agents of a match that comes to a result are called as they should be, whatever they do. -/
theorem lifecycle_of_run [Host ε] [Agent α ε] {host : ε} {t : Hosted (Match α) ε}
    (hrun : run ⟨m, host⟩ = .ok r t) :
    ∃ preparations rounds closing, m.record host = transcriptEvents preparations rounds closing ∧
      Lifecycle m r preparations rounds closing := by
  obtain ⟨preparations, rounds, closing, htranscript, hrecord⟩ := exists_transcript hrun
  exact ⟨preparations, rounds, closing, hrecord, htranscript.lifecycle⟩

end GameSearch.Match

namespace GameSearch.Greeting

/-- An agent that takes longer for its bow than it has time. -/
theorem lifecycle_meeting : ∃ r t, Match.run ⟨meeting ⟨bow, 10⟩ ⟨bow, 6000⟩, (⟨0⟩ : Hourglass)⟩ = .ok r t ∧
    r.isAborted = true ∧ ∃ preparations rounds closing,
      (meeting ⟨bow, 10⟩ ⟨bow, 6000⟩).record (⟨0⟩ : Hourglass) =
        Match.transcriptEvents preparations rounds closing ∧
      Match.Lifecycle (meeting ⟨bow, 10⟩ ⟨bow, 6000⟩) r preparations rounds closing := by
  obtain ⟨r, t, hrun, haborted⟩ :=
    exists_run (by decide +kernel : comesTo (meeting ⟨bow, 10⟩ ⟨bow, 6000⟩) true = true)
  exact ⟨r, t, hrun, haborted, Match.lifecycle_of_run hrun⟩

end GameSearch.Greeting
