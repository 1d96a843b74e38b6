import Mathlib.Tactic.Lemma
import GameSearch.Game.Basic

/-!
# Transitions of a game

`Game.AnswersOn` says that the queries of a game do not fail on the states of a class that the
transitions do not leave.  On such states `Game.transitions` and `Game.viewOf` are what the queries
answer, and `Game.After` relates a state to those that follow it some plies later.
-/

namespace GameSearch

namespace Game

variable (game : Game)

/-- The transitions out of a state, none if the query for them fails. -/
def transitions (s : State) : List (Turn × State) := (game.successors? s).toOption.getD []

/-- What a role sees of a state, nothing if the query for it fails. -/
def viewOf (s : State) (role : Role) : View := (game.view? s role).toOption.getD ∅

/-- No query about a state of a class fails, and no transition leaves the class. -/
structure AnswersOn (states : State → Prop) : Prop where
  sees : ∀ s, states s → ∃ views, game.sees s = .ok views
  legal : ∀ s, states s → ∃ moves, game.legal s = .ok moves
  goals : ∀ s, states s → ∃ goals, game.goals s = .ok goals
  isTerminal : ∀ s, states s → ∃ answer, game.isTerminal s = .ok answer
  successors : ∀ s, states s → ∃ next, game.successors? s = .ok next
  closed : ∀ s, states s → ∀ t ∈ game.transitions s, states t.2

/-- The states that follow a state some plies later. -/
def After : (plies : Nat) → State → State → Prop
  | 0, s, t => s = t
  | plies + 1, s, t => ∃ step ∈ game.transitions s, After plies step.2 t

variable {game} {states : State → Prop} {s t u : State} {role : Role}

lemma transitions_of_ok {next : List (Turn × State)} (h : game.successors? s = .ok next) :
    game.transitions s = next := by
  simp [transitions, h, Except.toOption]

/-- When a play is over, there is no turn left. -/
lemma successors?_of_isTerminal (h : game.isTerminal s = .ok true) : game.successors? s = .ok [] := by
  rw [successors?, h]
  rfl

lemma AnswersOn.successors? (h : game.AnswersOn states) (hs : states s) :
    game.successors? s = .ok (game.transitions s) := by
  obtain ⟨next, hn⟩ := h.successors s hs
  rw [transitions_of_ok hn, hn]

lemma view?_of_sees {views : ByRole View} (h : game.sees s = .ok views) (role : Role) :
    game.view? s role = .ok (views.getD role ∅) := by
  simp [view?, h, bind, Except.bind, pure, Except.pure]

lemma viewOf_of_sees {views : ByRole View} (h : game.sees s = .ok views) (role : Role) :
    game.viewOf s role = views.getD role ∅ := by
  simp [viewOf, view?_of_sees h, Except.toOption]

lemma AnswersOn.view? (h : game.AnswersOn states) (hs : states s) (role : Role) :
    game.view? s role = .ok (game.viewOf s role) := by
  obtain ⟨views, hv⟩ := h.sees s hs
  rw [viewOf_of_sees hv, view?_of_sees hv]

lemma After.trans {i j : Nat} (h : game.After i s t) (h' : game.After j t u) :
    game.After (i + j) s u := by
  induction i generalizing s with
  | zero =>
    cases h
    simpa using h'
  | succ i ih =>
    obtain ⟨step, hstep, hafter⟩ := h
    rw [Nat.add_right_comm]
    exact ⟨step, hstep, ih hafter⟩

lemma after_one {step : Turn × State} (h : step ∈ game.transitions s) :
    game.After 1 s step.2 := ⟨step, h, rfl⟩

/-- What follows later follows from the last ply as well as from the first. -/
lemma after_succ {plies : Nat} :
    game.After (plies + 1) s t ↔ ∃ u, game.After plies s u ∧ ∃ step ∈ game.transitions u, step.2 = t := by
  induction plies generalizing s with
  | zero => simp [After]
  | succ plies ih =>
    rw [After]
    constructor
    · rintro ⟨step, hstep, h⟩
      obtain ⟨u, hu, hlast⟩ := ih.1 h
      exact ⟨u, ⟨step, hstep, hu⟩, hlast⟩
    · rintro ⟨u, ⟨step, hstep, hu⟩, hlast⟩
      exact ⟨step, hstep, ih.2 ⟨u, hu, hlast⟩⟩

lemma AnswersOn.after (h : game.AnswersOn states) {plies : Nat} (hs : states s)
    (ht : game.After plies s t) : states t := by
  induction plies generalizing s with
  | zero => exact ht ▸ hs
  | succ plies ih =>
    obtain ⟨step, hstep, hafter⟩ := ht
    exact ih (h.closed s hs step hstep) hafter

/-- A state with a transition out of it is not terminal. -/
lemma isTerminal_of_mem_transitions {step : Turn × State} (h : step ∈ game.transitions s) :
    game.isTerminal s = .ok false := by
  simp only [transitions, successors?] at h
  cases ht : game.isTerminal s with
  | error e => simp [ht, bind, Except.bind, Except.toOption] at h
  | ok answer =>
    cases answer with
    | false => rfl
    | true => simp [ht, bind, Except.bind, Except.toOption, pure, Except.pure] at h

end Game

end GameSearch
