import GameSearch.Proofs.Developments
import GameSearch.Proofs.Evidence
import GameSearch.Proofs.StateSet

/-!
# What a role recollects of a play

A role knows its view and its move at each ply at which it was to move, and nothing of the others.
`Game.Possible` are the states that a play may be in as far as the role can tell.
`Recollection.plays_iff` says that they are where the developments from the initial state end that agree
with the evidence of what is recollected.
-/

namespace GameSearch

/-- What a role knows of the plies so far, the last one first: its view and its move at each ply at
which it was to move. -/
abbrev Recollection := List (Option (View × Move))

/-- The states that a role deems possible after the plies that it recollects. -/
def Game.Possible (game : Game) (role : Role) : Recollection → State → Prop
  | [], t => t = game.start
  | none :: earlier, t => ∃ s, game.Possible role earlier s ∧
      ∃ step ∈ game.transitions s, step.2 = t
  | some (view, move) :: earlier, t => ∃ s, game.Possible role earlier s ∧
      game.viewOf s role = view ∧
      ∃ step ∈ game.transitions s, step.2 = t ∧ step.1.find? role = some move

namespace Recollection

/-- What is recollected, as evidence. -/
def evidence (role : Role) : Recollection → Evidence
  | [] => ∅
  | none :: earlier => evidence role earlier
  | some (view, move) :: earlier =>
    ((evidence role earlier).withView earlier.length role view).withTurn earlier.length
      (.single role move)

/-- A state agrees with what is recollected of its ply. -/
def Shows (game : Game) (role : Role) (s : State) : Option (View × Move) → Prop
  | none => True
  | some (view, _) => game.viewOf s role = view

/-- A turn agrees with what is recollected of its ply. -/
def Plays (role : Role) (turn : Turn) : Option (View × Move) → Prop
  | none => True
  | some (_, move) => turn.find? role = some move

variable {game : Game} {role : Role} {known : Recollection} {entry : Option (View × Move)}
  {e e' : Evidence} {s t : State}

lemma possible_cons : game.Possible role (entry :: known) t ↔ ∃ s, game.Possible role known s ∧
    Shows game role s entry ∧ ∃ step ∈ game.transitions s, Plays role step.1 entry ∧ step.2 = t := by
  cases entry with
  | none => simp [Game.Possible, Shows, Plays]
  | some entry => simp [Game.Possible, Shows, Plays, and_comm]

lemma after_of_possible (h : game.Possible role known t) :
    game.After known.length game.start t := by
  induction known generalizing t with
  | nil => exact h.symm
  | cons entry known ih =>
    obtain ⟨s, hs, -, step, hstep, -, rfl⟩ := possible_cons.1 h
    exact Game.after_succ.2 ⟨s, ih hs, step, hstep, rfl⟩

/-- Some evidence says of the plies that are recollected just what is recollected. -/
def Reflects (game : Game) (role : Role) (e : Evidence) : Recollection → Prop
  | [] => True
  | entry :: earlier => Reflects game role e earlier ∧
      (∀ s, game.Possible role earlier s →
        (game.agrees e earlier.length s = true ↔ Shows game role s entry)) ∧
      ∀ turn : Turn, turn.includes (e.turns.getD earlier.length ∅) = true ↔ Plays role turn entry

/-- Developments that agree with what is recollected end in the possible states. -/
theorem plays_iff (h : Reflects game role e known) : game.Plays e known.length 0 game.start t ↔
    game.Possible role known t ∧ game.agrees e known.length t = true := by
  induction known generalizing t with
  | nil =>
    constructor
    · rintro ⟨hagrees, rfl⟩
      exact ⟨rfl, hagrees⟩
    · rintro ⟨rfl, hagrees⟩
      exact ⟨hagrees, rfl⟩
  | cons entry known ih =>
    obtain ⟨hearlier, hshows, hplays⟩ := h
    rw [List.length_cons, Game.plays_succ, possible_cons]
    simp only [ih hearlier, Int.zero_add, hplays]
    push_cast
    constructor
    · rintro ⟨s, ⟨hs, hagrees⟩, step, hstep, hturn, rfl, hlast⟩
      exact ⟨⟨s, hs, (hshows s hs).1 hagrees, step, hstep, hturn, rfl⟩, hlast⟩
    · rintro ⟨⟨s, hs, hshow, step, hstep, hturn, rfl⟩, hlast⟩
      exact ⟨s, ⟨hs, (hshows s hs).2 hshow⟩, step, hstep, hturn, rfl, hlast⟩

/-- Two pieces of evidence say the same of the plies before one. -/
def Same (last : Int) (e e' : Evidence) : Prop :=
  ∀ x < last, e'.states[x]? = e.states[x]? ∧ e'.views[x]? = e.views[x]? ∧ e'.turns[x]? = e.turns[x]?

lemma Reflects.congr (h : Reflects game role e known) (hsame : Same known.length e e') :
    Reflects game role e' known := by
  induction known with
  | nil => trivial
  | cons entry known ih =>
    obtain ⟨hearlier, hshows, hplays⟩ := h
    rw [List.length_cons] at hsame
    obtain ⟨hstates, hviews, hturns⟩ := hsame known.length (by omega)
    refine ⟨ih hearlier fun x hx => hsame x (by omega), fun s hs => ?_, fun turn => ?_⟩
    · rw [← hshows s hs]
      simp only [Game.agrees, hstates, hviews]
    · rw [← hplays turn]
      simp only [Std.ExtTreeMap.getD_eq_getD_getElem?, hturns]

/-- What is recollected is evidence of views and turns before the present ply. -/
lemma recorded_evidence : (known.evidence role).Recorded (known.length - 1) := by
  induction known with
  | nil => exact Evidence.recorded_empty
  | cons entry known ih =>
    have hply : (0 : Int) ≤ known.length ∧ (known.length : Int) ≤ (entry :: known).length - 1 := by
      rw [List.length_cons]
      omega
    have hmono : (evidence role known).Recorded ((entry :: known).length - 1) :=
      ih.mono (by rw [List.length_cons]; omega)
    cases entry with
    | none => exact hmono
    | some entry => exact (hmono.withView hply _ _).withTurn hply _

/-- The evidence of what is recollected says nothing of the present ply. -/
lemma getElem?_evidence : (known.evidence role).views[(known.length : Int)]? = none ∧
    (known.evidence role).turns[(known.length : Int)]? = none := by
  have hrecorded := @recorded_evidence role known
  constructor
  · refine Std.ExtTreeMap.getElem?_eq_none fun hin => ?_
    have := hrecorded.plies _ (Evidence.mem_plies.2 (.inr (.inl hin)))
    omega
  · refine Std.ExtTreeMap.getElem?_eq_none fun hin => ?_
    have := hrecorded.plies _ (Evidence.mem_plies.2 (.inr (.inr hin)))
    omega

lemma agrees_fromStart (hs : game.Possible role known s) (he : e.states = ∅) :
    game.agrees (game.fromStart e) known.length s = true ↔
      ∀ views, e.views[(known.length : Int)]? = some views → ∀ role view, views[role]? = some view →
        game.viewOf s role = view := by
  rw [Game.agrees_iff]
  refine and_iff_right fun possible hpossible => ?_
  simp only [Game.fromStart, Evidence.withStates, he, Std.ExtTreeMap.getElem?_insert,
    Std.compare_eq_iff_eq, Std.ExtTreeMap.getElem?_empty] at hpossible
  split at hpossible
  · rename_i hzero
    cases known with
    | nil =>
      cases hpossible
      exact StateSet.mem_singleton.2 hs
    | cons entry known =>
      rw [List.length_cons] at hzero
      omega
  · cases hpossible

lemma agrees_withView {view : View} (hs : game.Possible role known s) (he : e.states = ∅)
    (hviews : e.views[(known.length : Int)]? = none) :
    game.agrees (game.fromStart (e.withView known.length role view)) known.length s = true ↔
      game.viewOf s role = view := by
  rw [agrees_fromStart hs (e := e.withView known.length role view) he]
  simp only [Evidence.withView, Std.ExtTreeMap.getElem?_insert_self, Option.some.injEq, forall_eq',
    Std.ExtTreeMap.getD_eq_getD_getElem?, hviews, Option.getD_none, Std.ExtTreeMap.getElem?_insert,
    Std.compare_eq_iff_eq, Std.ExtTreeMap.getElem?_empty]
  constructor
  · exact fun h => h role view (if_pos rfl)
  · intro h other view' hother
    split at hother
    · rename_i heq
      cases hother
      rw [← heq, h]
    · cases hother

lemma agrees_withTurn {ply x : Int} {turn : Turn} :
    game.agrees (game.fromStart (e.withTurn x turn)) ply s = game.agrees (game.fromStart e) ply s := rfl

/-- The evidence of what is recollected says just that. -/
theorem reflects_fromStart : Reflects game role (game.fromStart (known.evidence role)) known := by
  induction known with
  | nil => trivial
  | cons entry known ih =>
    obtain ⟨hviews, hturns⟩ := @getElem?_evidence role known
    have hstates : (evidence role known).states = ∅ := recorded_evidence.states
    cases entry with
    | none =>
      refine ⟨ih, fun s hs => ?_, fun turn => ?_⟩
      · rw [evidence, agrees_fromStart hs hstates, hviews]
        simp [Shows]
      · simp only [evidence, Game.fromStart, Evidence.withStates, Std.ExtTreeMap.getD_eq_getD_getElem?,
          hturns, Option.getD_none, Turn.includes_empty, Plays]
    | some entry =>
      obtain ⟨view, move⟩ := entry
      have hsame : Same known.length (game.fromStart (evidence role known))
          (game.fromStart (evidence role (some (view, move) :: known))) := by
        intro x hx
        have hne : (known.length : Int) ≠ x := by omega
        simp [Game.fromStart, evidence, Evidence.withStates, Evidence.withTurn, Evidence.withView,
          Std.ExtTreeMap.getElem?_insert, hne]
      refine ⟨ih.congr hsame, fun s hs => ?_, fun turn => ?_⟩
      · rw [evidence, agrees_withTurn, agrees_withView hs hstates hviews]
        rfl
      · simp [Game.fromStart, evidence, Evidence.withStates, Evidence.withTurn, Plays,
          Turn.includes_single, Turn.contains]

end Recollection

end GameSearch
