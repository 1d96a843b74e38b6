import Mathlib.Data.List.Perm.Subperm
import GameSearch.Proofs.Playing

/-!
# The list of transitions and the referee

`Game.successors?` builds turns by combining legal moves, `Game.next?` checks a turn play by play.  Both come
to the same turns, `Game.Admits`: those of one legal move for each role in control.  The combinations come
in the order of the turns, as the roles are listed in increasing order and so are the moves of each.
-/

namespace GameSearch

namespace Game

variable {game : Game} {s t : State} {control : SortedSet Role} {legal : ByRole (List Move)} {turn : Turn}
  {plays plays' : List Play} {choices : List (Role × List Move)} {role : Role}

/-- A turn is in order: there are as many plays as roles in control, each of them a legal move of one of these
roles. -/
def Admits (control : SortedSet Role) (legal : ByRole (List Move)) (turn : Turn) : Prop :=
  turn.size = control.size ∧ ∀ p ∈ turn.plays, accepts control legal p = true

lemma accepts_iff {p : Play} :
    accepts control legal p = true ↔ p.role ∈ control ∧ p.move ∈ legal.getD p.role [] := by
  simp [accepts]

/-! ## The referee -/

/-- What the referee does with a turn: it plays a turn that is in order and refuses any other as illegal. -/
theorem next?_cases (hcontrol : s.control? = .ok control) (hlegal : game.legal s = .ok legal) (turn : Turn) :
    Admits control legal turn ∧ game.next? s turn = game.play s turn ∨
      ¬Admits control legal turn ∧ ∃ e, game.next? s turn = .error e ∧ e.kind = .illegalTurn := by
  by_cases hsize : turn.size = control.size
  · cases hfind : turn.plays.find? fun p => !accepts control legal p with
    | none =>
      have hall : ∀ p ∈ turn.plays, accepts control legal p = true := by
        simpa [List.find?_eq_none] using hfind
      exact .inl ⟨⟨hsize, hall⟩, by simp [next?, hcontrol, hlegal, hsize, hfind, bind, Except.bind]⟩
    | some p =>
      have hrefused : accepts control legal p = false := by simpa using List.find?_some hfind
      refine .inr ⟨fun h => ?_, .illegalPlay p.role.text p.move.text s.text, ?_, rfl⟩
      · rw [h.2 p (List.mem_of_find?_eq_some hfind)] at hrefused
        cases hrefused
      · simp only [next?, hcontrol, hlegal, hsize, hfind, ne_eq, not_true_eq_false, if_false, bind, Except.bind]
        rfl
  · refine .inr ⟨fun h => hsize h.1, .turnSize turn.text s.text, ?_, rfl⟩
    simp only [next?, hcontrol, ne_eq, hsize, not_false_eq_true, if_true, bind, Except.bind]
    rfl

theorem next?_eq_ok (hcontrol : s.control? = .ok control) (hlegal : game.legal s = .ok legal) :
    game.next? s turn = .ok t ↔ Admits control legal turn ∧ game.play s turn = .ok t := by
  rcases next?_cases hcontrol hlegal turn with ⟨hadmits, hnext⟩ | ⟨hnot, e, hnext, -⟩
  · rw [hnext, and_iff_right hadmits]
  · simp [hnext, hnot]

/-! ## Turns in order -/

/-- A turn in order has one play for each role in control. -/
lemma Admits.roles (h : Admits control legal turn) : turn.plays.map Play.role = control.toList := by
  have hsorted : (turn.plays.map Play.role).Pairwise fun a b => compare a b = .lt :=
    List.pairwise_map.2 turn.sorted
  have hnodup : (turn.plays.map Play.role).Nodup := hsorted.imp fun hlt heq => by simp [heq] at hlt
  have hsub : turn.plays.map Play.role ⊆ control.toList := by
    intro role hrole
    obtain ⟨p, hp, rfl⟩ := List.mem_map.1 hrole
    exact (accepts_iff.1 (h.2 p hp)).1
  have hlength : control.toList.length ≤ (turn.plays.map Play.role).length := by
    rw [List.length_map]
    exact Nat.le_of_eq h.1.symm
  have hperm := (List.subperm_of_subset hnodup hsub).perm_of_length_le hlength
  exact SortedSet.eq_of_sorted_of_mem_iff hsorted control.sorted fun _ => hperm.mem_iff

/-- The turns in order are those of one legal move for each role in control. -/
theorem admits_iff :
    Admits control legal turn ↔ ∃ plays, Legal legal control.toList plays ∧ turn = .ofList plays := by
  constructor
  · intro h
    refine ⟨turn.plays, ?_, Turn.ext (Turn.plays_ofList turn.sorted).symm⟩
    rw [Legal, ← h.roles, List.forall₂_map_left_iff, List.forall₂_same]
    exact fun p hp => ⟨rfl, (accepts_iff.1 (h.2 p hp)).2⟩
  · rintro ⟨plays, hplays, rfl⟩
    rw [Admits, Turn.size, hplays.plays_ofList, SortedSet.size, ← hplays.roles, List.length_map]
    exact ⟨rfl, fun p hp => accepts_iff.2 (hplays.accepts hp)⟩

/-! ## The order of the turns -/

lemma compare_cons_eq_lt {p q : Play} : compare (p :: plays) (q :: plays') = .lt ↔
    compare p q = .lt ∨ p = q ∧ compare plays plays' = .lt := by
  rw [List.compare_cons_cons, Ordering.then_eq_lt, Std.LawfulEqOrd.compare_eq_iff_eq]

/-- Moves that are listed in increasing order are combined in increasing order. -/
theorem sorted_jointPlays (h : ∀ choice ∈ choices, choice.2.Pairwise fun a b => compare a b = .lt) :
    (jointPlays choices).Pairwise fun p q => compare p q = .lt := by
  induction choices with
  | nil => simp [jointPlays]
  | cons choice rest ih =>
    obtain ⟨role, moves⟩ := choice
    have hmoves := h (role, moves) List.mem_cons_self
    have hrest := ih fun c hc => h c (List.mem_cons_of_mem _ hc)
    refine List.pairwise_flatMap.2 ⟨fun move _ => ?_, hmoves.imp fun {m m'} hlt p hp q hq => ?_⟩
    · -- One move of the first role: the plays of the others decide.
      exact List.pairwise_map.2 (hrest.imp fun hlt => compare_cons_eq_lt.2 (.inr ⟨rfl, hlt⟩))
    · -- Two moves of the first role, which decide.
      obtain ⟨p', -, rfl⟩ := List.mem_map.1 hp
      obtain ⟨q', -, rfl⟩ := List.mem_map.1 hq
      refine compare_cons_eq_lt.2 (.inl ?_)
      simpa [Play.compare_def] using hlt

/-! ## The list of transitions -/

/-- The referee knows a state that is not terminal: who is in control, and which moves are legal, each listed
once and in increasing order; a turn in order can be played. -/
structure Refereed (game : Game) (s : State) (control : SortedSet Role) (legal : ByRole (List Move)) : Prop where
  isTerminal : game.isTerminal s = .ok false
  inControl : s.control? = .ok control
  moves : game.legal s = .ok legal
  sorted : ∀ role, (legal.getD role []).Pairwise fun a b => compare a b = .lt
  plays : ∀ turn, Admits control legal turn → ∃ t, game.play s turn = .ok t

lemma choices?_of_forall_ne_nil (h : ∀ role ∈ control.toList, legal.getD role [] ≠ []) :
    choices? s control legal = .ok (control.toList.map fun role => (role, legal.getD role [])) := by
  obtain ⟨choices, hchoices⟩ : ∃ choices, choices? s control legal = .ok choices := by
    refine exists_mapM_eq_ok fun role hrole => ?_
    split
    · exact absurd ‹_› (h role hrole)
    · exact ⟨_, rfl⟩
  rw [hchoices, choices?_eq_ok hchoices]

lemma choices?_of_eq_nil (hrole : role ∈ control.toList) (hnone : legal.getD role [] = []) :
    ∃ stuck ∈ control.toList, choices? s control legal = .error (.stuckRole stuck.text s.text) := by
  cases hchoices : choices? s control legal with
  | ok choices =>
    obtain ⟨choice, -, hchoice⟩ := List.mem_map.1 (map_eq_of_mapM hchoices ▸ List.mem_map_of_mem hrole)
    rw [hnone] at hchoice
    cases hchoice
  | error e =>
    obtain ⟨stuck, hstuck, he⟩ := exists_of_mapM_eq_error hchoices
    split at he
    · cases he
      exact ⟨stuck, hstuck, rfl⟩
    · cases he

namespace Refereed

variable (h : game.Refereed s control legal)
include h

lemma successors?_eq : game.successors? s = choices? s control legal >>= fun choices =>
    (jointPlays choices).mapM fun plays => do
      let turn := Turn.ofList plays
      return (turn, ← game.play s turn) := by
  simp [successors?, h.isTerminal, h.inControl, h.moves, bind, Except.bind]

/-- Where each role in control has a legal move, the transitions are those that the referee accepts. -/
theorem lists_turns (hmoves : ∀ role ∈ control.toList, legal.getD role [] ≠ []) :
    ∃ next, game.successors? s = .ok next ∧ (next.Pairwise fun x y => compare x.1 y.1 = .lt) ∧
      ∀ turn t, (turn, t) ∈ next ↔ game.next? s turn = .ok t := by
  let choices := control.toList.map fun role => (role, legal.getD role [])
  let move (plays : List Play) : Except Fault (Turn × State) := do
    let turn := Turn.ofList plays
    return (turn, ← game.play s turn)
  have hjoint : ∀ plays, plays ∈ jointPlays choices ↔ Legal legal control.toList plays := fun plays => by
    rw [mem_jointPlays, List.forall₂_map_left_iff]
    rfl
  have hmove : ∀ plays step, move plays = .ok step ↔
      step.1 = .ofList plays ∧ game.play s (.ofList plays) = .ok step.2 := by
    intro plays step
    constructor
    · intro hstep
      obtain ⟨t, ht, hstep⟩ := bind_eq_ok.1 hstep
      cases hstep
      exact ⟨rfl, ht⟩
    · obtain ⟨turn, t⟩ := step
      rintro ⟨rfl, ht⟩
      exact bind_eq_ok.2 ⟨t, ht, rfl⟩
  obtain ⟨next, hnext⟩ : ∃ next, (jointPlays choices).mapM move = .ok next := by
    refine exists_mapM_eq_ok fun plays hplays => ?_
    obtain ⟨t, ht⟩ := h.plays _ (admits_iff.2 ⟨plays, (hjoint plays).1 hplays, rfl⟩)
    exact ⟨(.ofList plays, t), (hmove plays _).2 ⟨rfl, ht⟩⟩
  refine ⟨next, ?_, ?_, fun turn t => ?_⟩
  · rw [h.successors?_eq, choices?_of_forall_ne_nil hmoves]
    exact hnext
  · -- The joint plays are in increasing order, and a turn has its plays as they are in its list.
    have hturns : next = (jointPlays choices).map fun plays =>
        (.ofList plays, (game.play s (.ofList plays)).toOption.getD ∅) := by
      refine eq_map_of_mapM hnext fun plays step hstep => ?_
      obtain ⟨hturn, ht⟩ := (hmove plays step).1 hstep
      rw [ht]
      exact Prod.ext hturn rfl
    rw [hturns, List.pairwise_map]
    refine (sorted_jointPlays ?_).imp_of_mem fun {p q} hp hq hlt => ?_
    · intro choice hchoice
      obtain ⟨role, -, rfl⟩ := List.mem_map.1 hchoice
      exact h.sorted role
    · change compare (Turn.ofList p).plays (Turn.ofList q).plays = .lt
      rwa [((hjoint p).1 hp).plays_ofList, ((hjoint q).1 hq).plays_ofList]
  · rw [mem_of_mapM hnext, next?_eq_ok h.inControl h.moves, admits_iff]
    simp only [hmove, hjoint]
    constructor
    · rintro ⟨plays, hplays, rfl, ht⟩
      exact ⟨⟨plays, hplays, rfl⟩, ht⟩
    · rintro ⟨⟨plays, hplays, rfl⟩, ht⟩
      exact ⟨plays, hplays, rfl, ht⟩

/-- Where a role in control has no legal move, there is no list of transitions, and the referee accepts no
turn. -/
theorem refuses_turns (hrole : role ∈ control.toList) (hnone : legal.getD role [] = []) :
    (∃ e, game.successors? s = .error e ∧ e.kind = .unsatisfiable) ∧
      ∀ turn, ∃ e, game.next? s turn = .error e ∧ e.kind = .illegalTurn := by
  constructor
  · obtain ⟨stuck, -, hstuck⟩ := choices?_of_eq_nil (s := s) hrole hnone
    exact ⟨.stuckRole stuck.text s.text, by rw [h.successors?_eq, hstuck]; rfl, rfl⟩
  · intro turn
    rcases next?_cases h.inControl h.moves turn with ⟨hadmits, -⟩ | ⟨-, hrefused⟩
    · obtain ⟨p, hp, rfl⟩ := List.mem_map.1 (hadmits.roles ▸ hrole)
      have hmove := (accepts_iff.1 (hadmits.2 p hp)).2
      rw [hnone] at hmove
      cases hmove
    · exact hrefused

/-- The list of transitions is what the referee accepts, each turn once and in increasing order, unless some
role in control has no legal move: then there is no such list, and no turn is legal. -/
theorem lists_accepted :
    ((∀ role ∈ control.toList, legal.getD role [] ≠ []) →
      ∃ next, game.successors? s = .ok next ∧ (next.Pairwise fun x y => compare x.1 y.1 = .lt) ∧
        ∀ turn t, (turn, t) ∈ next ↔ game.next? s turn = .ok t) ∧
    ((∃ role ∈ control.toList, legal.getD role [] = []) →
      (∃ e, game.successors? s = .error e ∧ e.kind = .unsatisfiable) ∧
        ∀ turn, ∃ e, game.next? s turn = .error e ∧ e.kind = .illegalTurn) :=
  ⟨h.lists_turns, fun ⟨_, hrole, hnone⟩ => h.refuses_turns hrole hnone⟩

end Refereed

end Game

/-! ## A game of simultaneous moves -/

namespace Morra

def evens : Role := .symbol "evens"

def odds : Role := .symbol "odds"

/-- The one who would have to settle a dispute. -/
def arbiter : Role := .symbol "arbiter"

def one : Move := .symbol "one"

def two : Move := .symbol "two"

/-- Both players are about to show their fingers. -/
def ready : State := .ofList [controlOf evens, controlOf odds]

/-- The arbiter is called as well, but knows of no move. -/
def disputed : State := .ofList [controlOf arbiter, controlOf evens]

def moves : ByRole (List Move) := ((∅ : ByRole (List Move)).insert evens [one, two]).insert odds [one, two]

/-- Two players show one or two fingers at the same time, and that is all. -/
def game : Game where
  roles := [evens, odds]
  start := ready
  sees _ := .ok ∅
  legal _ := .ok moves
  goals _ := .ok ∅
  isTerminal s := .ok (decide (s ≠ ready ∧ s ≠ disputed))
  play _ turn := .ok (.ofList (turn.plays.map Play.move))

lemma refereed {s : State} {control : SortedSet Role} (hs : s = ready ∨ s = disputed)
    (hcontrol : s.control? = .ok control) : game.Refereed s control moves where
  isTerminal := by rcases hs with rfl | rfl <;> rfl
  inControl := hcontrol
  moves := rfl
  sorted role := by
    simp only [moves, Std.ExtTreeMap.getD_insert, Std.ExtTreeMap.getD_empty]
    split_ifs <;> decide
  plays _ _ := ⟨_, rfl⟩

lemma control?_ready : ready.control? = .ok (.ofList [evens, odds]) := by rfl

lemma control?_disputed : disputed.control? = .ok (.ofList [arbiter, evens]) := by rfl

end Morra

/-- The theorem applies where two players move at the same time, and where a role in control cannot move. -/
theorem Game.lists_accepted_morra :
    (∃ next, Morra.game.successors? Morra.ready = .ok next ∧ next.length = 4 ∧
      (next.Pairwise fun x y => compare x.1 y.1 = .lt) ∧
      ∀ turn t, (turn, t) ∈ next ↔ Morra.game.next? Morra.ready turn = .ok t) ∧
    (∃ e, Morra.game.successors? Morra.disputed = .error e ∧ e.kind = .unsatisfiable) ∧
      ∀ turn, ∃ e, Morra.game.next? Morra.disputed turn = .error e ∧ e.kind = .illegalTurn := by
  constructor
  · obtain ⟨next, hnext, hsorted, hiff⟩ :=
      (Refereed.lists_accepted (Morra.refereed (.inl rfl) Morra.control?_ready)).1 (by decide)
    refine ⟨next, hnext, ?_, hsorted, hiff⟩
    have hfour : (Morra.game.transitions Morra.ready).length = 4 := by rfl
    rwa [transitions_of_ok hnext] at hfour
  · exact (Refereed.lists_accepted (Morra.refereed (.inr rfl) Morra.control?_disputed)).2
      ⟨Morra.arbiter, by decide, by decide⟩

end GameSearch
