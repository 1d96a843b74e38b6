import GameSearch.Proofs.Terms.Decoding
import GameSearch.Proofs.Transitions

/-!
# Roles in control

A role is in control by a fact about it, and the turns of a state are made of one legal move for each
role in control.
-/

namespace GameSearch

namespace Term

/-- The fact that a role is in control is the only one of this name with the role as its argument. -/
theorem eq_controlOf {t : Term} {role : Role} (hname : t.name = "control")
    (harguments : t.arguments? = .ok [role]) : t = controlOf role := by
  have hparts := ofParts?_arguments? harguments
  rw [hname] at hparts
  exact (Except.ok.inj hparts).symm

lemma name_controlOf (role : Role) : (controlOf role).name = "control" :=
  name_compound (by decide)

end Term

namespace State

variable {s : State} {role : Role} {control : SortedSet Role}

lemma isInControl_iff : s.isInControl role = true ↔ controlOf role ∈ s := by
  rw [isInControl, contains, decide_eq_true_iff]

/-- What the query for the roles in control answers. -/
theorem mem_control?_iff (h : s.control? = .ok control) :
    role ∈ control ↔ ∃ fact ∈ s.named "control", fact.arguments? = .ok [role] := by
  unfold control? at h
  obtain ⟨arguments, hfacts, h⟩ := bind_eq_ok.1 h
  cases h
  rw [SortedSet.mem_ofList, List.mem_filterMap]
  simp only [mem_of_mapM hfacts]
  constructor
  · rintro ⟨l, ⟨fact, hfact, hl⟩, hrole⟩
    refine ⟨fact, hfact, ?_⟩
    split at hrole
    · cases hrole
      exact hl
    · cases hrole
  · rintro ⟨fact, hfact, hl⟩
    exact ⟨[role], ⟨fact, hfact, hl⟩, rfl⟩

/-- Who is listed as in control is in control. -/
theorem isInControl_of_mem_control? (h : s.control? = .ok control) (hrole : role ∈ control) :
    s.isInControl role = true := by
  obtain ⟨fact, hfact, harguments⟩ := (mem_control?_iff h).1 hrole
  obtain ⟨hin, hname⟩ := List.mem_filter.1 hfact
  rw [isInControl_iff, ← Term.eq_controlOf (of_decide_eq_true hname) harguments]
  exact hin

/-- Who is in control is listed, if the fact about it can be taken apart again. -/
theorem mem_control?_of_isInControl (h : s.control? = .ok control)
    (hin : s.isInControl role = true) (harguments : (controlOf role).arguments? = .ok [role]) :
    role ∈ control := by
  refine (mem_control?_iff h).2 ⟨controlOf role, List.mem_filter.2 ⟨isInControl_iff.1 hin, ?_⟩,
    harguments⟩
  exact decide_eq_true (Term.name_controlOf role)

end State

namespace Turn

variable {plays : List Play} {role : Role} {move : Move} {t : Turn}

lemma find?_foldl_insert_of_forall_ne (h : ∀ p ∈ plays, p.role ≠ role) :
    (plays.foldl insert t).find? role = t.find? role := by
  induction plays generalizing t with
  | nil => rfl
  | cons p plays ih =>
    rw [List.foldl_cons, ih fun q hq => h q (List.mem_cons_of_mem _ hq), find?_insert,
      if_neg (h p List.mem_cons_self)]

/-- A role that is not mentioned does not move. -/
lemma find?_ofList_eq_none (h : ∀ p ∈ plays, p.role ≠ role) : (ofList plays).find? role = none :=
  find?_foldl_insert_of_forall_ne h

lemma find?_foldl_insert_of_mem (hnodup : (plays.map Play.role).Nodup) {p : Play} (hp : p ∈ plays) :
    (plays.foldl insert t).find? p.role = some p.move := by
  induction plays generalizing t with
  | nil => cases hp
  | cons q plays ih =>
    obtain ⟨hq, hnodup⟩ := List.nodup_cons.1 hnodup
    rcases List.mem_cons.1 hp with rfl | hp
    · rw [List.foldl_cons, find?_foldl_insert_of_forall_ne, find?_insert, if_pos rfl]
      exact fun x hx heq => hq (heq ▸ List.mem_map_of_mem hx)
    · exact ih hnodup hp

/-- Each play of a list with one play of a role is one of the turn. -/
lemma find?_ofList_of_mem (hnodup : (plays.map Play.role).Nodup) {p : Play} (hp : p ∈ plays) :
    (ofList plays).find? p.role = some p.move :=
  find?_foldl_insert_of_mem hnodup hp

end Turn

namespace Game

variable {game : Game} {s : State} {role : Role} {move : Move} {plays : List Play}

lemma mem_jointPlays {choices : List (Role × List Move)} : plays ∈ jointPlays choices ↔
    List.Forall₂ (fun choice p => p.role = choice.1 ∧ p.move ∈ choice.2) choices plays := by
  induction choices generalizing plays with
  | nil => simp [jointPlays, List.forall₂_nil_left_iff]
  | cons choice rest ih =>
    simp only [jointPlays, List.mem_flatMap, List.mem_map, List.forall₂_cons_left_iff, ih]
    constructor
    · rintro ⟨move, hmove, others, hothers, rfl⟩
      exact ⟨_, others, ⟨rfl, hmove⟩, hothers, rfl⟩
    · rintro ⟨⟨role, move⟩, others, ⟨rfl, hmove⟩, hothers, rfl⟩
      exact ⟨move, hmove, others, hothers, rfl⟩

/-- The plays of some roles, each of them a legal move. -/
def Legal (legal : ByRole (List Move)) (roles : List Role) (plays : List Play) : Prop :=
  List.Forall₂ (fun role p => p.role = role ∧ p.move ∈ legal.getD role []) roles plays

lemma Legal.roles {legal : ByRole (List Move)} {roles : List Role} (h : Legal legal roles plays) :
    plays.map Play.role = roles := by
  induction h with
  | nil => rfl
  | cons hp _ ih => rw [List.map_cons, hp.1, ih]

lemma choices?_eq_ok {control : SortedSet Role} {legal : ByRole (List Move)}
    {choices : List (Role × List Move)} (h : choices? s control legal = .ok choices) :
    choices = control.toList.map fun role => (role, legal.getD role []) := by
  refine eq_map_of_mapM h fun role choice hchoice => ?_
  cases hmoves : legal.getD role [] with
  | nil =>
    rw [hmoves] at hchoice
    cases hchoice
  | cons move moves =>
    rw [hmoves] at hchoice
    cases hchoice
    rfl

section Single

variable {control : SortedSet Role} {legal : ByRole (List Move)} {mover : Role}
  (hterminal : game.isTerminal s = .ok false) (hcontrol : s.control? = .ok control)
  (hmover : control.toList = [mover]) (hlegal : game.legal s = .ok legal) (hne : legal.getD mover [] ≠ [])

include hterminal hcontrol hmover hlegal hne

/-- Where one role is in control, its legal moves are tried one by one. -/
lemma successors?_of_single : game.successors? s = (legal.getD mover []).mapM fun m => do
    return (.ofList [⟨mover, m⟩], ← game.play s (.ofList [⟨mover, m⟩])) := by
  have hchoices : choices? s control legal = .ok [(mover, legal.getD mover [])] := by
    rw [choices?, hmover, List.mapM_cons]
    split
    · contradiction
    · rfl
  have hjoint : jointPlays [(mover, legal.getD mover [])] = (legal.getD mover []).map fun m => [⟨mover, m⟩] := by
    rw [List.map_eq_flatMap]
    rfl
  simp only [successors?, hterminal, hcontrol, hlegal, hchoices, bind, Except.bind, Bool.false_eq_true, if_false,
    hjoint, List.mapM_map]
  rfl

/-- Where one role is in control, its legal moves are the turns. -/
lemma exists_successors?_of_single
    (hplay : ∀ m ∈ legal.getD mover [], ∃ t, game.play s (.ofList [⟨mover, m⟩]) = .ok t) :
    ∃ next, game.successors? s = .ok next ∧ ∀ step ∈ next, ∃ m ∈ legal.getD mover [],
      step.1 = .ofList [⟨mover, m⟩] ∧ game.play s (.ofList [⟨mover, m⟩]) = .ok step.2 := by
  rw [successors?_of_single hterminal hcontrol hmover hlegal hne]
  obtain ⟨next, hnext⟩ := exists_mapM_eq_ok (l := legal.getD mover []) (f := fun m => do
      return (Turn.ofList [⟨mover, m⟩], ← game.play s (.ofList [⟨mover, m⟩]))) fun m hm => by
    obtain ⟨t, ht⟩ := hplay m hm
    exact ⟨_, by rw [ht]; rfl⟩
  refine ⟨next, hnext, fun step hstep => ?_⟩
  obtain ⟨m, hm, hrun⟩ := (mem_of_mapM hnext step).1 hstep
  obtain ⟨t, ht, hrun⟩ := bind_eq_ok.1 hrun
  cases hrun
  exact ⟨m, hm, rfl, ht⟩

end Single

/-- The transitions out of a state are the turns of one legal move for each role in control. -/
theorem mem_transitions_iff {next : List (Turn × State)} (h : game.successors? s = .ok next)
    (hterminal : game.isTerminal s = .ok false) : ∃ control legal, s.control? = .ok control ∧
      game.legal s = .ok legal ∧ ∀ turn t, (turn, t) ∈ game.transitions s ↔
        ∃ plays, Legal legal control.toList plays ∧ turn = .ofList plays ∧ game.play s turn = .ok t := by
  rw [transitions_of_ok h]
  unfold successors? at h
  obtain ⟨answer, hanswer, h⟩ := bind_eq_ok.1 h
  rw [hterminal] at hanswer
  cases hanswer
  simp only [Bool.false_eq_true, if_false] at h
  obtain ⟨control, hcontrol, h⟩ := bind_eq_ok.1 h
  obtain ⟨legal, hlegal, h⟩ := bind_eq_ok.1 h
  obtain ⟨choices, hchoices, h⟩ := bind_eq_ok.1 h
  refine ⟨control, legal, hcontrol, hlegal, fun turn t => ?_⟩
  rw [mem_of_mapM h]
  have hlegal : ∀ plays, plays ∈ jointPlays choices ↔ Legal legal control.toList plays := by
    intro plays
    rw [mem_jointPlays, choices?_eq_ok hchoices, List.forall₂_map_left_iff]
    rfl
  simp only [hlegal]
  refine exists_congr fun plays => and_congr_right fun _ => ?_
  constructor
  · intro hplay
    obtain ⟨s', hs', hplay⟩ := bind_eq_ok.1 hplay
    cases hplay
    exact ⟨rfl, hs'⟩
  · rintro ⟨rfl, hplay⟩
    rw [hplay]
    rfl

lemma AnswersOn.next_unique {states : State → Prop} (h : game.AnswersOn states) {w t : State} {turn : Turn}
    (hw : states w) (hs : (turn, s) ∈ game.transitions w) (ht : (turn, t) ∈ game.transitions w) : s = t := by
  obtain ⟨_, _, -, -, hiff⟩ :=
    mem_transitions_iff (h.successors? hw) (isTerminal_of_mem_transitions hs)
  obtain ⟨_, -, -, hplay⟩ := (hiff turn s).1 hs
  obtain ⟨_, -, -, hplay'⟩ := (hiff turn t).1 ht
  rw [hplay] at hplay'
  exact Except.ok.inj hplay'

/-- Only a role in control makes a move. -/
theorem isInControl_of_find? {states : State → Prop} {step : Turn × State} (h : game.AnswersOn states)
    (hs : states s) (hstep : step ∈ game.transitions s) (hmove : step.1.find? role = some move) :
    s.isInControl role = true := by
  obtain ⟨control, legal, hcontrol, -, htransitions⟩ :=
    mem_transitions_iff (h.successors? hs) (isTerminal_of_mem_transitions hstep)
  obtain ⟨plays, hlegal, hturn, -⟩ := (htransitions step.1 step.2).1 hstep
  have hrole : role ∈ plays.map Play.role := by
    by_contra hnot
    have hnone : (Turn.ofList plays).find? role = none :=
      Turn.find?_ofList_eq_none fun p hp heq => hnot (List.mem_map.2 ⟨p, hp, heq⟩)
    rw [hturn, hnone] at hmove
    cases hmove
  rw [hlegal.roles] at hrole
  exact State.isInControl_of_mem_control? hcontrol hrole

end Game

end GameSearch
