import GameSearch.Proofs.Control
import GameSearch.Proofs.Dice
import GameSearch.Search.Playout

/-!
# Random play

Where a game has transitions, the referee accepts the turns of these and no failure can come of a turn
that is drawn at random: `Game.randomTurn_run` says that it is one of the transitions.
-/

namespace GameSearch

namespace Turn

variable {plays : List Play} {t : Turn}

lemma insertInto_of_forall_lt {p : Play} {l : List Play} (h : ∀ q ∈ l, compare q.role p.role = .lt) :
    insertInto p l = l ++ [p] := by
  induction l with
  | nil => rfl
  | cons q l ih =>
    have hgt : compare p.role q.role = .gt := Std.OrientedCmp.gt_iff_lt.2 (h q List.mem_cons_self)
    rw [insertInto, hgt]
    exact congrArg (q :: ·) (ih fun x hx => h x (List.mem_cons_of_mem _ hx))

lemma plays_foldl_insert (h : (t.plays ++ plays).Pairwise fun a b => compare a.role b.role = .lt) :
    (plays.foldl insert t).plays = t.plays ++ plays := by
  induction plays generalizing t with
  | nil => simp
  | cons p plays ih =>
    have hinsert : (t.insert p).plays = t.plays ++ [p] :=
      insertInto_of_forall_lt fun q hq => (List.pairwise_append.1 h).2.2 q hq p List.mem_cons_self
    rw [List.foldl_cons, ih]
    · rw [hinsert, List.append_assoc, List.singleton_append]
    · rw [hinsert, List.append_assoc, List.singleton_append]
      exact h

/-- Plays that are listed in the order of their roles are those of the turn. -/
lemma plays_ofList (h : plays.Pairwise fun a b => compare a.role b.role = .lt) :
    (ofList plays).plays = plays :=
  plays_foldl_insert (t := ∅) h

end Turn

namespace Game

variable {game : Game} {s : State} {control : SortedSet Role} {legal : ByRole (List Move)}
  {plays : List Play} {ε : Type} [Dice ε]

lemma Legal.plays_ofList (h : Legal legal control.toList plays) : (Turn.ofList plays).plays = plays := by
  refine Turn.plays_ofList ?_
  have hsorted := control.sorted
  rw [← h.roles, List.pairwise_map] at hsorted
  exact hsorted

lemma Legal.accepts {roles : List Role} (h : Legal legal roles plays) {p : Play} (hp : p ∈ plays) :
    p.role ∈ roles ∧ p.move ∈ legal.getD p.role [] := by
  induction h with
  | nil => cases hp
  | cons hq _ ih =>
    rcases List.mem_cons.1 hp with rfl | hp
    · exact ⟨hq.1 ▸ List.mem_cons_self, hq.1 ▸ hq.2⟩
    · exact ⟨List.mem_cons_of_mem _ (ih hp).1, (ih hp).2⟩

/-- The referee accepts one legal move of each role in control. -/
theorem next?_of_legal (hcontrol : s.control? = .ok control) (hlegal : game.legal s = .ok legal)
    (h : Legal legal control.toList plays) :
    game.next? s (.ofList plays) = game.play s (.ofList plays) := by
  have hsize : (Turn.ofList plays).size = control.size := by
    rw [Turn.size, h.plays_ofList, SortedSet.size, ← h.roles, List.length_map]
  have hfind : ((Turn.ofList plays).plays.find? fun p => !Game.accepts control legal p) = none := by
    rw [h.plays_ofList, List.find?_eq_none]
    intro p hp
    obtain ⟨hrole, hmove⟩ := h.accepts hp
    have hin : p.role ∈ control := hrole
    simp [Game.accepts, hin, hmove]
  simp [next?, hcontrol, hlegal, hsize, hfind, bind, Except.bind]

/-- A legal move can be drawn for each role that has one. -/
lemma mapM_choose_run {roles : List Role} (h : ∀ role ∈ roles, legal.getD role [] ≠ []) (source : ε) :
    ∃ plays source', roles.mapM (fun role =>
      match legal.getD role [] with
      | [] => throw (.noLegalMove role.text)
      | moves => return ⟨role, ← Dice.choose moves⟩ : Role → Action ε Play) source = .ok plays source' ∧
        Legal legal roles plays := by
  induction roles generalizing source with
  | nil => exact ⟨[], source, rfl, .nil⟩
  | cons role roles ih =>
    have hne := h role List.mem_cons_self
    obtain ⟨move, source₁, hchoose, hmove⟩ := Dice.choose_run hne source
    obtain ⟨plays, source₂, hrest, hlegal⟩ := ih (fun r hr => h r (List.mem_cons_of_mem _ hr)) source₁
    refine ⟨⟨role, move⟩ :: plays, source₂, ?_, .cons ⟨rfl, hmove⟩ hlegal⟩
    rw [List.mapM_cons]
    refine (Action.bind_of_ok (a := ⟨role, move⟩) (t := source₁) ?_).trans (Action.bind_of_ok hrest)
    cases hmoves : legal.getD role [] with
    | nil => exact absurd hmoves hne
    | cons first others =>
      rw [hmoves] at hchoose
      exact Action.bind_of_ok hchoose

/-- Where a game has transitions, each role in control has a legal move, and the state after each turn of
legal moves is known. -/
lemma exists_legal_of_successors? {next : List (Turn × State)} (h : game.successors? s = .ok next)
    (hterminal : game.isTerminal s = .ok false) : ∃ control legal, s.control? = .ok control ∧
      game.legal s = .ok legal ∧ (∀ role ∈ control.toList, legal.getD role [] ≠ []) ∧
      ∀ plays, Legal legal control.toList plays → ∃ t, game.play s (.ofList plays) = .ok t ∧
        (.ofList plays, t) ∈ game.transitions s := by
  rw [transitions_of_ok h]
  unfold successors? at h
  obtain ⟨answer, hanswer, h⟩ := bind_eq_ok.1 h
  rw [hterminal] at hanswer
  cases hanswer
  simp only [Bool.false_eq_true, if_false] at h
  obtain ⟨control, hcontrol, h⟩ := bind_eq_ok.1 h
  obtain ⟨legal, hlegal, h⟩ := bind_eq_ok.1 h
  obtain ⟨choices, hchoices, h⟩ := bind_eq_ok.1 h
  refine ⟨control, legal, hcontrol, hlegal, fun role hrole hnone => ?_, fun plays hplays => ?_⟩
  · obtain ⟨choice, -, hchoice⟩ := List.mem_map.1 (map_eq_of_mapM hchoices ▸ List.mem_map_of_mem hrole)
    rw [hnone] at hchoice
    cases hchoice
  · have hjoint : plays ∈ jointPlays choices := by
      rw [mem_jointPlays, choices?_eq_ok hchoices, List.forall₂_map_left_iff]
      exact hplays
    obtain ⟨step, hstep, hrun⟩ := List.mem_map.1 (map_eq_of_mapM h ▸ List.mem_map_of_mem hjoint)
    obtain ⟨t, ht, hrun⟩ := bind_eq_ok.1 hrun.symm
    cases hrun
    exact ⟨t, ht, hstep⟩

/-- A play that is not over goes on. -/
theorem exists_transition {next : List (Turn × State)} (h : game.successors? s = .ok next)
    (hterminal : game.isTerminal s = .ok false) : ∃ step, step ∈ game.transitions s := by
  obtain ⟨control, legal, -, -, hne, hplay⟩ := exists_legal_of_successors? h hterminal
  have hplays : ∀ roles : List Role, (∀ role ∈ roles, legal.getD role [] ≠ []) →
      ∃ plays, Legal legal roles plays := by
    intro roles
    induction roles with
    | nil => exact fun _ => ⟨[], .nil⟩
    | cons role roles ih =>
      intro hne
      obtain ⟨move, hmove⟩ := List.exists_mem_of_ne_nil _ (hne role List.mem_cons_self)
      obtain ⟨plays, hplays⟩ := ih fun r hr => hne r (List.mem_cons_of_mem _ hr)
      exact ⟨⟨role, move⟩ :: plays, .cons ⟨rfl, hmove⟩ hplays⟩
  obtain ⟨plays, hplays⟩ := hplays control.toList hne
  obtain ⟨t, -, hstep⟩ := hplay plays hplays
  exact ⟨_, hstep⟩

/-- A random turn can be drawn where a game has transitions, and is one that the referee accepts. -/
theorem randomTurn_run {next : List (Turn × State)} (h : game.successors? s = .ok next)
    (hterminal : game.isTerminal s = .ok false) (source : ε) :
    ∃ turn source' t, game.randomTurn s source = .ok turn source' ∧ game.next? s turn = .ok t ∧
      (turn, t) ∈ game.transitions s := by
  obtain ⟨control, legal, hcontrol, hlegal, hne, hplay⟩ := exists_legal_of_successors? h hterminal
  obtain ⟨plays, source', hrun, hplays⟩ := mapM_choose_run hne source
  obtain ⟨t, ht, hstep⟩ := hplay plays hplays
  refine ⟨.ofList plays, source', t, ?_, (next?_of_legal hcontrol hlegal hplays).trans ht, hstep⟩
  refine (Action.bind_of_ok (Action.lift_of_ok hlegal source)).trans ?_
  refine (Action.bind_of_ok (Action.lift_of_ok hcontrol source)).trans ?_
  exact Action.bind_of_ok hrun

end Game

end GameSearch
