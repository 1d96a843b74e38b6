import GameSearch.Proofs.Playout.Line
import GameSearch.Proofs.Ranking

/-!
# Games of two sides

Where two roles have a goal at the end of every play and no others have, what a playout is worth for one of
them is what it lacks to one for the other one: `PlayoutEvaluator.sums_to_one`.
-/

namespace GameSearch

/-! ## Two goals -/

namespace Evaluator

variable {goals : ByRole (Option Int)} {a b : Role} {x y : Int}

/-- Of two roles with a goal, and no others, each goal is reached once. -/
lemma reached_perm (hne : a ≠ b) (ha : goals[a]? = some (some x)) (hb : goals[b]? = some (some y))
    (hothers : ∀ role, role ≠ a → role ≠ b → goals.getD role none = none) : (reached goals).Perm [x, y] := by
  have hb' : (goals.erase a)[b]? = some (some y) := by simp [Std.ExtTreeMap.getElem?_erase, hne, hb]
  have hrest : reached ((goals.erase a).erase b) = [] := by
    apply List.eq_nil_iff_forall_not_mem.2
    intro z hz
    obtain ⟨role, hrole, hgoal⟩ := mem_reached_erase.1 hz
    have hother : role ≠ a := by
      rintro rfl
      simp at hgoal
    have hnone := hothers role hother hrole
    rw [Std.ExtTreeMap.getD_eq_getD_getElem?] at hnone
    simp [Std.ExtTreeMap.getElem?_erase, hother.symm] at hgoal
    simp [hgoal] at hnone
  calc reached goals
      _ |>.Perm (x :: reached (goals.erase a)) := reached_perm_erase ha
      _ |>.Perm (x :: y :: reached ((goals.erase a).erase b)) := (reached_perm_erase hb').cons x
      _ = [x, y] := by rw [hrest]

/-- What the goal `x` is worth against the goal `y`. -/
def against (x y : Int) : ℚ := if x < y then 0 else if x = y then 1 / 2 else 1

lemma against_nonneg (x y : Int) : 0 ≤ against x y := by
  rw [against]
  split_ifs <;> norm_num

lemma against_add_against (x y : Int) : against x y + against y x = 1 := by
  rw [against, against]
  rcases lt_trichotomy x y with hxy | rfl | hxy
  · norm_num [hxy, hxy.ne', hxy.not_gt]
  · norm_num
  · norm_num [hxy, hxy.ne', hxy.not_gt]

lemma goalUtility?_of_two (ha : goals[a]? = some (some x)) (h : (reached goals).Perm [x, y]) :
    goalUtility? goals a = .ok (against x y) := by
  have hplaces : places goals = 2 := h.length_eq
  have hahead : ahead goals x = if x < y then 1 else 0 := by
    rw [ahead, h.countP_eq]
    simp [List.countP_cons]
  have hsharing : sharing goals x = if x = y then 2 else 1 := by
    rw [sharing, h.countP_eq]
    simp only [List.countP_cons, List.countP_nil, decide_true, if_true, decide_eq_true_eq]
    split_ifs <;> rfl
  rw [goalUtility?_eq ha hplaces.ge, hplaces, hahead, hsharing, against]
  rcases lt_trichotomy x y with hxy | rfl | hxy
  · norm_num [share, hxy, hxy.ne]
  · norm_num [share]
  · norm_num [share, hxy.not_gt, hxy.ne']

end Evaluator

/-- At the end of every play two roles have a goal, and no others have. -/
structure Game.TwoSided (game : Game) (states : State → Prop) (a b : Role) : Prop where
  ne : a ≠ b
  goals : ∀ s, states s → game.isTerminal s = .ok true → ∃ goals x y, game.goals s = .ok goals ∧
    goals[a]? = some (some x) ∧ goals[b]? = some (some y) ∧ ∀ role, role ≠ a → role ≠ b → goals.getD role none = none

namespace PlayoutEvaluator

variable {ε : Type} {game : Game} {states : State → Prop} {s : State} {a b role : Role} {p : Playout ℚ}
  {e : PlayoutEvaluator ℚ ε}

/-! ## The end of a playout -/

lemma worth_of_terminal (hfinal : e.final = .final) (hbook : p.bookValue = none)
    (hover : game.isTerminal p.state = .ok true) {goals : ByRole (Option Int)} {u : ℚ}
    (hgoals : game.goals p.state = .ok goals) (hu : Evaluator.goalUtility? goals role = .ok u) (source : ε) :
    e.worth game p role source = .ok u source := by
  rw [worth, hbook, hfinal]
  apply (Action.bind_of_ok (Action.lift_of_ok hover source)).trans
  exact Evaluator.final_of_goals hgoals hu

lemma worth_of_cut (hbook : p.bookValue = none) (hgoes : game.isTerminal p.state = .ok false) (source : ε) :
    e.worth game p role source = .ok (1 / 2) source := by
  have hhalf : (Scalar.half : ℚ) = 1 / 2 := by
    change ((1 : Int) : ℚ) / ((2 : Int) : ℚ) = 1 / 2
    norm_num
  rw [worth, hbook, ← hhalf]
  exact Action.bind_of_ok (Action.lift_of_ok hgoes source)

/-- What the end of a playout is worth for the two sides. -/
lemma exists_worths (hgame : game.AnswersOn states) (hsides : game.TwoSided states a b) (hp : states p.state)
    (hfinal : e.final = .final) (hbook : p.bookValue = none) : ∃ w : Role → ℚ,
      (∀ role ∈ [a, b], ∀ source, e.worth game p role source = .ok (w role) source) ∧
        0 ≤ w a ∧ 0 ≤ w b ∧ w a + w b = 1 := by
  obtain ⟨ended, hover⟩ := hgame.isTerminal p.state hp
  cases ended with
  | false =>
    refine ⟨fun _ => 1 / 2, fun role _ => worth_of_cut hbook hover, ?_⟩
    norm_num
  | true =>
    obtain ⟨goals, x, y, hgoals, ha, hb, hothers⟩ := hsides.goals p.state hp hover
    have hperm := Evaluator.reached_perm hsides.ne ha hb hothers
    have hu := Evaluator.goalUtility?_of_two ha hperm
    have hv := Evaluator.goalUtility?_of_two hb (hperm.trans (List.Perm.swap y x []))
    refine ⟨fun role => if role = a then Evaluator.against x y else Evaluator.against y x, ?_, ?_⟩
    · intro role hrole source
      dsimp only
      rcases List.mem_pair.1 hrole with rfl | rfl
      · rw [if_pos rfl]
        exact worth_of_terminal hfinal hbook hover hgoals hu source
      · rw [if_neg hsides.ne.symm]
        exact worth_of_terminal hfinal hbook hover hgoals hv source
    · dsimp only
      rw [if_pos rfl, if_neg hsides.ne.symm]
      exact ⟨Evaluator.against_nonneg x y, Evaluator.against_nonneg y x, Evaluator.against_add_against x y⟩

/-! ## Both sides at once -/

/-- A playout for two roles does not use a book that is about one of them. -/
lemma knows_pair : e.knows [a, b] = false := by
  simp [knows]

/-- A playout for the two sides gives each of them a utility, and these add up to one. -/
theorem sums_to_one [Dice ε] (hgame : game.AnswersOn states) (hsides : game.TwoSided states a b) (hs : states s)
    (maxDepth : Nat) (book : Option (Book ℚ × Role)) (source : ε) : ∃ (u v : ℚ) (source' : ε),
      (toEvaluator ⟨maxDepth, .final, book⟩).evaluateAll game s [a, b] source =
        .ok (.ofList [(a, u), (b, v)]) source' ∧ 0 ≤ u ∧ u ≤ 1 ∧ 0 ≤ v ∧ v ≤ 1 ∧ u + v = 1 := by
  let e : PlayoutEvaluator ℚ ε := ⟨maxDepth, .final, book⟩
  obtain ⟨line, source', hrun, -, hlast⟩ := play_run hgame hs e false source
  have hbook : (e.consulted false)[line.getLastD s]? = none := Std.ExtTreeMap.getElem?_empty
  rw [hbook] at hrun
  obtain ⟨w, hw, ha, hb, hsum⟩ :=
    exists_worths (p := ⟨line.getLastD s, line.length, none⟩) (e := e) hgame hsides hlast rfl rfl
  have hsample : e.sample game s [a, b] source =
      .ok (⟨line.getLastD s, line.length, none⟩, .ofList [(a, w a), (b, w b)]) source' := by
    rw [sample, knows_pair]
    apply (Action.bind_of_ok hrun).trans
    exact Action.bind_of_ok (Evaluator.forEachRole_yields fun role hrole => hw role hrole source')
  refine ⟨w a, w b, source', Action.bind_of_ok hsample, ha, ?_, hb, ?_, hsum⟩
  · linarith
  · linarith

end PlayoutEvaluator

namespace Duel

lemma twoSided : game.TwoSided (fun _ => True) challenger challenged where
  ne := by decide
  goals s _ _ := by
    refine ⟨_, if s = wonBy challenger then 1 else 0, if s = wonBy challenger then 0 else 1, rfl, ?_, ?_, ?_⟩
    · rw [Std.ExtTreeMap.getElem?_insert, if_neg (by decide), Std.ExtTreeMap.getElem?_insert_self]
    · rw [Std.ExtTreeMap.getElem?_insert_self]
    · intro role hchallenger hchallenged
      simp [Std.ExtTreeMap.getD_insert, hchallenger.symm, hchallenged.symm]

end Duel

/-- The theorem applies to a duel that is cut off after ten plies at the latest. -/
theorem PlayoutEvaluator.sums_to_one_duel : ∃ (u v : ℚ) (source' : Twister),
    (toEvaluator ⟨10, .final, none⟩).evaluateAll Duel.game Duel.ready [Duel.challenger, Duel.challenged]
      (Twister.ofSeed 1) = .ok (.ofList [(Duel.challenger, u), (Duel.challenged, v)]) source' ∧
        0 ≤ u ∧ 0 ≤ v ∧ u + v = 1 := by
  obtain ⟨u, v, source', hrun, hu, -, hv, -, hsum⟩ :=
    sums_to_one Duel.answers Duel.twoSided trivial 10 none (Twister.ofSeed 1)
  exact ⟨u, v, source', hrun, hu, hv, hsum⟩

end GameSearch
