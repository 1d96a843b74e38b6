import GameSearch.Proofs.Ranking

/-!
# Winners and losers

The utility of goals is at its greatest for a role that is ahead of all others and at its least for one that
is behind all others, and for these roles only, whatever ties there are: `final_tells_winners`.
-/

namespace GameSearch.Evaluator

variable {ε : Type} {goals : ByRole (Option Int)} {role : Role} {x : Int}

/-! ## Ahead of all others and behind them -/

lemma places_eq_add_one (h : goals[role]? = some (some x)) : places goals = places (goals.erase role) + 1 :=
  (reached_perm_erase h).length_eq

lemma ahead_eq_erase (h : goals[role]? = some (some x)) : ahead goals x = ahead (goals.erase role) x := by
  rw [ahead, (reached_perm_erase h).countP_eq, List.countP_cons_of_neg (by simp), ahead]

lemma sharing_eq_add_one (h : goals[role]? = some (some x)) : sharing goals x = sharing (goals.erase role) x + 1 := by
  rw [sharing, (reached_perm_erase h).countP_eq, List.countP_cons_of_pos (by simp), sharing]

lemma forall_others_iff {P : Int → Prop} : (∀ y ∈ reached (goals.erase role), P y) ↔
    ∀ other y, other ≠ role → goals[other]? = some (some y) → P y := by
  constructor
  · intro h other y hne hgoal
    exact h y (mem_reached_erase.2 ⟨other, hne, hgoal⟩)
  · intro h y hy
    obtain ⟨other, hne, hgoal⟩ := mem_reached_erase.1 hy
    exact h other y hne hgoal

/-- A role wins alone if nobody is ahead of it or shares its place. -/
lemma wins_iff (h : goals[role]? = some (some x)) : ahead goals x = 0 ∧ sharing goals x = 1 ↔
    ∀ other y, other ≠ role → goals[other]? = some (some y) → y < x := by
  rw [← forall_others_iff, ahead_eq_erase h, sharing_eq_add_one h, Nat.add_eq_right, ahead, sharing,
    List.countP_eq_zero, List.countP_eq_zero]
  constructor
  · rintro ⟨hahead, hsharing⟩ y hy
    have hle : ¬x < y := by simpa using hahead y hy
    have hne : x ≠ y := by simpa using hsharing y hy
    omega
  · intro hlt
    refine ⟨fun y hy => ?_, fun y hy => ?_⟩
    · simpa using (hlt y hy).le
    · simpa using (hlt y hy).ne'

/-- A role is last alone if all others are ahead of it. -/
lemma loses_iff (h : goals[role]? = some (some x)) : ahead goals x + 1 = places goals ↔
    ∀ other y, other ≠ role → goals[other]? = some (some y) → x < y := by
  rw [← forall_others_iff, ahead_eq_erase h, places_eq_add_one h, Nat.add_right_cancel_iff, ahead, places,
    List.countP_eq_length]
  simp only [decide_eq_true_eq]

/-! ## The best share and the worst one -/

variable {rank count n : Nat}

lemma share_eq_zero_iff (hcount : 1 ≤ count) (hn : 2 ≤ n) : share rank count n = 0 ↔ rank + 1 = n := by
  have hcount' : (count : ℚ) ≠ 0 := by exact_mod_cast (by omega : count ≠ 0)
  have hn' : (n : ℚ) - 1 ≠ 0 := sub_ne_zero.2 (by exact_mod_cast (by omega : n ≠ 1))
  rw [share, div_eq_zero_iff, or_iff_left (mul_ne_zero hcount' hn'), sub_sub, sub_eq_zero, eq_comm]
  exact_mod_cast Iff.rfl

lemma share_eq_one_iff (hcount : 1 ≤ count) (hn : 2 ≤ n) : share rank count n = 1 ↔ rank = 0 ∧ count = 1 := by
  have htwo : (2 : ℚ) ≤ n := by exact_mod_cast hn
  have hone : (0 : ℚ) < n - 1 := by linarith
  have hpos : (0 : ℚ) < count := by exact_mod_cast hcount
  rw [share, div_eq_one_iff_eq (mul_pos hpos hone).ne']
  constructor
  · intro heq
    -- the left-hand side is at most `n - 1`, so that the place is not shared
    have hrank : (0 : ℚ) ≤ rank := Nat.cast_nonneg rank
    have hle : (count : ℚ) * (n - 1) ≤ 1 * (n - 1) := by linarith
    have hcount' : (count : ℚ) ≤ 1 := le_of_mul_le_mul_right hle hone
    have hsingle : count = 1 := le_antisymm (by exact_mod_cast hcount') hcount
    rw [hsingle, Nat.cast_one, one_mul] at heq
    exact ⟨by exact_mod_cast (by linarith : (rank : ℚ) = 0), hsingle⟩
  · rintro ⟨rfl, rfl⟩
    simp

/-! ## Ranks -/

/-- A role with a goal is ranked by the number of roles that are ahead of it. -/
lemma exists_ranks? {game : Game} {s : State} (hgoals : game.goals s = .ok goals) : ∃ ranks : ByRole Nat,
    game.ranks? s = .ok ranks ∧
      ∀ (role : Role) (x : Int), goals[role]? = some (some x) → ranks[role]? = some (ahead goals x) := by
  let ranked := goals.toList.filterMap fun entry => entry.2.map (entry.1, ·)
  have hcount : ∀ x : Int, ranked.countP (x < ·.2) = ahead goals x := by
    intro x
    rw [ahead, reached, List.countP_filterMap, List.countP_filterMap]
    apply List.countP_congr
    rintro ⟨other, goal⟩ -
    cases goal <;> simp
  have hnodup : (ranked.map Prod.fst).Nodup := by
    rw [List.Nodup, List.pairwise_map, List.pairwise_filterMap]
    apply (List.pairwise_map.1 goals.nodup_roles).imp
    rintro ⟨a, goal⟩ ⟨b, goal'⟩ hne p hp q hq
    obtain ⟨_, -, rfl⟩ := Option.map_eq_some_iff.1 hp
    obtain ⟨_, -, rfl⟩ := Option.map_eq_some_iff.1 hq
    exact hne
  refine ⟨.ofList (ranked.map fun entry => (entry.1, ranked.countP (entry.2 < ·.2))), ?_, fun role x h => ?_⟩
  · rw [Game.ranks?, hgoals]
    rfl
  · rw [ByRole.getElem?_ofList (by rwa [List.map_map]), List.mem_map]
    refine ⟨(role, x), ?_, congrArg (role, ·) (hcount x)⟩
    exact List.mem_filterMap.2 ⟨(role, some x), Std.ExtTreeMap.mem_toList_iff_getElem?_eq_some.2 h, rfl⟩

/-- Where several roles have a goal, the utility for each of them is a number of the unit interval: one for a
role whose goal is greater than that of all others, zero for one whose goal is less than that of all others,
and neither for anybody else.  Roles with the same goal get the same, and the rank that counts is the rank
which the game reports. -/
theorem final_tells_winners {game : Game} {s : State} (hgoals : game.goals s = .ok goals) (hplaces : 2 ≤ places goals)
    (hrole : goals[role]? = some (some x)) (source : ε) : ∃ (u : ℚ) (ranks : ByRole Nat) (rank : Nat),
      final.evaluate game s role source = .ok u source ∧ 0 ≤ u ∧ u ≤ 1 ∧
      (u = 1 ↔ ∀ other y, other ≠ role → goals[other]? = some (some y) → y < x) ∧
      (u = 0 ↔ ∀ other y, other ≠ role → goals[other]? = some (some y) → x < y) ∧
      (∀ other : Role, goals[other]? = some (some x) → final.evaluate game s other source = .ok u source) ∧
      game.ranks? s = .ok ranks ∧ ranks[role]? = some rank ∧
      goalUtility? goals role = (rankUtility? rank (sharing goals x) (places goals) : Except Fault ℚ) := by
  have hsharing := sharing_pos hrole
  have hle := ahead_add_sharing_le goals x
  obtain ⟨ranks, hranks, hrank⟩ := exists_ranks? hgoals
  refine ⟨share (ahead goals x) (sharing goals x) (places goals), ranks, ahead goals x, ?_, ?_, ?_, ?_, ?_, ?_, hranks,
    ?_, ?_⟩
  · exact final_of_goals hgoals (goalUtility?_eq hrole hplaces)
  · exact share_nonneg hsharing hle
  · exact share_le_one hsharing hplaces
  · rw [share_eq_one_iff hsharing hplaces, wins_iff hrole]
  · rw [share_eq_zero_iff hsharing hplaces, loses_iff hrole]
  · intro other hother
    exact final_of_goals hgoals (goalUtility?_eq hother hplaces)
  · exact hrank role x hrole
  · rw [goalUtility?_eq hrole hplaces, rankUtility?_eq hsharing hle hplaces]

end GameSearch.Evaluator

namespace GameSearch

/-! ## A podium -/

namespace Podium

def gold : Role := .symbol "gold"

/-- One role is first, two are second together, one is last, and a judge takes no part. -/
def points : ByRole (Option Int) :=
  .ofList ([(gold, some 9), (.symbol "silver", some 4), (.symbol "silver-too", some 4), (.symbol "tin", some (-2)),
    (.symbol "judge", none)] : List (Role × Option Int))

/-- A contest that is over. -/
def game : Game where
  roles := points.keys
  start := ∅
  sees _ := .ok ∅
  legal _ := .ok ∅
  goals _ := .ok points
  isTerminal _ := .ok true
  play s _ := .ok s

end Podium

/-- The theorem applies to the first, of which there is one, while some are second together. -/
theorem Evaluator.final_tells_winners_podium : ∃ ranks : ByRole Nat, 2 ≤ Evaluator.places Podium.points ∧
    Podium.points[Podium.gold]? = some (some 9) ∧
    Evaluator.final.evaluate Podium.game ∅ Podium.gold () = .ok (1 : ℚ) () ∧
    Podium.game.ranks? ∅ = .ok ranks ∧ ranks[Podium.gold]?.isSome := by
  have hreached : Evaluator.reached Podium.points = [9, 4, 4, -2] := by decide +kernel
  have hothers : Evaluator.reached (Podium.points.erase Podium.gold) = [4, 4, -2] := by decide +kernel
  have hplaces : 2 ≤ Evaluator.places Podium.points := by
    rw [Evaluator.places, hreached]
    decide
  have hgoals : Podium.game.goals ∅ = .ok Podium.points := rfl
  have hgold : Podium.points[Podium.gold]? = some (some 9) := rfl
  obtain ⟨u, ranks, rank, hrun, -, -, hwins, -, -, hranks, hrank, -⟩ :=
    Evaluator.final_tells_winners hgoals hplaces hgold ()
  have hu : u = 1 := by
    refine hwins.2 fun other y hne hgoal => ?_
    have hless : ∀ z ∈ ([4, 4, -2] : List Int), z < 9 := by decide
    exact hless y (hothers ▸ Evaluator.mem_reached_erase.2 ⟨other, hne, hgoal⟩)
  exact ⟨ranks, hplaces, hgold, hu ▸ hrun, hranks, by rw [hrank]; rfl⟩

end GameSearch
