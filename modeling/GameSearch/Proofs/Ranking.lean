import Mathlib.Algebra.Order.Field.Basic
import Mathlib.Tactic.IntervalCases
import Mathlib.Tactic.Linarith
import Mathlib.Tactic.Positivity
import Mathlib.Tactic.Ring
import GameSearch.Proofs.Action
import GameSearch.Proofs.ByRole
import GameSearch.Proofs.Exact
import GameSearch.Search.Evaluator

/-!
# What a place in the ranking is worth

In exact arithmetic the utility of a place needs no clamping: it is the fraction `share`.  A goal that
many share is worth less than its rank says, so a better goal can be worth less than a worse one.
`final_ranks` says when it is not.
-/

namespace GameSearch.Evaluator

variable {R ε : Type} {goals : ByRole (Option Int)} {a b role : Role} {x y : Int}

/-! ## One role after the other -/

lemma forEachRole_yields {roles : List Role} {action : Role → Action ε R} {w : Role → R} {source : ε}
    (h : ∀ role ∈ roles, action role source = .ok (w role) source) :
    forEachRole roles action source = .ok (.ofList (roles.map fun role => (role, w role))) source := by
  have hroles : roles.mapM (fun role => do return (role, ← action role) : Role → Action ε (Role × R)) source =
      .ok (roles.map fun role => (role, w role)) source := by
    apply Action.mapM_yields
    intro role hrole
    exact Action.bind_of_ok (h role hrole)
  exact Action.bind_of_ok hroles

/-- A table without rows has the same utility for all roles of a table by role. -/
lemma evaluateAll_ofTable {α : Type} (game : Game) (s : State) (table : ByRole α) (otherwise : R) (source : ε) :
    ∃ utilities, (ofTable [] otherwise).evaluateAll game s table.keys source = .ok utilities source ∧
      ∀ role ∈ table, utilities[role]? = some otherwise := by
  refine ⟨_, forEachRole_yields (w := fun _ => otherwise) fun _ _ => rfl, fun role hrole => ?_⟩
  refine (ByRole.getElem?_ofList ?_).2 (List.mem_map.2 ⟨role, Std.ExtTreeMap.mem_keys.2 hrole, rfl⟩)
  rw [List.map_map]
  exact (List.map_id _).symm ▸ Std.ExtTreeMap.nodup_keys

/-! ## Places -/

/-- The goals that roles have. -/
def reached (goals : ByRole (Option Int)) : List Int := goals.toList.filterMap Prod.snd

def places (goals : ByRole (Option Int)) : Nat := (reached goals).length

/-- The number of roles with a greater goal than `x`. -/
def ahead (goals : ByRole (Option Int)) (x : Int) : Nat := (reached goals).countP (x < ·)

/-- The number of roles with the goal `x`. -/
def sharing (goals : ByRole (Option Int)) (x : Int) : Nat := (reached goals).countP (x = ·)

lemma mem_reached (h : goals[role]? = some (some x)) : x ∈ reached goals :=
  List.mem_filterMap.2 ⟨(role, some x), Std.ExtTreeMap.mem_toList_iff_getElem?_eq_some.2 h, rfl⟩

/-- The goals that roles have are that of a role and those of the others. -/
lemma reached_perm_erase (h : goals[role]? = some (some x)) : (reached goals).Perm (x :: reached (goals.erase role)) :=
  (ByRole.perm_erase h).filterMap Prod.snd

lemma mem_reached_erase :
    y ∈ reached (goals.erase role) ↔ ∃ other, other ≠ role ∧ goals[other]? = some (some y) := by
  rw [reached, List.mem_filterMap]
  constructor
  · rintro ⟨⟨other, goal⟩, hin, rfl : goal = some y⟩
    rw [Std.ExtTreeMap.mem_toList_iff_getElem?_eq_some, Std.ExtTreeMap.getElem?_erase] at hin
    split at hin
    · cases hin
    · rename_i hne
      exact ⟨other, fun heq => hne (heq ▸ Std.ReflCmp.compare_self), hin⟩
  · rintro ⟨other, hne, hgoal⟩
    refine ⟨(other, some y), ?_, rfl⟩
    rw [Std.ExtTreeMap.mem_toList_iff_getElem?_eq_some, Std.ExtTreeMap.getElem?_erase, if_neg, hgoal]
    exact fun heq => hne (Std.compare_eq_iff_eq.1 heq).symm

lemma sharing_pos (h : goals[role]? = some (some x)) : 1 ≤ sharing goals x :=
  List.countP_pos_iff.2 ⟨x, mem_reached h, by simp⟩

lemma ahead_add_sharing_le (goals : ByRole (Option Int)) (x : Int) :
    ahead goals x + sharing goals x ≤ places goals := by
  unfold ahead sharing places
  induction reached goals with
  | nil => exact le_rfl
  | cons y l ih =>
    simp only [List.countP_cons, List.length_cons, decide_eq_true_eq]
    rcases lt_trichotomy x y with h | rfl | h
    · simp only [h, h.ne, if_true, if_false]
      omega
    · simp only [lt_irrefl, if_true, if_false]
      omega
    · simp only [h.ne', h.not_gt, if_false]
      omega

/-- All roles with the better goal are ahead of the worse one, as are all that are ahead of them. -/
lemma ahead_add_sharing_le_ahead (goals : ByRole (Option Int)) (h : y < x) :
    ahead goals x + sharing goals x ≤ ahead goals y := by
  unfold ahead sharing
  induction reached goals with
  | nil => exact le_rfl
  | cons z l ih =>
    simp only [List.countP_cons, decide_eq_true_eq]
    rcases lt_trichotomy x z with hz | hz | hz
    · simp only [hz, hz.ne, h.trans hz, if_true, if_false]
      omega
    · simp only [← hz, h, lt_irrefl, if_true, if_false]
      omega
    · simp only [hz.ne', hz.not_gt, if_false]
      omega

/-! ## Shares -/

/-- The utility of each of `count` roles that share a place with `rank` of `n` roles ahead. -/
def share (rank count n : Nat) : ℚ := ((n : ℚ) - rank - 1) / (count * ((n : ℚ) - 1))

lemma share_nonneg {rank count n : Nat} (hcount : 1 ≤ count) (hn : rank + count ≤ n) :
    0 ≤ share rank count n := by
  have hle : (rank : ℚ) + 1 ≤ n := by exact_mod_cast (by omega : rank + 1 ≤ n)
  have hone : (0 : ℚ) ≤ n - 1 := by linarith [(Nat.cast_nonneg rank : (0 : ℚ) ≤ rank)]
  exact div_nonneg (by linarith) (mul_nonneg (Nat.cast_nonneg count) hone)

lemma share_le_one {rank count n : Nat} (hcount : 1 ≤ count) (hn : 2 ≤ n) : share rank count n ≤ 1 := by
  have hrank : (0 : ℚ) ≤ rank := Nat.cast_nonneg rank
  have hc : (1 : ℚ) ≤ count := by exact_mod_cast hcount
  have htwo : (2 : ℚ) ≤ n := by exact_mod_cast hn
  have hle : (n : ℚ) - 1 ≤ count * (n - 1) := le_mul_of_one_le_left (by linarith) hc
  rw [share, div_le_one (by linarith)]
  exact le_trans (by linarith) hle

lemma clampToUnit_of_unit {q : ℚ} (h₀ : 0 ≤ q) (h₁ : q ≤ 1) : Scalar.clampToUnit q = q := by
  have hzero : (Scalar.zero : ℚ) = 0 := Int.cast_zero
  have hone : (Scalar.one : ℚ) = 1 := Int.cast_one
  rw [Scalar.clampToUnit, hzero, hone, if_neg (not_lt.2 h₀), if_neg (not_lt.2 h₁)]

/-- A place is worth what the formula says, without clamping. -/
theorem rankUtility?_eq {rank count n : Nat} (hcount : 1 ≤ count) (hrank : rank + count ≤ n) (hn : 2 ≤ n) :
    rankUtility? rank count n = .ok (share rank count n) := by
  have hvalue : (Scalar.ofInt ((n : Int) - rank - 1) / Scalar.ofInt (count * ((n : Int) - 1)) : ℚ) =
      share rank count n := by
    change (((n : Int) - rank - 1 : Int) : ℚ) / ((count * ((n : Int) - 1) : Int) : ℚ) = _
    push_cast
    rfl
  rw [rankUtility?, if_pos (by omega), hvalue,
    clampToUnit_of_unit (share_nonneg hcount hrank) (share_le_one hcount hn)]

/-- Of several roles with a goal, each gets the share of its place. -/
theorem goalUtility?_eq (h : goals[role]? = some (some x)) (hn : 2 ≤ places goals) :
    goalUtility? goals role = .ok (share (ahead goals x) (sharing goals x) (places goals)) := by
  have hgoal : goals.getD role none = some x := by
    rw [Std.ExtTreeMap.getD_eq_getD_getElem?, h, Option.getD_some]
  have hmany : ¬(reached goals).length ≤ 1 := not_le.2 hn
  simp only [goalUtility?, hgoal]
  rw [← reached, if_neg hmany]
  exact rankUtility?_eq (sharing_pos h) (ahead_add_sharing_le goals x) hn

/-- The utility of a state is that of its goals. -/
lemma final_of_goals {game : Game} {s : State} {source : ε} {u : ℚ} (hgoals : game.goals s = .ok goals)
    (hu : goalUtility? goals role = .ok u) : final.evaluate game s role source = .ok u source := by
  change ((liftM (game.goals s) : Action ε _) >>= fun g => liftM (goalUtility? g role)) source = _
  rw [hgoals, Action.bind_of_ok (Action.lift_ok goals source), hu, Action.lift_ok]

/-- How two shares compare: across the numbers of roles that share them. -/
lemma share_le_share {rank₁ count₁ rank₂ count₂ n : Nat} (h₁ : 1 ≤ count₁) (h₂ : 1 ≤ count₂) (hn : 2 ≤ n) :
    share rank₂ count₂ n ≤ share rank₁ count₁ n ↔
      (count₁ : Int) * (n - rank₂ - 1) ≤ count₂ * (n - rank₁ - 1) := by
  have hc₁ : (0 : ℚ) < count₁ := by exact_mod_cast h₁
  have hc₂ : (0 : ℚ) < count₂ := by exact_mod_cast h₂
  have htwo : (2 : ℚ) ≤ n := by exact_mod_cast hn
  have hone : (0 : ℚ) < n - 1 := by linarith
  have hcross : share rank₂ count₂ n ≤ share rank₁ count₁ n ↔
      (count₁ : ℚ) * (n - rank₂ - 1) ≤ count₂ * (n - rank₁ - 1) := by
    rw [share, share, div_mul_eq_div_div, div_mul_eq_div_div, div_le_div_iff_of_pos_right hone,
      div_le_div_iff₀ hc₂ hc₁, mul_comm, mul_comm ((n : ℚ) - rank₁ - 1)]
  rw [hcross]
  exact_mod_cast Iff.rfl

/-! ## Better goals -/

/-- Two places of which the better one is shared by no more roles. -/
lemma cross_le_of_count {r₁ c₁ r₂ c₂ n : Nat} (hr : r₁ + c₁ ≤ r₂) (hn : r₂ + c₂ ≤ n) (hc : c₁ ≤ c₂) (h₂ : 1 ≤ c₂) :
    (c₁ : Int) * (n - r₂ - 1) ≤ c₂ * (n - r₁ - 1) := by
  have hbehind : (0 : Int) ≤ n - r₂ - 1 := by omega
  calc (c₁ : Int) * (n - r₂ - 1)
      ≤ c₂ * (n - r₂ - 1) := mul_le_mul_of_nonneg_right (by omega) hbehind
    _ ≤ c₂ * (n - r₁ - 1) := mul_le_mul_of_nonneg_left (by omega) (by omega)

/-- Two places among at most five roles: a tie at the better one costs less than the place behind it. -/
lemma cross_le_of_few {r₁ c₁ r₂ c₂ n : Nat} (hr : r₁ + c₁ ≤ r₂) (hn : r₂ + c₂ ≤ n) (h₂ : 1 ≤ c₂) (hfew : n ≤ 5) :
    (c₁ : Int) * (n - r₂ - 1) ≤ c₂ * (n - r₁ - 1) := by
  obtain ⟨k, hk⟩ : ∃ k : Nat, (n : Int) - r₂ - 1 = k := ⟨n - r₂ - 1, by omega⟩
  have hsmall : c₁ + k ≤ 4 := by omega
  have hprod : c₁ * k ≤ c₁ + k := by
    have hle : c₁ ≤ 4 := by omega
    interval_cases c₁ <;> omega
  calc (c₁ : Int) * (n - r₂ - 1)
      = (c₁ * k : Nat) := by rw [hk, Nat.cast_mul]
    _ ≤ (c₁ + k : Nat) := by exact_mod_cast hprod
    _ ≤ n - r₁ - 1 := by push_cast; omega
    _ ≤ c₂ * (n - r₁ - 1) := le_mul_of_one_le_left (by omega) (by omega)

/-- A strictly better goal is worth at least as much as a worse one exactly if it is not shared by too
many.  That is so if no more roles share it than share the worse one, and if there are at most five. -/
theorem final_ranks {game : Game} {s : State} (hgoals : game.goals s = .ok goals)
    (ha : goals[a]? = some (some x)) (hb : goals[b]? = some (some y)) (h : y < x) (source : ε) :
    ∃ u v : ℚ, final.evaluate game s a source = .ok u source ∧ final.evaluate game s b source = .ok v source ∧
      (v ≤ u ↔ (sharing goals x : Int) * (places goals - ahead goals y - 1) ≤
        sharing goals y * (places goals - ahead goals x - 1)) ∧
      (sharing goals x ≤ sharing goals y → v ≤ u) ∧ (places goals ≤ 5 → v ≤ u) := by
  have hahead := ahead_add_sharing_le_ahead goals h
  have hx := sharing_pos ha
  have hy := sharing_pos hb
  have hle := ahead_add_sharing_le goals y
  have hn : 2 ≤ places goals := by omega
  refine ⟨_, _, final_of_goals hgoals (goalUtility?_eq ha hn), final_of_goals hgoals (goalUtility?_eq hb hn),
    share_le_share hx hy hn, ?_, ?_⟩
  · intro hc
    exact (share_le_share hx hy hn).2 (cross_le_of_count hahead hle hc hy)
  · intro hfew
    exact (share_le_share hx hy hn).2 (cross_le_of_few hahead hle hy hfew)

end GameSearch.Evaluator

namespace GameSearch

/-! ## A race -/

namespace Race

def a : Role := .symbol "runner-a"

def b : Role := .symbol "runner-b"

def d : Role := .symbol "runner-d"

/-- The points after a race in which two runners were first together. -/
def points : ByRole (Option Int) :=
  .ofList ([(a, some 3), (b, some 2), (.symbol "runner-c", some 3), (d, some 1), (.symbol "runner-e", some 1),
    (.symbol "runner-f", some 1)] : List (Role × Option Int))

/-- A race that is over. -/
def game : Game where
  roles := points.keys
  start := ∅
  sees _ := .ok ∅
  legal _ := .ok ∅
  goals _ := .ok points
  isTerminal _ := .ok true
  play s _ := .ok s

lemma points_a : points[a]? = some (some 3) := by rfl

lemma points_b : points[b]? = some (some 2) := by rfl

lemma points_d : points[d]? = some (some 1) := by rfl

lemma reached_points : Evaluator.reached points = [3, 2, 3, 1, 1, 1] := by rfl

end Race

namespace Evaluator

/-- Two who share the first place get less than the one behind them. -/
theorem tie_outranked : ∃ (x y : Int) (u v : ℚ), Race.game.goals ∅ = .ok Race.points ∧
    Race.points[Race.a]? = some (some x) ∧ Race.points[Race.b]? = some (some y) ∧ y < x ∧
    final.evaluate Race.game ∅ Race.a () = .ok u () ∧ final.evaluate Race.game ∅ Race.b () = .ok v () ∧ u < v := by
  have hplaces : places Race.points = 6 := by rw [places, Race.reached_points]; rfl
  have ha : goalUtility? Race.points Race.a = .ok (1 / 2 : ℚ) := by
    rw [goalUtility?_eq Race.points_a (by omega)]
    norm_num [share, ahead, sharing, places, Race.reached_points]
  have hb : goalUtility? Race.points Race.b = .ok (3 / 5 : ℚ) := by
    rw [goalUtility?_eq Race.points_b (by omega)]
    norm_num [share, ahead, sharing, places, Race.reached_points]
  exact ⟨3, 2, 1 / 2, 3 / 5, rfl, Race.points_a, Race.points_b, by decide, final_of_goals rfl ha,
    final_of_goals rfl hb, by norm_num⟩

/-- The theorem applies to the two who were first together and one who shares the last place. -/
theorem final_ranks_race : ∃ u v : ℚ, final.evaluate Race.game ∅ Race.a () = .ok u () ∧
    final.evaluate Race.game ∅ Race.d () = .ok v () ∧ v ≤ u := by
  have hgoals : Race.game.goals ∅ = .ok Race.points := rfl
  obtain ⟨u, v, hu, hv, -, hcount, -⟩ := final_ranks hgoals Race.points_a Race.points_d (by decide) ()
  refine ⟨u, v, hu, hv, hcount ?_⟩
  rw [sharing, sharing, Race.reached_points]
  decide

end Evaluator

end GameSearch
