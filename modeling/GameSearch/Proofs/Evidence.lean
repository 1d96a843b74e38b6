import Mathlib.Tactic.Lemma
import Mathlib.Tactic.ByContra
import Mathlib.Tactic.Tauto
import GameSearch.Tree.Belief

/-!
# The range of some evidence

The plies that evidence mentions, and so its first and its last ply.  What a role has observed up to
a ply is evidence of views and turns alone, at no later ply.
-/

namespace GameSearch.Evidence

variable {e : Evidence} {ply : Int}

lemma offset_eq (hmem : ply ∈ e.plies) (hne : ply ≠ 2147483647) (hle : ∀ x ∈ e.plies, ply ≤ x) :
    e.offset = ply := by
  have hmin : (e.plies.filter (· ≠ 2147483647)).min? = some ply := by
    rw [List.min?_eq_some_iff]
    refine ⟨List.mem_filter.2 ⟨hmem, by simpa using hne⟩, fun x hx => hle x (List.mem_filter.1 hx).1⟩
  rw [offset, hmin]
  rfl

lemma horizon_eq (hmem : ply ∈ e.plies) (hne : ply ≠ -2147483648) (hle : ∀ x ∈ e.plies, x ≤ ply) :
    e.horizon = ply := by
  have hmax : (e.plies.filter (· ≠ -2147483648)).max? = some ply := by
    rw [List.max?_eq_some_iff]
    refine ⟨List.mem_filter.2 ⟨hmem, by simpa using hne⟩, fun x hx => hle x (List.mem_filter.1 hx).1⟩
  rw [horizon, hmax]
  rfl

lemma offset_le_horizon (e : Evidence) : e.offset ≤ e.horizon := by
  have hplies : ∀ x, x ∈ e.plies.filter (· ≠ 2147483647) ↔ x ∈ e.plies ∧ x ≠ 2147483647 := by simp
  have hplies' : ∀ x, x ∈ e.plies.filter (· ≠ -2147483648) ↔ x ∈ e.plies ∧ x ≠ -2147483648 := by simp
  unfold offset horizon
  cases hmin : (e.plies.filter (· ≠ 2147483647)).min? with
  | none =>
    rw [List.min?_eq_none_iff] at hmin
    cases hmax : (e.plies.filter (· ≠ -2147483648)).max? with
    | none => exact Int.le_refl 0
    | some last =>
      have hlast := ((hplies' last).1 (List.max?_mem hmax)).1
      have : last = 2147483647 := by
        by_contra hne
        exact List.not_mem_nil (hmin ▸ (hplies last).2 ⟨hlast, hne⟩)
      simp only [Option.getD_none, Option.getD_some]
      omega
  | some first =>
    obtain ⟨hfirst, hle⟩ := List.min?_eq_some_iff.1 hmin
    have hfirst := (hplies first).1 hfirst
    cases hmax : (e.plies.filter (· ≠ -2147483648)).max? with
    | none =>
      rw [List.max?_eq_none_iff] at hmax
      have : first = -2147483648 := by
        by_contra hne
        exact List.not_mem_nil (hmax ▸ (hplies' first).2 ⟨hfirst.1, hne⟩)
      simp only [Option.getD_none, Option.getD_some]
      omega
    | some last =>
      obtain ⟨hlast, hge⟩ := List.max?_eq_some_iff.1 hmax
      have hlast := (hplies' last).1 hlast
      simp only [Option.getD_some]
      by_cases hne : last = 2147483647
      · by_cases hne' : first = -2147483648
        · omega
        · exact hge first ((hplies' first).2 ⟨hfirst.1, hne'⟩)
      · exact hle last ((hplies last).2 ⟨hlast.1, hne⟩)

lemma mem_plies {x : Int} : x ∈ e.plies ↔ x ∈ e.states ∨ x ∈ e.views ∨ x ∈ e.turns := by
  simp only [plies, List.mem_append, Std.ExtTreeMap.mem_keys, or_assoc]

lemma mem_plies_withStates {x : Int} {states : StateSet} :
    x ∈ (e.withStates ply states).plies ↔ x = ply ∨ x ∈ e.plies := by
  simp only [mem_plies, withStates, Std.ExtTreeMap.mem_insert, Std.compare_eq_iff_eq, or_assoc,
    @eq_comm _ ply]

lemma mem_plies_withView {x : Int} {role : Role} {view : View} :
    x ∈ (e.withView ply role view).plies ↔ x = ply ∨ x ∈ e.plies := by
  simp only [mem_plies, withView, Std.ExtTreeMap.mem_insert, Std.compare_eq_iff_eq, @eq_comm _ ply]
  tauto

lemma mem_plies_withTurn {x : Int} {turn : Turn} :
    x ∈ (e.withTurn ply turn).plies ↔ x = ply ∨ x ∈ e.plies := by
  simp only [mem_plies, withTurn, Std.ExtTreeMap.mem_insert, Std.compare_eq_iff_eq, @eq_comm _ ply]
  tauto

lemma not_mem_plies_empty {x : Int} : x ∉ (∅ : Evidence).plies := by
  rw [mem_plies]
  have hstates : (∅ : Evidence).states = ∅ := rfl
  have hviews : (∅ : Evidence).views = ∅ := rfl
  have hturns : (∅ : Evidence).turns = ∅ := rfl
  simp [hstates, hviews, hturns]

/-- Evidence of views and turns up to a ply. -/
structure Recorded (e : Evidence) (last : Int) : Prop where
  states : e.states = ∅
  plies : ∀ x ∈ e.plies, 0 ≤ x ∧ x ≤ last

variable {last : Int}

lemma recorded_empty : (∅ : Evidence).Recorded last :=
  ⟨rfl, fun _ hx => absurd hx not_mem_plies_empty⟩

lemma Recorded.mono {last' : Int} (h : e.Recorded last) (hle : last ≤ last') : e.Recorded last' := by
  refine ⟨h.states, fun x hx => ?_⟩
  have := h.plies x hx
  omega

lemma Recorded.withView (h : e.Recorded last) (hply : 0 ≤ ply ∧ ply ≤ last) (role : Role) (view : View) :
    (e.withView ply role view).Recorded last := by
  refine ⟨h.states, fun x hx => ?_⟩
  rcases mem_plies_withView.1 hx with rfl | hx
  · exact hply
  · exact h.plies x hx

lemma Recorded.withTurn (h : e.Recorded last) (hply : 0 ≤ ply ∧ ply ≤ last) (turn : Turn) :
    (e.withTurn ply turn).Recorded last := by
  refine ⟨h.states, fun x hx => ?_⟩
  rcases mem_plies_withTurn.1 hx with rfl | hx
  · exact hply
  · exact h.plies x hx

/-- The history of a child goes one ply further. -/
lemma Recorded.childHistory {depth : Nat} (h : e.Recorded depth) (role : Role) (o : Observation) :
    (Arena.childHistory e depth role o).Recorded (depth + 1 : Nat) := by
  have hnext : e.Recorded (depth + 1 : Nat) := h.mono (by omega)
  unfold Arena.childHistory
  cases o.move with
  | none =>
    cases o.inControl with
    | false => exact hnext
    | true => exact hnext.withView (by omega) role o.view
  | some move =>
    have hturn := @Recorded.withTurn _ depth _ hnext (by omega) (.single role move)
    cases o.inControl with
    | false => exact hturn
    | true => exact hturn.withView (by omega) role o.view

end GameSearch.Evidence
