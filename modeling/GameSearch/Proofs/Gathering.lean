import Mathlib.Algebra.BigOperators.Group.Multiset.Basic
import Mathlib.Algebra.Order.BigOperators.Group.Multiset
import Mathlib.Data.Prod.Lex
import Mathlib.Order.RelClasses
import GameSearch.Proofs.Exact
import GameSearch.Search.Valuation

/-!
# Utilities gathered in any order

In exact arithmetic a valuation is the average of the utilities that it took in, in whatever order they came,
one by one or together as the valuation of some of them: `Gathering.value_is_average`.
-/

namespace GameSearch

namespace Valuation

variable {v w : Valuation ℚ} {utility : ℚ}

/-! ## Sums -/

/-- The sum of the utilities that a valuation stands for. -/
def total (v : Valuation ℚ) : ℚ := v.mean * v.playouts

lemma total_add (v : Valuation ℚ) (utility : ℚ) : (v.add utility).total = v.total + utility := by
  have hpos : ((v.playouts + 1 : ℕ) : ℚ) ≠ 0 := by exact_mod_cast v.playouts.succ_ne_zero
  simp only [total, add, Scalar.ofNat_rat]
  rw [div_mul_cancel₀ _ hpos]

lemma playouts_merge (v w : Valuation ℚ) : (v.merge w).playouts = v.playouts + w.playouts := by
  rw [merge]
  split
  · omega
  · rfl

/-- What the mean of a valuation without playouts is does not matter. -/
lemma total_merge (v w : Valuation ℚ) : (v.merge w).total = v.total + w.total := by
  rw [merge]
  split
  · next hnone =>
    have hw : w.playouts = 0 := by omega
    simp [total, hw]
  · next hsome =>
    have hpos : ((v.playouts + w.playouts : ℕ) : ℚ) ≠ 0 := by exact_mod_cast hsome
    simp only [total, Scalar.ofNat_rat]
    rw [div_mul_cancel₀ _ hpos]

lemma mean_eq_total_div (h : 0 < v.playouts) : v.mean = v.total / v.playouts := by
  have hpos : (v.playouts : ℚ) ≠ 0 := by exact_mod_cast h.ne'
  rw [total, mul_div_cancel_right₀ _ hpos]

lemma ofMean?_of_unit {mean : ℚ} (hzero : 0 ≤ mean) (hone : mean ≤ 1) (playouts : ℕ) :
    ofMean? mean playouts = .ok ⟨mean, playouts⟩ := by
  have hunit : Scalar.isUnit mean = true := by
    simpa [Scalar.isUnit, Scalar.zero, Scalar.one, Scalar.ofInt] using ⟨hzero, hone⟩
  simp [ofMean?, hunit]

/-! ## The order -/

/-- Valuations are compared by their means, and those of the same mean by their playouts. -/
lemma isLess_iff : v.isLess w = true ↔ toLex (v.mean, v.playouts) < toLex (w.mean, w.playouts) := by
  rw [Prod.Lex.toLex_lt_toLex, isLess]
  by_cases h : v.mean = w.mean
  · rw [if_pos (beq_iff_eq.2 h)]
    simp [h]
  · rw [if_neg (mt beq_iff_eq.1 h)]
    simp [h]

lemma isStrictWeakOrder_isLess : IsStrictWeakOrder (Valuation ℚ) fun v w => v.isLess w = true := by
  have hlex : IsStrictWeakOrder (ℚ ×ₗ ℕ) (· < ·) := isStrictWeakOrder_of_isOrderConnected
  simp only [isLess_iff]
  exact Order.Preimage.instIsStrictWeakOrder

end Valuation

/-! ## Ways to gather utilities -/

/-- A utility in exact arithmetic. -/
abbrev Utility := { u : ℚ // 0 ≤ u ∧ u ≤ 1 }

def Utility.average (utilities : Multiset Utility) : ℚ := (utilities.map Subtype.val).sum / utilities.card

lemma Utility.average_nonneg (utilities : Multiset Utility) : 0 ≤ average utilities := by
  refine div_nonneg (Multiset.sum_nonneg fun q hq => ?_) (Nat.cast_nonneg _)
  obtain ⟨u, -, rfl⟩ := Multiset.mem_map.1 hq
  exact u.2.1

lemma Utility.average_le_one (utilities : Multiset Utility) : average utilities ≤ 1 := by
  refine div_le_one_of_le₀ ?_ (Nat.cast_nonneg _)
  have hle : (utilities.map Subtype.val).sum ≤ (utilities.map Subtype.val).card • (1 : ℚ) := by
    refine Multiset.sum_le_card_nsmul _ _ fun q hq => ?_
    obtain ⟨u, -, rfl⟩ := Multiset.mem_map.1 hq
    exact u.2.2
  rwa [Multiset.card_map, nsmul_one] at hle

lemma Utility.average_mul_card (utilities : Multiset Utility) :
    average utilities * utilities.card = (utilities.map Subtype.val).sum := by
  rcases Multiset.empty_or_exists_mem utilities with rfl | ⟨u, hu⟩
  · simp
  · have hpos : (utilities.card : ℚ) ≠ 0 := by
      exact_mod_cast (Multiset.card_pos_iff_exists_mem.2 ⟨u, hu⟩).ne'
    rw [average, div_mul_cancel₀ _ hpos]

/-- A way to come to a valuation. -/
inductive Gathering where
  /-- Some utilities at once, by their average and their number. -/
  | of (utilities : Multiset Utility)
  /-- None yet, whatever the mean is said to be. -/
  | blank (mean : Utility)
  | add (g : Gathering) (utility : Utility)
  /-- What was gathered in another way as well. -/
  | merge (g h : Gathering)

namespace Gathering

def utilities : Gathering → Multiset Utility
  | of utilities => utilities
  | blank _ => 0
  | add g utility => utility ::ₘ g.utilities
  | merge g h => g.utilities + h.utilities

/-- The valuation that is come to. -/
def value? : Gathering → Except Fault (Valuation ℚ)
  | of utilities => Valuation.ofMean? (Utility.average utilities) utilities.card
  | blank mean => Valuation.ofMean? mean.1 0
  | add g utility => return (← g.value?).add utility
  | merge g h => return (← g.value?).merge (← h.value?)

/-- A valuation stands for just the utilities that were gathered. -/
lemma exists_value? (g : Gathering) : ∃ v, g.value? = .ok v ∧ v.playouts = g.utilities.card ∧
    v.total = (g.utilities.map Subtype.val).sum := by
  induction g with
  | of utilities =>
    refine ⟨⟨Utility.average utilities, utilities.card⟩, ?_, rfl, Utility.average_mul_card utilities⟩
    exact Valuation.ofMean?_of_unit (Utility.average_nonneg _) (Utility.average_le_one _) _
  | blank mean =>
    exact ⟨⟨mean, 0⟩, Valuation.ofMean?_of_unit mean.2.1 mean.2.2 0, rfl, mul_zero _⟩
  | add g utility ih =>
    obtain ⟨v, hv, hplayouts, htotal⟩ := ih
    refine ⟨v.add utility, by rw [value?, hv]; rfl, ?_, ?_⟩
    · rw [utilities, Multiset.card_cons, ← hplayouts]
      rfl
    · rw [Valuation.total_add, htotal, utilities, Multiset.map_cons, Multiset.sum_cons, add_comm]
  | merge g h ihg ihh =>
    obtain ⟨v, hv, hvplayouts, hvtotal⟩ := ihg
    obtain ⟨w, hw, hwplayouts, hwtotal⟩ := ihh
    refine ⟨v.merge w, by rw [value?, hv, hw]; rfl, ?_, ?_⟩
    · rw [Valuation.playouts_merge, hvplayouts, hwplayouts, utilities, Multiset.card_add]
    · rw [Valuation.total_merge, hvtotal, hwtotal, utilities, Multiset.map_add, Multiset.sum_add]

/-- However utilities are gathered, the valuation that is come to counts them, and its mean is their average if
there are any, which is a utility.  By how they compare, valuations are ordered up to those of the same mean and
as many playouts. -/
theorem value_is_average (g : Gathering) : (∃ v, g.value? = .ok v ∧ v.playouts = g.utilities.card ∧
      (0 < g.utilities.card → v.mean = Utility.average g.utilities ∧ 0 ≤ v.mean ∧ v.mean ≤ 1)) ∧
    IsStrictWeakOrder (Valuation ℚ) fun v w => v.isLess w = true := by
  obtain ⟨v, hv, hplayouts, htotal⟩ := exists_value? g
  refine ⟨⟨v, hv, hplayouts, fun hsome => ?_⟩, Valuation.isStrictWeakOrder_isLess⟩
  have hmean : v.mean = Utility.average g.utilities := by
    rw [Valuation.mean_eq_total_div (hplayouts ▸ hsome), htotal, hplayouts, Utility.average]
  rw [hmean]
  exact ⟨rfl, Utility.average_nonneg _, Utility.average_le_one _⟩

end Gathering

end GameSearch
