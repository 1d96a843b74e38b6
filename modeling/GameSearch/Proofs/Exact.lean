import Mathlib.Algebra.Order.Field.Rat
import Mathlib.Tactic.Lemma
import GameSearch.Scalar

/-!
# Exact arithmetic

Rational numbers as scalars: what is computed with them is not rounded.
-/

namespace GameSearch

/-- A rational number with the given number of places. -/
def Decimal.fixedRat (places : Nat) (q : ℚ) : String :=
  signText (decide (q < 0)) ++ withPlaces places (roundHalfEven (q.num.natAbs * 10 ^ places) q.den)

instance : Scalar ℚ where
  ofInt n := n
  decidableLT := inferInstance
  decidableLE := inferInstance
  text := toString
  fixed := Decimal.fixedRat

namespace Scalar

variable {a b : ℚ}

lemma ofNat_rat (n : Nat) : (ofNat n : ℚ) = n := Int.cast_natCast n

@[simp] lemma larger_rat : larger a b = max a b := by
  rcases lt_or_ge a b with h | h
  · rw [larger, if_pos h, max_eq_right h.le]
  · rw [larger, if_neg (not_lt.2 h), max_eq_left h]

@[simp] lemma smaller_rat : smaller a b = min a b := by
  rcases lt_or_ge b a with h | h
  · rw [smaller, if_pos h, min_eq_right h.le]
  · rw [smaller, if_neg (not_lt.2 h), min_eq_left h]

end Scalar

end GameSearch
