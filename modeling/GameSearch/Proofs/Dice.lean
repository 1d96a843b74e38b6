import GameSearch.Proofs.Action

/-!
# What can be drawn

Whatever the source, a draw from a list is one of its elements, and a sample is a part of the list
that has as many elements as were asked for.
-/

namespace GameSearch.Dice

variable {ε : Type} [Dice ε] {α : Type}

lemma below_run {n : Nat} (hn : 0 < n) (source : ε) :
    ∃ k source', below n source = .ok k source' ∧ k < n := by
  refine ⟨_, _, by rw [below, dif_pos hn], ?_⟩
  exact (roll n hn source).1.isLt

lemma pair_run {m n : Nat} (hm : 0 < m) (hn : 0 < n) (source : ε) :
    ∃ p q source', pair m n source = .ok (p, q) source' ∧ p < m ∧ q < n := by
  obtain ⟨k, source', hrun, hk⟩ := below_run (Nat.mul_pos hm hn) source
  refine ⟨k / n, k % n, source', ?_, ?_, Nat.mod_lt k hn⟩
  · rw [pair, Action.bind_of_ok hrun]
    rfl
  · rw [Nat.div_lt_iff_lt_mul hn]
    exact hk

/-- An element can be drawn unless there is none. -/
theorem choose_run {xs : List α} (hne : xs ≠ []) (source : ε) :
    ∃ x source', choose xs source = .ok x source' ∧ x ∈ xs := by
  obtain ⟨k, source', hrun, hk⟩ := below_run (List.length_pos_iff.2 hne) source
  refine ⟨xs[k], source', ?_, List.getElem_mem hk⟩
  rw [choose, Action.bind_of_ok hrun, List.getElem?_eq_getElem hk]
  rfl

lemma mem_of_choose {xs : List α} {x : α} {source source' : ε}
    (h : choose xs source = .ok x source') : x ∈ xs := by
  by_cases hne : xs = []
  · subst hne
    have hempty : (below 0 : Action ε Nat) source = .error .emptyDraw source := rfl
    rw [choose, List.length_nil, Action.bind_of_error hempty] at h
    cases h
  · obtain ⟨y, source'', hrun, hy⟩ := choose_run hne source
    rw [h] at hrun
    cases hrun
    exact hy

/-- Takes an element into a sample, or not. -/
lemma take_or_leave (x : α) {wanted size p : Nat} (hwanted : wanted ≤ size) (hp : p < size) :
    ∃ taken left, (if p < wanted then ([x], wanted - 1) else ([], wanted)) = (taken, left) ∧
      taken.Sublist [x] ∧ taken.length + left = wanted ∧ left ≤ size - 1 := by
  by_cases h : p < wanted
  · exact ⟨[x], wanted - 1, by rw [if_pos h], List.Sublist.refl _, by simp; omega, by omega⟩
  · exact ⟨[], wanted, by rw [if_neg h], List.nil_sublist _, by simp, by omega⟩

/-- A sample is always had, and has as many elements as were asked for. -/
theorem sample_run : ∀ (xs : List α) (k : Nat) (source : ε),
    ∃ taken source', sample k xs source = .ok taken source' ∧ taken.Sublist xs ∧
      taken.length = min k xs.length
  | [], k, source => ⟨[], source, rfl, List.Sublist.refl _, by simp⟩
  | [x], k, source => by
    rw [sample]
    by_cases hk : k = 0
    · refine ⟨[], source, ?_, List.nil_sublist _, by simp [hk]⟩
      rw [if_pos hk]
      rfl
    · obtain ⟨p, source', hrun, hp⟩ := below_run Nat.one_pos source
      refine ⟨[x], source', ?_, List.Sublist.refl _, by simp; omega⟩
      rw [if_neg hk]
      refine (Action.bind_of_ok hrun).trans ?_
      rw [if_pos (show p < k by omega)]
      rfl
  | x :: y :: rest, k, source => by
    rw [sample]
    by_cases hnone : min k (rest.length + 2) = 0
    · refine ⟨[], source, ?_, List.nil_sublist _, by simp at hnone ⊢; omega⟩
      simp only [if_pos hnone]
      rfl
    · obtain ⟨p, q, source₁, hrun, hp, hq⟩ := pair_run (show 0 < rest.length + 2 by omega)
        (show 0 < rest.length + 2 - 1 by omega) source
      obtain ⟨first, left, hfirst, hsub₁, hlength₁, hleft⟩ :=
        take_or_leave x (Nat.min_le_right k (rest.length + 2)) hp
      obtain ⟨second, left₂, hsecond, hsub₂, hlength₂, hleft₂⟩ := take_or_leave y hleft hq
      obtain ⟨others, source₂, hothers, hsub₃, hlength₃⟩ := sample_run rest left₂ source₁
      simp only [if_neg hnone]
      rw [Action.bind_of_ok hrun]
      simp only [hfirst]
      by_cases hdone : left = 0
      · refine ⟨first, source₁, ?_, ?_, ?_⟩
        · simp only [if_pos hdone]
          rfl
        · exact hsub₁.trans (List.singleton_sublist.2 List.mem_cons_self)
        · simp only [List.length_cons]
          omega
      · refine ⟨first ++ second ++ others, source₂, ?_, ?_, ?_⟩
        · simp only [if_neg hdone, hsecond]
          exact Action.bind_of_ok hothers
        · have hsub := (hsub₁.append hsub₂).append hsub₃
          exact hsub
        · simp only [List.length_append, List.length_cons, hlength₃]
          omega

end GameSearch.Dice
