import Mathlib.Logic.Relation
import GameSearch.Proofs.Corridor.Board

/-!
# Ways to row 4

`Path walls a b` is a walk of a pawn between neighbours that no wall separates.  The search for row 4
only ever answers that there is a way if there is one.
-/

namespace GameSearch.Corridor

variable {walls walls' : List (Cell × Cell)} {a b c : Cell} {count : Nat} {visited queue : List Cell}

/-- A pawn can step from a cell to a neighbour in spite of some walls. -/
def Opens (walls : List (Cell × Cell)) (a b : Cell) : Prop := a.Adjacent b ∧ isOpen walls a b = true

/-- A pawn can walk from a cell to another one in spite of some walls. -/
def Path (walls : List (Cell × Cell)) : Cell → Cell → Prop := Relation.ReflTransGen (Opens walls)

lemma isOpen_append : isOpen (walls ++ walls') a b = true ↔
    isOpen walls a b = true ∧ isOpen walls' a b = true := by
  simp only [isOpen, Bool.and_eq_true, Bool.not_eq_true', List.contains_eq_mem, List.mem_append,
    decide_eq_false_iff_not, not_or]
  exact and_and_and_comm

/-- What the search finds can be reached from a cell of its queue. -/
lemma exists_path_of_search (h : search walls count visited queue = true) :
    ∃ c ∈ queue, ∃ d, d.isGoal = true ∧ Path walls c d := by
  induction count generalizing visited queue with
  | zero => cases h
  | succ count ih =>
    cases queue with
    | nil => cases h
    | cons c queue =>
      rw [search] at h
      by_cases hgoal : c.isGoal = true
      · exact ⟨c, List.mem_cons_self, c, hgoal, .refl⟩
      · rw [if_neg hgoal] at h
        obtain ⟨b, hb, d, hd, hpath⟩ := ih h
        rcases List.mem_append.1 hb with hb | hb
        · exact ⟨b, List.mem_cons_of_mem c hb, d, hd, hpath⟩
        -- a cell that was added to the queue is a step away from the one just looked at
        · obtain ⟨hnext, hfresh⟩ := List.mem_filter.1 hb
          obtain ⟨direction, -, hdirection⟩ := List.mem_filterMap.1 hnext
          have hopen : Opens walls c b := ⟨⟨direction, hdirection⟩, (Bool.and_eq_true_iff.1 hfresh).2⟩
          exact ⟨c, List.mem_cons_self, d, hd, hpath.head hopen⟩

/-- There is a way to row 4 if the search says so. -/
theorem exists_path_of_canReach (h : canReach walls c = true) :
    ∃ d, d.isGoal = true ∧ Path walls c d := by
  obtain ⟨c', hc, hd⟩ := exists_path_of_search h
  rwa [List.mem_singleton.1 hc] at hd

end GameSearch.Corridor
