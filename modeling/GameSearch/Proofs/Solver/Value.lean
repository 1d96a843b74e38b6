import Mathlib.Algebra.Order.BigOperators.Group.List
import Mathlib.Order.OrderIsoNat
import Mathlib.Order.WellFounded
import Mathlib.Tactic.Linarith
import Mathlib.Tactic.NormNum
import GameSearch.Proofs.Exact
import GameSearch.Proofs.Playing
import GameSearch.Search.Solver

/-!
# The value of a state

What a state is worth to a role and its allies if all roles see everything, by backward induction in a
game of which every play ends.  `Problem.value` is defined without regard to how a solver finds values,
so that it can be compared with what a solver finds.
-/

namespace GameSearch

/-- The roles in control, none if the query for them fails. -/
def State.controllers (s : State) : SortedSet Role := s.control?.toOption.getD ∅

namespace Solver.Problem

variable {ε : Type} (p : Problem ℚ ε)

/-- The distinct successors of a state. -/
def successors (s : State) : List State := ((p.game.transitions s).map Prod.snd).eraseDups

/-- A state can come right after another one. -/
def Follows (t s : State) : Prop := t ∈ p.successors s

/-- A state that can come up. -/
def Reaches (s : State) : Prop := ∃ plies, p.game.After plies p.origin s

/-- What a state is worth: if the play is over, what the role gets; if chance is in control, the mean of
what the successors are worth; and otherwise the best or the worst of that. -/
def backUp (worth : State → ℚ) (s : State) (values : List ℚ) : ℚ :=
  match p.game.isTerminal s with
  | .ok true => worth s
  | _ =>
    if s.controllers.toList = [chance] then values.sum / values.length
    else if ∀ role ∈ s.controllers.toList, role ∈ p.allies then values.max?.getD 0
    else values.min?.getD 0

/-- The value of a state from which every play ends, by recursion on these plays. -/
noncomputable def valueAt (worth : State → ℚ) (s : State) (h : Acc p.Follows s) : ℚ :=
  Acc.rec (motive := fun _ _ => ℚ) (fun s _ value => p.backUp worth s ((p.successors s).attach.map fun t =>
    value t.1 t.2)) h

open Classical in
/-- The value of a state: `worth` is what the role gets at the end of a play. -/
noncomputable def value (worth : State → ℚ) (s : State) : ℚ :=
  if h : Acc p.Follows s then p.valueAt worth s h else 0

/-- The values of a problem are determined: there are no queries without an answer and no plays without
an end, and what the role gets at the end of a play is in the range of the problem. -/
structure Determined (worth : State → ℚ) : Prop where
  range : p.range.lower ≤ p.range.upper
  queries : ∀ s, p.Reaches s → ∃ next, p.game.successors? s = .ok next
  evaluates : ∀ s, p.Reaches s → p.game.isTerminal s = .ok true → ∀ host, ∃ host',
    p.evaluator.evaluate p.game s p.role host = .ok (worth s) host'
  worths : ∀ s, p.Reaches s → p.game.isTerminal s = .ok true →
    p.range.lower ≤ worth s ∧ worth s ≤ p.range.upper
  ends : ∀ play : ℕ → State, play 0 = p.origin → ∃ n, ¬p.Follows (play (n + 1)) (play n)

variable {p} {worth : State → ℚ} {s t : State}

lemma mem_successors : t ∈ p.successors s ↔ ∃ turn, (turn, t) ∈ p.game.transitions s := by
  simp [successors, List.mem_eraseDups]

lemma reaches_origin : p.Reaches p.origin := ⟨0, rfl⟩

lemma Reaches.successor (hs : p.Reaches s) (ht : t ∈ p.successors s) : p.Reaches t := by
  obtain ⟨plies, hs⟩ := hs
  obtain ⟨turn, hstep⟩ := mem_successors.1 ht
  exact ⟨plies + 1, Game.after_succ.2 ⟨s, hs, (turn, t), hstep, rfl⟩⟩

lemma valueAt_eq (h : Acc p.Follows s) :
    p.valueAt worth s h = p.backUp worth s ((p.successors s).map (p.value worth)) := by
  have hmap : (p.successors s).map (p.value worth) = (p.successors s).attach.map fun t =>
      p.valueAt worth t.1 (h.inv t.2) := by
    rw [← List.attach_map_val]
    exact List.map_congr_left fun t _ => dif_pos (h.inv t.2)
  rw [hmap]
  cases h
  rfl

namespace Determined

variable (h : p.Determined worth) (hs : p.Reaches s)

include h

/-- Every play from a state that can come up ends. -/
lemma acc (hs : p.Reaches s) : Acc p.Follows s := by
  have horigin : Acc p.Follows p.origin := by
    rw [acc_iff_isEmpty_descending_chain]
    refine ⟨fun ⟨play, hstart, hplay⟩ => ?_⟩
    obtain ⟨n, hn⟩ := h.ends play hstart
    exact hn (hplay n)
  obtain ⟨plies, hs⟩ := hs
  induction plies generalizing s with
  | zero => exact hs ▸ horigin
  | succ plies ih =>
    obtain ⟨r, hr, step, hstep, rfl⟩ := Game.after_succ.1 hs
    exact (ih hr).inv (mem_successors.2 ⟨step.1, hstep⟩)

include hs

lemma value_eq :
    p.value worth s = p.backUp worth s ((p.successors s).map (p.value worth)) := by
  rw [value, dif_pos (h.acc hs), valueAt_eq]

lemma isTerminal : ∃ answer, p.game.isTerminal s = .ok answer := by
  obtain ⟨next, hnext⟩ := h.queries s hs
  unfold Game.successors? at hnext
  obtain ⟨answer, hanswer, -⟩ := bind_eq_ok.1 hnext
  exact ⟨answer, hanswer⟩

lemma goes (hnot : p.game.isTerminal s ≠ .ok true) : p.game.isTerminal s = .ok false := by
  obtain ⟨answer, hanswer⟩ := h.isTerminal hs
  cases answer with
  | false => exact hanswer
  | true => exact absurd hanswer hnot

lemma children? : p.children? s = .ok (p.successors s) := by
  obtain ⟨next, hnext⟩ := h.queries s hs
  rw [Problem.children?, hnext, successors, Game.transitions_of_ok hnext]
  rfl

lemma value_of_terminal (hterminal : p.game.isTerminal s = .ok true) : p.value worth s = worth s := by
  rw [h.value_eq hs, backUp, hterminal]

variable (hgoes : p.game.isTerminal s = .ok false)

include hgoes

lemma control? : s.control? = .ok s.controllers := by
  obtain ⟨next, hnext⟩ := h.queries s hs
  obtain ⟨control, legal, hcontrol, -⟩ := Game.exists_legal_of_successors? hnext hgoes
  rw [State.controllers, hcontrol]
  rfl

lemma successors_ne_nil : p.successors s ≠ [] := by
  obtain ⟨next, hnext⟩ := h.queries s hs
  obtain ⟨⟨turn, t⟩, hstep⟩ := Game.exists_transition hnext hgoes
  exact List.ne_nil_of_mem (mem_successors.2 ⟨turn, hstep⟩)

lemma value_of_chance (hcontrol : s.controllers.toList = [chance]) :
    p.value worth s = ((p.successors s).map (p.value worth)).sum / (p.successors s).length := by
  rw [h.value_eq hs, backUp, hgoes]
  simp only [if_pos hcontrol, List.length_map]

/-- A state in the hands of the role and its allies is worth the best of its successors. -/
lemma value_of_allies (hcontrol : s.controllers.toList ≠ [chance])
    (hallies : ∀ role ∈ s.controllers.toList, role ∈ p.allies) :
    (∀ t ∈ p.successors s, p.value worth t ≤ p.value worth s) ∧
      ∃ t ∈ p.successors s, p.value worth t = p.value worth s := by
  rw [h.value_eq hs, backUp, hgoes]
  simp only [if_neg hcontrol, if_pos hallies]
  cases hmax : ((p.successors s).map (p.value worth)).max? with
  | none => exact absurd (List.map_eq_nil_iff.1 (List.max?_eq_none_iff.1 hmax)) (h.successors_ne_nil hs hgoes)
  | some m =>
    obtain ⟨hm, hle⟩ := List.max?_eq_some_iff.1 hmax
    exact ⟨fun t ht => hle _ (List.mem_map_of_mem ht), List.mem_map.1 hm⟩

/-- A state in other hands is worth the worst of its successors. -/
lemma value_of_others (hcontrol : s.controllers.toList ≠ [chance])
    (hothers : ¬∀ role ∈ s.controllers.toList, role ∈ p.allies) :
    (∀ t ∈ p.successors s, p.value worth s ≤ p.value worth t) ∧
      ∃ t ∈ p.successors s, p.value worth t = p.value worth s := by
  rw [h.value_eq hs, backUp, hgoes]
  simp only [if_neg hcontrol, if_neg hothers]
  cases hmin : ((p.successors s).map (p.value worth)).min? with
  | none => exact absurd (List.map_eq_nil_iff.1 (List.min?_eq_none_iff.1 hmin)) (h.successors_ne_nil hs hgoes)
  | some m =>
    obtain ⟨hm, hle⟩ := List.min?_eq_some_iff.1 hmin
    exact ⟨fun t ht => hle _ (List.mem_map_of_mem ht), List.mem_map.1 hm⟩

omit hgoes

/-- The values of all states are in the range of the problem. -/
theorem value_mem : p.range.lower ≤ p.value worth s ∧ p.value worth s ≤ p.range.upper := by
  induction h.acc hs with
  | intro s _ ih =>
    obtain ⟨answer, hanswer⟩ := h.isTerminal hs
    cases answer with
    | true =>
      rw [h.value_of_terminal hs hanswer]
      exact h.worths s hs hanswer
    | false =>
      have hmem : ∀ t ∈ p.successors s, p.range.lower ≤ p.value worth t ∧ p.value worth t ≤ p.range.upper :=
        fun t ht => ih t ht (hs.successor ht)
      by_cases hcontrol : s.controllers.toList = [chance]
      · rw [h.value_of_chance hs hanswer hcontrol]
        have hlength : (0 : ℚ) < (p.successors s).length :=
          Nat.cast_pos.2 (List.length_pos_iff.2 (h.successors_ne_nil hs hanswer))
        rw [le_div_iff₀ hlength, div_le_iff₀ hlength]
        have hlow := List.card_nsmul_le_sum ((p.successors s).map (p.value worth)) p.range.lower
          (by simpa using fun t ht => (hmem t ht).1)
        have hhigh := List.sum_le_card_nsmul ((p.successors s).map (p.value worth)) p.range.upper
          (by simpa using fun t ht => (hmem t ht).2)
        rw [List.length_map, nsmul_eq_mul] at hlow hhigh
        exact ⟨by linarith, by linarith⟩
      · by_cases hallies : ∀ role ∈ s.controllers.toList, role ∈ p.allies
        · obtain ⟨-, t, ht, hvalue⟩ := h.value_of_allies hs hanswer hcontrol hallies
          exact hvalue ▸ hmem t ht
        · obtain ⟨-, t, ht, hvalue⟩ := h.value_of_others hs hanswer hcontrol hallies
          exact hvalue ▸ hmem t ht

end Determined

/-- Every play ends if each ply lowers the rank of the state. -/
lemma ends_of_rank {rank : State → ℕ} (hrank : ∀ s t, p.Follows t s → rank t < rank s) (play : ℕ → State) :
    ∃ n, ¬p.Follows (play (n + 1)) (play n) := by
  by_contra! hplay
  have hanti : StrictAnti (rank ∘ play) := strictAnti_nat_of_succ_lt fun n => hrank _ _ (hplay n)
  exact not_strictAnti_of_wellFoundedLT _ hanti

end Solver.Problem

/-! ## A wager -/

namespace Wager

/-- The one who has a stake. -/
def gambler : Role := .symbol "gambler"

def keep : Move := .symbol "keep"

def risk : Move := .symbol "risk"

def heads : Move := .symbol "heads"

def tails : Move := .symbol "tails"

/-- The stake can be kept or risked. -/
def staked : State := .ofList [controlOf gambler]

/-- A coin is going to be tossed for the stake. -/
def risked : State := .ofList [controlOf chance]

def kept : State := .ofList [keep]

def won : State := .ofList [heads]

def lost : State := .ofList [tails]

/-- A stake can be kept, or doubled or lost by the toss of a coin. -/
def game : Game where
  roles := [gambler, chance]
  start := staked
  sees _ := .ok ∅
  legal _ := .ok (((∅ : ByRole (List Move)).insert gambler [keep, risk]).insert chance [heads, tails])
  goals _ := .ok ∅
  isTerminal s := .ok (s ≠ staked && s ≠ risked)
  play s turn := .ok <|
    if s = staked then if turn.contains gambler keep then kept else risked
    else if turn.contains chance heads then won else lost

/-- What the gambler gets, if the stake is a third of a unit. -/
def gain (s : State) : ℚ := if s = won then 2 / 3 else if s = kept then 1 / 3 else 0

/-- What the stake is worth to the gambler. -/
def problem (ε : Type) : Solver.Problem ℚ ε where
  game := game
  role := gambler
  evaluator := .ofEach fun _ s _ => pure (gain s)
  range := ⟨0, 1⟩
  allies := .ofList [gambler]
  origin := staked
  maxPlies := 2

lemma successors?_staked : game.successors? staked =
    .ok [(.single gambler keep, kept), (.single gambler risk, risked)] := by
  rfl

lemma successors?_risked : game.successors? risked =
    .ok [(.single chance heads, won), (.single chance tails, lost)] := by
  rfl

lemma successors?_of_over {s : State} (hstaked : s ≠ staked) (hrisked : s ≠ risked) :
    game.successors? s = .ok [] :=
  Game.successors?_of_isTerminal (by simp [game, hstaked, hrisked])

lemma exists_successors? (s : State) : ∃ next, game.successors? s = .ok next := by
  by_cases hstaked : s = staked
  · exact ⟨_, hstaked ▸ successors?_staked⟩
  · by_cases hrisked : s = risked
    · exact ⟨_, hrisked ▸ successors?_risked⟩
    · exact ⟨_, successors?_of_over hstaked hrisked⟩

/-- The number of plies that can still be played. -/
def left (s : State) : ℕ := if s = staked then 2 else if s = risked then 1 else 0

lemma left_lt {ε : Type} (s t : State) (h : (problem ε).Follows t s) : left t < left s := by
  obtain ⟨turn, h⟩ := Solver.Problem.mem_successors.1 h
  change (turn, t) ∈ game.transitions s at h
  by_cases hstaked : s = staked
  · rw [hstaked, Game.transitions_of_ok successors?_staked, List.mem_pair] at h
    rcases h with h | h
    · cases h
      rw [hstaked]
      decide
    · cases h
      rw [hstaked]
      decide
  · by_cases hrisked : s = risked
    · rw [hrisked, Game.transitions_of_ok successors?_risked, List.mem_pair] at h
      rcases h with h | h
      · cases h
        rw [hrisked]
        decide
      · cases h
        rw [hrisked]
        decide
    · rw [Game.transitions_of_ok (successors?_of_over hstaked hrisked)] at h
      cases h

lemma gain_mem (s : State) : 0 ≤ gain s ∧ gain s ≤ 1 := by
  rw [gain]
  split
  · norm_num
  · split <;> norm_num

theorem determined (ε : Type) : (problem ε).Determined gain where
  range := zero_le_one
  queries s _ := exists_successors? s
  evaluates _ _ _ host := ⟨host, rfl⟩
  worths s _ _ := gain_mem s
  ends play _ := Solver.Problem.ends_of_rank left_lt play

end Wager

end GameSearch
