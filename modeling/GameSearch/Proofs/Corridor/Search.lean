import Mathlib.Data.List.Chain
import Mathlib.Data.List.Perm.Subperm
import Mathlib.Data.Nat.Dist
import GameSearch.Proofs.Corridor.Path

/-!
# The search for row 4

`Ends` says how a search ends, without a bound on the number of cells that it looks at.  The search of
`canReach` ends so, as the twelve cells of a board last until its queue is empty, and `canFinish_iff_walk` says that
it finds row 4 if and only if there is a walk there.
-/

namespace GameSearch.Corridor

variable {walls : List (Cell × Cell)} {opens opens' : Cell → Cell → Bool} {a b c start : Cell} {count : Nat}
  {visited looked queue : List Cell} {answer : Bool}

/-! ## The loop -/

/-- The neighbours that are visited from a cell: those that have not been visited and that it is open to. -/
def fresh (opens : Cell → Cell → Bool) (visited : List Cell) (c : Cell) : List Cell :=
  (Direction.all.filterMap c.neighbour?).filter fun d => !visited.contains d && opens c d

/-- How a search ends that looks at the cells of a queue one after the other: at the first one on row 4, or with
the queue.  The neighbours that are visited from a cell go to the end of the queue. -/
inductive Ends (opens : Cell → Cell → Bool) : List Cell → List Cell → Bool → Prop
  | empty (visited : List Cell) : Ends opens visited [] false
  | goal {visited queue : List Cell} {c : Cell} (h : c.isGoal = true) : Ends opens visited (c :: queue) true
  | look {visited queue : List Cell} {c : Cell} {answer : Bool} (h : c.isGoal = false)
      (hrest : Ends opens (visited ++ fresh opens visited c) (queue ++ fresh opens visited c) answer) :
      Ends opens visited (c :: queue) answer

lemma mem_fresh : b ∈ fresh opens visited c ↔ c.Adjacent b ∧ opens c b = true ∧ b ∉ visited := by
  have hadjacent : b ∈ Direction.all.filterMap c.neighbour? ↔ c.Adjacent b := by
    rw [List.mem_filterMap]
    exact exists_congr fun d => and_iff_right d.mem_all
  rw [fresh, List.mem_filter, hadjacent]
  simp [and_comm]

lemma nodup_fresh : (fresh opens visited c).Nodup := by
  have hall : ∀ c ∈ Cell.all, (Direction.all.filterMap c.neighbour?).Nodup := by decide +kernel
  exact (hall c c.mem_all).filter _

/-- Only what is open between neighbours matters. -/
lemma Ends.congr (h : Ends opens visited queue answer) (hopens : ∀ a b, a.Adjacent b → opens a b = opens' a b) :
    Ends opens' visited queue answer := by
  have hfresh : ∀ visited c, fresh opens visited c = fresh opens' visited c := by
    intro visited c
    refine List.filter_congr fun d hd => ?_
    obtain ⟨direction, -, hdirection⟩ := List.mem_filterMap.1 hd
    rw [hopens c d ⟨direction, hdirection⟩]
  induction h with
  | empty visited => exact .empty visited
  | goal h => exact .goal h
  | look h _ ih =>
    rw [hfresh] at ih
    exact .look h ih

/-! ## What has been looked at -/

/-- A search has looked at some cells, none of them on row 4.  It has visited the start and all cells that those
it looked at are open to, and it has still to look at the ones in the queue. -/
structure Seen (opens : Cell → Cell → Bool) (start : Cell) (looked queue : List Cell) : Prop where
  nodup : (looked ++ queue).Nodup
  start : start ∈ looked ++ queue
  goal : ∀ a ∈ looked, a.isGoal = false
  closed : ∀ a ∈ looked, ∀ b, a.Adjacent b → opens a b = true → b ∈ looked ++ queue

namespace Seen

lemma singleton (c : Cell) : Seen opens c [] [c] :=
  ⟨by simp, by simp, by simp, by simp⟩

/-- There are no more than twelve cells to visit. -/
lemma length_le (h : Seen opens start looked queue) : looked.length + queue.length ≤ 12 := by
  have hall : Cell.all.length = 12 := by decide
  have hle := (List.Nodup.subperm h.nodup fun c _ => c.mem_all).length_le
  rwa [List.length_append, hall] at hle

lemma look (h : Seen opens start looked (c :: queue)) (hgoal : c.isGoal = false) :
    Seen opens start (looked ++ [c]) (queue ++ fresh opens (looked ++ c :: queue) c) := by
  have hvisited : looked ++ [c] ++ (queue ++ fresh opens (looked ++ c :: queue) c) =
      (looked ++ c :: queue) ++ fresh opens (looked ++ c :: queue) c := by simp
  constructor
  · rw [hvisited, List.nodup_append]
    refine ⟨h.nodup, nodup_fresh, ?_⟩
    rintro a ha b hb rfl
    exact (mem_fresh.1 hb).2.2 ha
  · rw [hvisited]
    exact List.mem_append_left _ h.start
  · intro a ha
    rcases List.mem_append.1 ha with ha | ha
    · exact h.goal a ha
    · rwa [List.mem_singleton.1 ha]
  · intro a ha b hadjacent hopen
    rw [hvisited]
    rcases List.mem_append.1 ha with ha | ha
    · exact List.mem_append_left _ (h.closed a ha b hadjacent hopen)
    · rw [List.mem_singleton.1 ha] at hadjacent hopen
      by_cases hb : b ∈ looked ++ c :: queue
      · exact List.mem_append_left _ hb
      · exact List.mem_append_right _ (mem_fresh.2 ⟨hadjacent, hopen, hb⟩)

/-- When the queue is empty, the start has no way to row 4. -/
lemma not_goal (h : Seen (isOpen walls) start looked []) (hpath : Path walls start b) : b.isGoal = false := by
  have hlooked : ∀ {d}, Path walls start d → d ∈ looked := by
    intro d hd
    induction hd with
    | refl => simpa using h.start
    | tail _ hopens ih => simpa using h.closed _ ih _ hopens.1 hopens.2
  exact h.goal b (hlooked hpath)

/-- A search that may look at as many cells as are left ends, and if there is a way to row 4, it finds it. -/
theorem run (h : Seen (isOpen walls) start looked queue) (hcount : 12 ≤ looked.length + count) :
    Ends (isOpen walls) (looked ++ queue) queue (search walls count (looked ++ queue) queue) ∧
      ∀ b, b.isGoal = true → Path walls start b → search walls count (looked ++ queue) queue = true := by
  induction count generalizing looked queue with
  | zero =>
    have hlength := h.length_le
    obtain rfl : queue = [] := List.eq_nil_of_length_eq_zero (by omega)
    refine ⟨.empty _, fun b hgoal hpath => ?_⟩
    rw [h.not_goal hpath] at hgoal
    cases hgoal
  | succ count ih =>
    cases queue with
    | nil =>
      refine ⟨.empty _, fun b hgoal hpath => ?_⟩
      rw [h.not_goal hpath] at hgoal
      cases hgoal
    | cons c queue =>
      cases hgoal : c.isGoal with
      | true =>
        have htrue : search walls (count + 1) (looked ++ c :: queue) (c :: queue) = true := by
          rw [search, if_pos hgoal]
        rw [htrue]
        exact ⟨.goal hgoal, fun _ _ _ => rfl⟩
      | false =>
        have hstep : search walls (count + 1) (looked ++ c :: queue) (c :: queue) =
            search walls count (looked ++ c :: queue ++ fresh (isOpen walls) (looked ++ c :: queue) c)
              (queue ++ fresh (isOpen walls) (looked ++ c :: queue) c) := by
          rw [search, hgoal]
          rfl
        have hvisited : looked ++ [c] ++ (queue ++ fresh (isOpen walls) (looked ++ c :: queue) c) =
            looked ++ c :: queue ++ fresh (isOpen walls) (looked ++ c :: queue) c := by simp
        have hrest := ih (h.look hgoal) (by rw [List.length_append, List.length_singleton]; omega)
        rw [hvisited] at hrest
        rw [hstep]
        exact ⟨.look hgoal hrest.1, hrest.2⟩

end Seen

/-! ## Ways to row 4 -/

/-- The bound on the number of cells is never met. -/
theorem canReach_ends (walls : List (Cell × Cell)) (c : Cell) : Ends (isOpen walls) [c] [c] (canReach walls c) :=
  ((Seen.singleton c).run (by simp)).1

theorem canReach_iff : canReach walls c = true ↔ ∃ d, d.isGoal = true ∧ Path walls c d := by
  constructor
  · exact exists_path_of_canReach
  · rintro ⟨d, hgoal, hpath⟩
    exact ((Seen.singleton c).run (by simp)).2 d hgoal hpath

/-- Two cells of a board lie side by side. -/
def Cell.IsBeside (a b : Cell) : Prop := Nat.dist a.column b.column + Nat.dist a.row b.row = 1

lemma Cell.adjacent_iff : a.Adjacent b ↔ a.IsBeside b := by
  have hall : ∀ a ∈ all, ∀ b ∈ all, (∃ d ∈ Direction.all, a.neighbour? d = some b) ↔
      Nat.dist a.column b.column + Nat.dist a.row b.row = 1 := by decide +kernel
  rw [IsBeside, ← hall a a.mem_all b b.mem_all]
  exact exists_congr fun d => (and_iff_right d.mem_all).symm

/-- A pawn can step from a cell to one beside it, as none of some borders and no extra border lies between. -/
def Passes (borders : List String) (extra : String) (a b : Cell) : Prop :=
  a.IsBeside b ∧ a.crossing b ∉ borders ∧ a.crossing b ≠ extra

lemma opens_separated {borders : List String} {extra : String} :
    Opens (separated (extra :: borders)) a b ↔ Passes borders extra a b := by
  rw [Opens, Passes, Cell.adjacent_iff]
  refine and_congr_right fun hbeside => ?_
  rw [isOpen_separated (Cell.adjacent_iff.2 hbeside), List.mem_cons, not_or, and_comm]

/-- Whatever borders there are, and whatever they are called, the search for row 4 ends.  It finds row 4 if and
only if cells each of which lies beside the one before lead there, and no border lies on the crossing between
any two of them. -/
theorem canFinish_iff_walk (c : Cell) (borders : List String) (extra : String) :
    Ends (fun a b => a.crossing b ≠ extra && !borders.contains (a.crossing b)) [c] [c] (canFinish c borders extra) ∧
      (canFinish c borders extra = true ↔ ∃ walk : List Cell, (c :: walk).IsChain (Passes borders extra) ∧
        ((c :: walk).getLast (List.cons_ne_nil c walk)).row = 3) := by
  constructor
  · refine (canReach_ends (separated (extra :: borders)) c).congr fun a b hadjacent => ?_
    rw [Bool.eq_iff_iff, isOpen_separated hadjacent]
    simp
  · have hgoal : ∀ d : Cell, d.isGoal = true ↔ d.row = 3 := fun d => decide_eq_true_iff
    have hpath : ∀ d, Path (separated (extra :: borders)) c d ↔ Relation.ReflTransGen (Passes borders extra) c d := by
      intro d
      have hopens : Opens (separated (extra :: borders)) = Passes borders extra := by
        funext a b
        exact propext opens_separated
      rw [Path, hopens]
    rw [canFinish, canReach_iff]
    simp only [hgoal, hpath]
    constructor
    · rintro ⟨d, hrow, hd⟩
      obtain ⟨walk, hchain, rfl⟩ := List.exists_isChain_cons_of_relationReflTransGen hd
      exact ⟨walk, hchain, hrow⟩
    · rintro ⟨walk, hchain, hrow⟩
      exact ⟨_, hrow, List.relationReflTransGen_of_exists_isChain_cons walk hchain rfl⟩

/-- A border may be placed on a crossing of the opponent's board if it is one of those for borders, there is none
yet, and the opponent can still reach row 4. -/
theorem mem_openBlocks {opponent : Board} {crossing : String} : crossing ∈ openBlocks opponent ↔
    crossing ∈ blockable ∧ crossing ∉ opponent.borders ∧ canFinish opponent.pawn opponent.borders crossing = true := by
  have hwalls : Opens (separated [crossing] ++ separated opponent.borders) =
      Opens (separated (crossing :: opponent.borders)) := by
    funext a b
    refine propext (and_congr_right fun hadjacent => ?_)
    rw [isOpen_append, isOpen_separated hadjacent, isOpen_separated hadjacent, isOpen_separated hadjacent,
      List.mem_singleton, List.mem_cons, not_or]
  rw [openBlocks, List.mem_filter, Bool.and_eq_true, canFinish, canReach_iff, canReach_iff, Path, Path, hwalls]
  simp

end GameSearch.Corridor
