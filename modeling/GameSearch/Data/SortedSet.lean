/-!
# Sorted sets

A finite set kept as its strictly increasing list of members, so that two sets with the same
members are equal whatever the order of insertion.  `SortedSet.mem_ofList` and
`SortedSet.mem_insert` say what the operations do to membership, `SortedSet.ext` that membership is
all there is.  The sets of this library that are built this way are small: the facts of a state,
the roles in control.
-/

namespace GameSearch

/-- A finite set, as the strictly increasing list of its members. -/
structure SortedSet (α : Type) [Ord α] where
  /-- The members in increasing order. -/
  toList : List α
  sorted : toList.Pairwise fun a b => compare a b = .lt

namespace SortedSet

variable {α : Type} [Ord α]

instance : Membership α (SortedSet α) := ⟨fun s a => a ∈ s.toList⟩

instance : EmptyCollection (SortedSet α) := ⟨⟨[], .nil⟩⟩

instance [DecidableEq α] : DecidableEq (SortedSet α) := fun s t =>
  decidable_of_iff (s.toList = t.toList) ⟨fun h => by cases s; cases t; simp_all, fun h => h ▸ rfl⟩

instance [DecidableEq α] (a : α) (s : SortedSet α) : Decidable (a ∈ s) :=
  inferInstanceAs (Decidable (a ∈ s.toList))

theorem mem_def {a : α} {s : SortedSet α} : a ∈ s ↔ a ∈ s.toList := Iff.rfl

def size (s : SortedSet α) : Nat := s.toList.length

def isEmpty (s : SortedSet α) : Bool := s.toList.isEmpty

/-- Puts a member into an increasing list, at its place. -/
def insertInto (a : α) : List α → List α
  | [] => [a]
  | b :: r =>
    match compare a b with
    | .lt => a :: b :: r
    | .eq => b :: r
    | .gt => b :: insertInto a r

theorem mem_insertInto [Std.LawfulEqOrd α] {a x : α} {l : List α} :
    x ∈ insertInto a l ↔ x = a ∨ x ∈ l := by
  induction l with
  | nil => simp [insertInto]
  | cons b r ih =>
    simp only [insertInto]
    split
    · simp
    · rename_i h
      have : a = b := Std.LawfulEqOrd.eq_of_compare h
      subst this
      simp
    · simp [ih, or_left_comm]

theorem sorted_insertInto [Std.TransOrd α] [Std.LawfulEqOrd α] (a : α) {l : List α}
    (h : l.Pairwise fun a b => compare a b = .lt) :
    (insertInto a l).Pairwise fun a b => compare a b = .lt := by
  induction l with
  | nil => simp [insertInto]
  | cons b r ih =>
    obtain ⟨hb, hr⟩ := List.pairwise_cons.1 h
    simp only [insertInto]
    split
    · rename_i hab
      refine List.pairwise_cons.2 ⟨fun x hx => ?_, h⟩
      rcases List.mem_cons.1 hx with rfl | hx
      · exact hab
      · exact Std.TransCmp.lt_trans hab (hb x hx)
    · exact h
    · rename_i hab
      refine List.pairwise_cons.2 ⟨fun x hx => ?_, ih hr⟩
      rcases mem_insertInto.1 hx with rfl | hx
      · exact Std.OrientedCmp.gt_iff_lt.1 hab
      · exact hb x hx

@[simp] theorem not_mem_empty (a : α) : a ∉ (∅ : SortedSet α) := List.not_mem_nil

variable [Std.TransOrd α] [Std.LawfulEqOrd α]

def insert (s : SortedSet α) (a : α) : SortedSet α :=
  ⟨insertInto a s.toList, sorted_insertInto a s.sorted⟩

/-- The set of the members of a list. -/
def ofList (l : List α) : SortedSet α := l.foldl insert ∅

@[simp] theorem mem_insert {s : SortedSet α} {a x : α} : x ∈ s.insert a ↔ x = a ∨ x ∈ s :=
  mem_insertInto

theorem mem_foldl_insert {l : List α} {s : SortedSet α} {x : α} :
    x ∈ l.foldl insert s ↔ x ∈ s ∨ x ∈ l := by
  induction l generalizing s with
  | nil => simp
  | cons a r ih => simp [ih, or_assoc, or_left_comm]

@[simp] theorem mem_ofList {l : List α} {x : α} : x ∈ ofList l ↔ x ∈ l := by
  simp [ofList, mem_foldl_insert]

/-- Two increasing lists with the same members are the same list. -/
theorem eq_of_sorted_of_mem_iff {l m : List α} (hl : l.Pairwise fun a b => compare a b = .lt)
    (hm : m.Pairwise fun a b => compare a b = .lt) (h : ∀ x, x ∈ l ↔ x ∈ m) : l = m := by
  induction l generalizing m with
  | nil =>
    cases m with
    | nil => rfl
    | cons b m => exact absurd ((h b).2 (by simp)) (by simp)
  | cons a l ih =>
    cases m with
    | nil => exact absurd ((h a).1 (by simp)) (by simp)
    | cons b m =>
      obtain ⟨ha, hl'⟩ := List.pairwise_cons.1 hl
      obtain ⟨hb, hm'⟩ := List.pairwise_cons.1 hm
      have irrefl : ∀ x : α, compare x x ≠ .lt := fun x => by simp
      have hab : a = b := by
        rcases List.mem_cons.1 ((h a).1 (by simp)) with e | e
        · exact e
        · rcases List.mem_cons.1 ((h b).2 (by simp)) with e' | e'
          · exact e'.symm
          · exact absurd (Std.TransCmp.lt_trans (ha b e') (hb a e)) (irrefl a)
      subst hab
      congr 1
      refine ih hl' hm' fun x => ?_
      constructor
      · intro hx
        rcases List.mem_cons.1 ((h x).1 (List.mem_cons_of_mem a hx)) with rfl | e
        · exact absurd (ha x hx) (irrefl x)
        · exact e
      · intro hx
        rcases List.mem_cons.1 ((h x).2 (List.mem_cons_of_mem a hx)) with rfl | e
        · exact absurd (hb x hx) (irrefl x)
        · exact e

/-- A sorted set is determined by its members. -/
theorem ext {s t : SortedSet α} (h : ∀ x, x ∈ s ↔ x ∈ t) : s = t := by
  have := eq_of_sorted_of_mem_iff s.sorted t.sorted h
  cases s; cases t
  simp_all

end SortedSet

end GameSearch
