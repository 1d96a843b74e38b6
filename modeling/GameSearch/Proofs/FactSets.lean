import Mathlib.Data.List.Destutter
import Mathlib.Data.List.Perm.Subperm
import Mathlib.Data.List.Sort
import Mathlib.Tactic.Lemma
import GameSearch.State

/-!
# States as sets of facts

A state is made of a list of facts, and what becomes of it depends on the members of the list alone.
`SortedSet.toList_ofList` says what is stored, namely what sorting the list and dropping repetitions leaves, and
`State.ofList_canonical` that the operations on states are those on sets.
-/

namespace GameSearch

namespace SortedSet

section

variable {α : Type} [Ord α] [Std.LawfulEqOrd α] {s : SortedSet α} {a b : α}

lemma ne_of_compare_lt (h : compare a b = .lt) : a ≠ b := by
  rintro rfl
  have hself : compare a a = .eq := Std.ReflCmp.compare_self
  rw [hself] at h
  cases h

lemma compare_lt_of_isLE_of_ne (h : (compare a b).isLE = true) (hne : a ≠ b) : compare a b = .lt := by
  cases hab : compare a b with
  | lt => rfl
  | eq => exact absurd (Std.LawfulEqCmp.eq_of_compare hab) hne
  | gt =>
    rw [hab] at h
    cases h

lemma nodup_toList : s.toList.Nodup := s.sorted.imp ne_of_compare_lt

end

variable {α : Type} [Ord α] [Std.TransOrd α] [Std.LawfulEqOrd α] {s t : SortedSet α} {a : α}

/-- A set is part of another one if and only if its members occur among those of the other one in their order. -/
theorem sublist_iff : t.toList.Sublist s.toList ↔ ∀ a ∈ t, a ∈ s := by
  constructor
  · exact fun hsublist a ha => hsublist.subset ha
  · intro hsubset
    have hantisymm : Std.Antisymm fun a b : α => compare a b = .lt :=
      ⟨fun _ _ hab hba => absurd hba (Std.OrientedCmp.not_lt_of_lt hab)⟩
    exact List.sublist_of_subperm_of_pairwise (List.Nodup.subperm nodup_toList hsubset) t.sorted s.sorted

/-- A member is level with a stored one: neither of the two comes before the other. -/
theorem mem_iff_exists_level : a ∈ s ↔ ∃ b ∈ s.toList, compare b a ≠ .lt ∧ compare a b ≠ .lt := by
  constructor
  · intro ha
    refine ⟨a, ha, ?_, ?_⟩ <;> exact fun hlt => ne_of_compare_lt hlt rfl
  · rintro ⟨b, hb, hba, hab⟩
    have hlevel : compare b a = .eq := by
      cases hcompare : compare b a with
      | lt => exact absurd hcompare hba
      | eq => rfl
      | gt => exact absurd (Std.OrientedCmp.gt_iff_lt.1 hcompare) hab
    rwa [← Std.LawfulEqCmp.eq_of_compare hlevel]

/-- The members of a list are stored as sorting the list and dropping what is repeated next to each other
leaves them. -/
theorem toList_ofList [DecidableEq α] (l : List α) :
    (ofList l).toList = (l.mergeSort fun a b => (compare a b).isLE).destutter (· ≠ ·) := by
  have hsorted : (l.mergeSort fun a b => (compare a b).isLE).Pairwise fun a b => (compare a b).isLE = true := by
    apply List.pairwise_mergeSort
    · exact fun a b c => Std.TransCmp.isLE_trans
    · intro a b
      rw [Bool.or_eq_true, or_iff_not_imp_left]
      exact fun h => Ordering.isLE_of_eq_lt (Std.OrientedCmp.lt_of_not_isLE h)
  have hantisymm : Std.Antisymm fun a b : α => (compare a b).isLE = true :=
    ⟨fun _ _ hab hba => Std.LawfulEqCmp.eq_of_compare (Std.OrientedCmp.isLE_antisymm hab hba)⟩
  rw [hsorted.destutter_eq_dedup]
  apply eq_of_sorted_of_mem_iff (ofList l).sorted
  · refine ((hsorted.sublist (List.dedup_sublist _)).and (List.nodup_dedup _)).imp ?_
    exact fun ⟨hle, hne⟩ => compare_lt_of_isLE_of_ne hle hne
  · intro a
    rw [List.mem_dedup, List.mem_mergeSort]
    exact mem_ofList

end SortedSet

namespace State

variable {s t : State} {a b : List Term}

/-- Whether two states are found to be the same: the hashes are compared first, and the facts only if the hashes
are equal. -/
def isSame (s t : State) : Bool := hash s == hash t && s.facts == t.facts

/-- No two states are told apart by hashes of the same facts. -/
lemma isSame_iff : s.isSame t = true ↔ s = t := by
  rw [isSame, Bool.and_eq_true, beq_iff_eq, beq_iff_eq]
  constructor
  · exact fun h => ext h.2
  · rintro rfl
    exact ⟨rfl, rfl⟩

lemma ofList_eq_iff : ofList a = ofList b ↔ ∀ f, f ∈ a ↔ f ∈ b := by
  constructor
  · intro h f
    rw [← mem_ofList, h, mem_ofList]
  · intro h
    apply ext_mem
    intro f
    rw [mem_ofList, mem_ofList, h]

lemma includes_iff_sublist : s.includes t = true ↔ t.toList.Sublist s.toList :=
  includes_iff.trans SortedSet.sublist_iff.symm

/-- Of two states one comes before the other, or they are the same; only one of the three is the case. -/
lemma compare_trichotomy (s t : State) :
    (compare s t = .lt ∧ s ≠ t ∧ compare t s ≠ .lt) ∨ (compare s t ≠ .lt ∧ s = t ∧ compare t s ≠ .lt) ∨
      (compare s t ≠ .lt ∧ s ≠ t ∧ compare t s = .lt) := by
  cases h : compare s t with
  | lt => exact .inl ⟨rfl, SortedSet.ne_of_compare_lt h, Std.OrientedCmp.not_lt_of_lt h⟩
  | eq =>
    obtain rfl : s = t := Std.LawfulEqCmp.eq_of_compare h
    exact .inr (.inl ⟨by simp, rfl, by simp⟩)
  | gt =>
    have hlt := Std.OrientedCmp.gt_iff_lt.1 h
    exact .inr (.inr ⟨by simp, (SortedSet.ne_of_compare_lt hlt).symm, hlt⟩)

/-- A state is the set of the facts that it is made of, in whatever order and however often they are listed.
States of the same facts are the same, whether or not hashes are compared first, and have one hash and one text.
Each fact is stored once, in increasing order.  A search for a fact level with a given one, a comparison of the
stored facts in step, and one more fact answer as they do for sets.  Between two states just one of the relations
before, same and after holds. -/
theorem ofList_canonical (a b : List Term) :
    (ofList a = ofList b ↔ ∀ f, f ∈ a ↔ f ∈ b) ∧
      ((ofList a).isSame (ofList b) = true ↔ ∀ f, f ∈ a ↔ f ∈ b) ∧
      ((∀ f, f ∈ a ↔ f ∈ b) → hash (ofList a) = hash (ofList b) ∧ (ofList a).text = (ofList b).text) ∧
      (ofList a).toList = (a.mergeSort fun f g => (compare f g).isLE).destutter (· ≠ ·) ∧
      (ofList a).toList.Pairwise (fun f g => compare f g = .lt) ∧
      (∀ f, ((ofList a).contains f = true ↔ f ∈ a) ∧
        (f ∈ a ↔ ∃ g ∈ (ofList a).toList, compare g f ≠ .lt ∧ compare f g ≠ .lt)) ∧
      ((ofList a).includes (ofList b) = true ↔ ∀ f ∈ b, f ∈ a) ∧
      ((ofList b).toList.Sublist (ofList a).toList ↔ ∀ f ∈ b, f ∈ a) ∧
      (∀ f, (ofList a).insert f = ofList (a ++ [f])) ∧
      (∀ s t : State, (compare s t = .lt ∧ s ≠ t ∧ compare t s ≠ .lt) ∨
        (compare s t ≠ .lt ∧ s = t ∧ compare t s ≠ .lt) ∨ (compare s t ≠ .lt ∧ s ≠ t ∧ compare t s = .lt)) ∧
      ∀ s t u : State, compare s t = .lt → compare t u = .lt → compare s u = .lt := by
  have hincludes : (ofList a).includes (ofList b) = true ↔ ∀ f ∈ b, f ∈ a := by simp [includes_iff]
  refine ⟨ofList_eq_iff, isSame_iff.trans ofList_eq_iff, ?_, SortedSet.toList_ofList a, (ofList a).facts.sorted,
    fun f => ⟨?_, ?_⟩, hincludes, includes_iff_sublist.symm.trans hincludes, fun f => ?_, compare_trichotomy,
    fun s t u => Std.TransCmp.lt_trans⟩
  · intro h
    rw [ofList_eq_iff.2 h]
    exact ⟨rfl, rfl⟩
  · rw [contains, decide_eq_true_iff, mem_ofList]
  · rw [← mem_ofList]
    exact SortedSet.mem_iff_exists_level
  · apply ext_mem
    intro g
    simp [or_comm]

end State

end GameSearch
