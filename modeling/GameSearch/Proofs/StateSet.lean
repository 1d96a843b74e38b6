import Mathlib.Data.List.Perm.Subperm
import Mathlib.Tactic.Lemma
import GameSearch.State

/-!
# Sets of states
-/

namespace GameSearch.StateSet

variable {s t : StateSet} {x : State}

lemma mem_insert {y : State} : x ∈ s.insert y ↔ x = y ∨ x ∈ s := by
  rw [Std.ExtTreeSet.mem_insert, Std.compare_eq_iff_eq, eq_comm]

lemma mem_singleton {y : State} : x ∈ ({y} : StateSet) ↔ x = y := by
  have h : x ∈ (∅ : StateSet).insert y ↔ x = y := by
    rw [mem_insert]
    simp
  exact h

lemma mem_filter_contains : x ∈ s.filter t.contains ↔ x ∈ s ∧ x ∈ t := by
  rw [Std.ExtTreeSet.mem_filter]
  constructor
  · rintro ⟨h, hc⟩
    rw [Std.ExtTreeSet.get_eq] at hc
    exact ⟨h, hc⟩
  · rintro ⟨h, hc⟩
    refine ⟨h, ?_⟩
    rw [Std.ExtTreeSet.get_eq]
    exact hc

lemma ext_iff_mem : s = t ↔ ∀ x, x ∈ s ↔ x ∈ t :=
  ⟨fun h _ => h ▸ Iff.rfl, fun h => Std.ExtTreeSet.ext_mem fun x => h x⟩

/-- A set with as many members as one that it is part of is that set. -/
lemma eq_of_subset_of_size_eq (hsub : ∀ x ∈ s, x ∈ t) (hsize : s.size = t.size) : s = t := by
  have hfilter : t.filter s.contains = s := by
    refine Std.ExtTreeSet.ext_mem fun x => ?_
    rw [mem_filter_contains]
    exact ⟨fun h => h.2, fun h => ⟨hsub x h, h⟩⟩
  have hall := Std.ExtTreeSet.size_filter_eq_size_iff.1 ((congrArg _ hfilter).trans hsize)
  refine Std.ExtTreeSet.ext_mem fun x => ⟨hsub x, fun hx => ?_⟩
  have := hall x hx
  rwa [Std.ExtTreeSet.get_eq] at this

lemma isEmpty_eq_false_iff : s.isEmpty = false ↔ ∃ x, x ∈ s := by
  rw [Std.ExtTreeSet.isEmpty_eq_false_iff, Std.ExtTreeSet.eq_empty_iff_forall_not_mem]
  simp

lemma isEmpty_singleton (x : State) : ({x} : StateSet).isEmpty = false :=
  isEmpty_eq_false_iff.2 ⟨x, mem_singleton.2 rfl⟩

lemma nodup_toList : s.toList.Nodup := by
  have h := Std.ExtTreeSet.distinct_toList (t := s)
  refine h.imp fun {a b} hne heq => hne ?_
  rw [heq]
  exact Std.ReflCmp.compare_self

lemma mem_of_toList_eq {before after : List State} (h : s.toList = before ++ x :: after) : x ∈ s :=
  Std.ExtTreeSet.mem_toList.1 (h ▸ List.mem_append_right _ List.mem_cons_self)

lemma not_mem_of_toList_eq {before after : List State} (h : s.toList = before ++ x :: after) : x ∉ before := by
  have hnodup := nodup_toList (s := s)
  rw [h, List.nodup_append] at hnodup
  exact fun hmem => hnodup.2.2 x hmem x List.mem_cons_self rfl

lemma mem_ofList {l : List State} : x ∈ (Std.ExtTreeSet.ofList l : StateSet) ↔ x ∈ l := by
  rw [Std.ExtTreeSet.mem_ofList]
  simp

/-- The set of some members of a set has as many members as were taken. -/
lemma size_ofList_of_sublist {l : List State} (h : l.Sublist s.toList) :
    (Std.ExtTreeSet.ofList l : StateSet).size = l.length :=
  Std.ExtTreeSet.size_ofList (Std.ExtTreeSet.distinct_toList.sublist h)

lemma size_toList : s.toList.length = s.size := Std.ExtTreeSet.length_toList

lemma size_le_of_subset {l : List State} (h : ∀ x ∈ s, x ∈ l) : s.size ≤ l.length := by
  rw [← size_toList]
  exact (List.Nodup.subperm nodup_toList fun x hx => h x (Std.ExtTreeSet.mem_toList.1 hx)).length_le

end GameSearch.StateSet
