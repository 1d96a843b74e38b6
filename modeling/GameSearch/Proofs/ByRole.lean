import Mathlib.Data.List.Nodup
import Mathlib.Tactic.Lemma
import GameSearch.State

/-!
# Tables by role

A table by role as the list of its entries, which has one entry for each role.
-/

namespace GameSearch.ByRole

variable {α : Type} {table : ByRole α} {role : Role} {x : α}

lemma values_eq (table : ByRole α) : table.values = table.toList.map Prod.snd := by
  obtain ⟨⟨inner⟩⟩ := table
  induction inner using Quotient.inductionOn with
  | h t =>
    change t.inner.values = (Std.DTreeMap.Internal.Impl.Const.toList t.inner).map Prod.snd
    rw [Std.DTreeMap.Internal.Impl.values_eq_map_snd,
      Std.DTreeMap.Internal.Impl.Const.toList_eq_toListModel_map, List.map_map]
    rfl

lemma mem_values : x ∈ table.values ↔ ∃ role : Role, table[role]? = some x := by
  rw [values_eq, List.mem_map]
  constructor
  · rintro ⟨⟨role, y⟩, hin, rfl⟩
    exact ⟨role, Std.ExtTreeMap.mem_toList_iff_getElem?_eq_some.1 hin⟩
  · rintro ⟨role, hx⟩
    exact ⟨(role, x), Std.ExtTreeMap.mem_toList_iff_getElem?_eq_some.2 hx, rfl⟩

lemma nodup_roles (table : ByRole α) : (table.toList.map Prod.fst).Nodup := by
  rw [Std.ExtTreeMap.map_fst_toList_eq_keys]
  exact Std.ExtTreeMap.nodup_keys

/-- A table made of a list with one entry for each role. -/
lemma getElem?_ofList {l : List (Role × α)} (hnodup : (l.map Prod.fst).Nodup) :
    (Std.ExtTreeMap.ofList l : ByRole α)[role]? = some x ↔ (role, x) ∈ l := by
  have hdistinct : l.Pairwise fun a b => ¬compare a.1 b.1 = .eq := by
    refine (List.pairwise_map.1 hnodup).imp fun hne heq => hne ?_
    exact Std.compare_eq_iff_eq.1 heq
  constructor
  · intro h
    have hin : role ∈ (Std.ExtTreeMap.ofList l : ByRole α) :=
      Std.ExtTreeMap.mem_iff_isSome_getElem?.2 (by rw [h]; rfl)
    rw [Std.ExtTreeMap.mem_ofList, List.contains_iff_mem, List.mem_map] at hin
    obtain ⟨⟨role', y⟩, hin, rfl⟩ := hin
    rw [Std.ExtTreeMap.getElem?_ofList_of_mem Std.ReflCmp.compare_self hdistinct hin,
      Option.some.injEq] at h
    exact h ▸ hin
  · exact Std.ExtTreeMap.getElem?_ofList_of_mem Std.ReflCmp.compare_self hdistinct

lemma ofList_toList (t : ByRole α) : (Std.ExtTreeMap.ofList t.toList : ByRole α) = t := by
  refine Std.ExtTreeMap.ext_getElem? fun role => Option.ext fun x => ?_
  rw [getElem?_ofList t.nodup_roles, Std.ExtTreeMap.mem_toList_iff_getElem?_eq_some]

/-- The entries of a table are that of a role and those of the others. -/
lemma perm_erase (h : table[role]? = some x) : table.toList.Perm ((role, x) :: (table.erase role).toList) := by
  have herased : ∀ y, (role, y) ∉ (table.erase role).toList := by
    intro y
    simp [Std.ExtTreeMap.mem_toList_iff_getElem?_eq_some]
  apply (List.perm_ext_iff_of_nodup table.nodup_roles.of_map ?_).2
  · rintro ⟨other, y⟩
    rw [List.mem_cons, Std.ExtTreeMap.mem_toList_iff_getElem?_eq_some, Std.ExtTreeMap.mem_toList_iff_getElem?_eq_some,
      Std.ExtTreeMap.getElem?_erase]
    by_cases hother : role = other
    · subst hother
      simp [h, eq_comm]
    · simp [hother, Ne.symm hother]
  · exact List.nodup_cons.2 ⟨herased x, (nodup_roles _).of_map⟩

end GameSearch.ByRole
