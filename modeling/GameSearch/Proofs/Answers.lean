import Mathlib.Data.List.Forall2
import Mathlib.Tactic.Lemma
import GameSearch.Fault

/-!
# Queries in a row

Some queries, asked one after the other, have an answer if each of them has one, and fail as the first that
has none.
-/

namespace GameSearch

/-- Two queries in a row have an answer if both of them have one. -/
lemma bind_eq_ok {α β : Type} {x : Except Fault α} {f : α → Except Fault β} {b : β} :
    x >>= f = .ok b ↔ ∃ a, x = .ok a ∧ f a = .ok b := by
  cases x with
  | error e =>
    refine ⟨fun h => ?_, fun ⟨a, ha, _⟩ => ?_⟩
    · cases h
    · cases ha
  | ok a => simp [bind, Except.bind]

/-- A query has an answer that is made from that of another one. -/
lemma map_eq_ok {α β : Type} {x : Except Fault α} {f : α → β} {b : β} : f <$> x = .ok b ↔ ∃ a, x = .ok a ∧ f a = b := by
  cases x with
  | error e => simp [Functor.map, Except.map]
  | ok a => simp [Functor.map, Except.map]

/-- What a list of queries comes to if none of them fails. -/
lemma forall₂_of_mapM {α β : Type} {f : α → Except Fault β} {l : List α} {r : List β}
    (h : l.mapM f = .ok r) : List.Forall₂ (fun a b => f a = .ok b) l r := by
  induction l generalizing r with
  | nil =>
    cases h
    exact .nil
  | cons a l ih =>
    rw [List.mapM_cons] at h
    obtain ⟨b, hb, h⟩ := bind_eq_ok.1 h
    obtain ⟨r', hr', h⟩ := bind_eq_ok.1 h
    cases h
    exact .cons hb (ih hr')

lemma map_eq_of_mapM {α β : Type} {f : α → Except Fault β} {l : List α} {r : List β}
    (h : l.mapM f = .ok r) : l.map f = r.map .ok := by
  have hall := forall₂_of_mapM h
  clear h
  induction hall with
  | nil => rfl
  | cons hb _ ih => rw [List.map_cons, hb, ih, List.map_cons]

lemma mem_of_mapM {α β : Type} {f : α → Except Fault β} {l : List α} {r : List β}
    (h : l.mapM f = .ok r) (b : β) : b ∈ r ↔ ∃ a ∈ l, f a = .ok b := by
  have hmap := map_eq_of_mapM h
  rw [← List.mem_map, hmap, List.mem_map]
  simp

/-- A list of queries fails as one of them does. -/
lemma exists_of_mapM_eq_error {α β : Type} {f : α → Except Fault β} {l : List α} {e : Fault}
    (h : l.mapM f = .error e) : ∃ a ∈ l, f a = .error e := by
  induction l with
  | nil => cases h
  | cons a l ih =>
    rw [List.mapM_cons] at h
    cases ha : f a with
    | error e' =>
      rw [ha] at h
      cases h
      exact ⟨a, List.mem_cons_self, ha⟩
    | ok b =>
      rw [ha] at h
      cases hl : l.mapM f with
      | error e' =>
        rw [hl] at h
        cases h
        obtain ⟨a', ha', herror⟩ := ih hl
        exact ⟨a', List.mem_cons_of_mem a ha', herror⟩
      | ok r =>
        rw [hl] at h
        cases h

/-- A list of queries has an answer if each of them has one. -/
lemma exists_mapM_eq_ok {α β : Type} {f : α → Except Fault β} {l : List α}
    (h : ∀ a ∈ l, ∃ b, f a = .ok b) : ∃ r, l.mapM f = .ok r := by
  cases hl : l.mapM f with
  | ok r => exact ⟨r, rfl⟩
  | error e =>
    obtain ⟨a, ha, herror⟩ := exists_of_mapM_eq_error hl
    obtain ⟨b, hb⟩ := h a ha
    cases herror.symm.trans hb

lemma eq_map_of_mapM {α β : Type} {f : α → Except Fault β} {g : α → β} {l : List α} {r : List β}
    (h : l.mapM f = .ok r) (hg : ∀ a b, f a = .ok b → b = g a) : r = l.map g := by
  have hmap := map_eq_of_mapM h
  clear h
  induction l generalizing r with
  | nil => rw [List.map_eq_nil_iff.1 hmap.symm, List.map_nil]
  | cons a l ih =>
    obtain ⟨b, r, rfl, hb, hr⟩ := List.map_eq_cons_iff.1 hmap.symm
    rw [List.map_cons, hg a b hb.symm, ih hr.symm]

end GameSearch
