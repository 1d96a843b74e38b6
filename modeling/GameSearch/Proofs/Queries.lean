import Mathlib.Data.List.Forall2
import GameSearch.Proofs.Control

/-!
# Queries side by side

`Together` says of two queries that they fail together, and how their answers are related if they have any.
It is shown along the way in which the queries are put together.
-/

namespace GameSearch

variable {α β γ δ : Type} {P : α → β → Prop} {x : Except Fault α} {y : Except Fault β}

/-- Two queries fail together, and their answers are related if they have any. -/
def Together (P : α → β → Prop) : Except Fault α → Except Fault β → Prop
  | .ok a, .ok b => P a b
  | .error _, .error _ => True
  | _, _ => False

lemma Together.refl (x : Except Fault α) : Together (· = ·) x x := by
  cases x with
  | error e => trivial
  | ok a => exact rfl

lemma Together.bind {Q : γ → δ → Prop} {f : α → Except Fault γ} {g : β → Except Fault δ} (h : Together P x y)
    (hf : ∀ a b, P a b → Together Q (f a) (g b)) : Together Q (x >>= f) (y >>= g) := by
  cases x <;> cases y
  · trivial
  · exact h.elim
  · exact h.elim
  · exact hf _ _ h

lemma Together.mapM {l : List γ} {f : γ → Except Fault α} {g : γ → Except Fault β}
    (h : ∀ c ∈ l, Together P (f c) (g c)) : Together (List.Forall₂ P) (l.mapM f) (l.mapM g) := by
  induction l with
  | nil => exact .nil
  | cons c l ih =>
    rw [List.mapM_cons, List.mapM_cons]
    refine (h c List.mem_cons_self).bind fun a b hab => ?_
    refine (ih fun d hd => h d (List.mem_cons_of_mem c hd)).bind fun as bs hrest => ?_
    exact List.Forall₂.cons hab hrest

lemma Together.eq_ok_iff {y : Except Fault α} (h : Together (· = ·) x y) (a : α) : x = .ok a ↔ y = .ok a := by
  cases x <;> cases y
  · simp
  · exact h.elim
  · exact h.elim
  · simp only [Together] at h
    rw [h]

/-- What a test that may fail leaves of a list. -/
lemma filterM_eq_ok {test : α → Except Fault Bool} {l r : List α} (h : l.filterM test = .ok r) :
    (∀ a ∈ l, ∃ b, test a = .ok b) ∧ r = l.filter fun a => (test a).toOption.getD false := by
  have haux : ∀ l acc r, List.filterAuxM test l acc = .ok r → (∀ a ∈ l, ∃ b, test a = .ok b) ∧
      r = (l.filter fun a => (test a).toOption.getD false).reverse ++ acc := by
    intro l
    induction l with
    | nil =>
      intro acc r hr
      cases hr
      simp
    | cons a l ih =>
      intro acc r hr
      rw [List.filterAuxM] at hr
      cases ha : test a with
      | error e =>
        rw [ha] at hr
        cases hr
      | ok b =>
        rw [ha] at hr
        obtain ⟨hall, rfl⟩ := ih _ r hr
        refine ⟨fun c hc => ?_, ?_⟩
        · rcases List.mem_cons.1 hc with rfl | hc
          · exact ⟨b, ha⟩
          · exact hall c hc
        · cases b <;> simp [ha, Except.toOption]
  rw [List.filterM] at h
  cases hl : List.filterAuxM test l [] with
  | error e =>
    rw [hl] at h
    cases h
  | ok as =>
    rw [hl] at h
    obtain ⟨hall, rfl⟩ := haux l [] as hl
    cases h
    exact ⟨hall, by simp⟩

/-- A test that does not fail leaves something of a list. -/
lemma exists_filterM_eq_ok {test : α → Except Fault Bool} {l : List α} (h : ∀ a ∈ l, ∃ b, test a = .ok b) :
    ∃ r, l.filterM test = .ok r := by
  have haux : ∀ acc, ∃ r, List.filterAuxM test l acc = .ok r := by
    induction l with
    | nil => exact fun acc => ⟨acc, rfl⟩
    | cons a l ih =>
      intro acc
      obtain ⟨b, hb⟩ := h a List.mem_cons_self
      rw [List.filterAuxM, hb]
      exact ih (fun c hc => h c (List.mem_cons_of_mem a hc)) _
  obtain ⟨r, hr⟩ := haux []
  exact ⟨r.reverse, by rw [List.filterM, hr]; rfl⟩

/-- The facts of a state that pass a test are listed as they are in the state. -/
lemma State.toList_ofList_filter (s : State) (test : Term → Bool) :
    (State.ofList (s.toList.filter test)).toList = s.toList.filter test :=
  SortedSet.eq_of_sorted_of_mem_iff (State.ofList _).facts.sorted (s.facts.sorted.filter _) fun _ => State.mem_ofList

end GameSearch
