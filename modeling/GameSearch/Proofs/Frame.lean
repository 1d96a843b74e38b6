import Mathlib.Order.Defs.Unbundled
import GameSearch.Proofs.Outcome

/-!
# What actions leave as it was

`Action.Respects` says that an action which succeeds leads from a state only to states that stand in a
given relation to it.  If the relation is a preorder, it is enough that each part of the action respects
it, however the parts are put together.
-/

namespace GameSearch

namespace Action

variable {σ α β : Type} {R : σ → σ → Prop}

/-- Whenever an action succeeds, the state after it stands in a relation to the one before it. -/
def Respects (R : σ → σ → Prop) (x : Action σ α) : Prop := ∀ s r t, x s = .ok r t → R s t

lemma Respects.mono {R' : σ → σ → Prop} {x : Action σ α} (h : Respects R x)
    (himp : ∀ s t, R s t → R' s t) : Respects R' x := fun s r t hrun => himp s t (h s r t hrun)

lemma respects_modify {f : σ → σ} (h : ∀ s, R s (f s)) : Respects R (modify f : Action σ PUnit) := by
  intro s r t hrun
  cases hrun
  exact h s

lemma respects_throw (e : Fault) : Respects R (throw e : Action σ α) := by
  intro s r t hrun
  cases hrun

lemma Respects.ite {c : Prop} [Decidable c] {x y : Action σ α} (hx : c → Respects R x)
    (hy : ¬c → Respects R y) : Respects R (if c then x else y) := by
  split
  · exact hx ‹_›
  · exact hy ‹_›

variable [IsPreorder σ R]

lemma respects_pure (a : α) : Respects R (pure a : Action σ α) := by
  intro s r t hrun
  cases hrun
  exact Std.Refl.refl s

lemma respects_get : Respects R (get : Action σ σ) := by
  intro s r t hrun
  cases hrun
  exact Std.Refl.refl s

lemma respects_lift (q : Except Fault α) : Respects R (liftM q : Action σ α) := by
  intro s r t hrun
  obtain ⟨-, rfl⟩ := lift_eq_ok.1 hrun
  exact Std.Refl.refl t

lemma Respects.bind {x : Action σ α} {f : α → Action σ β} (hx : Respects R x)
    (hf : ∀ a, Respects R (f a)) : Respects R (x >>= f) := by
  intro s r t hrun
  obtain ⟨a, u, ha, hr⟩ := bind_eq_ok.1 hrun
  exact IsTrans.trans s u t (hx s a u ha) (hf a u r t hr)

lemma respects_get_bind {f : σ → Action σ β} (hf : ∀ a, Respects R (f a)) :
    Respects R ((get : Action σ σ) >>= f) := respects_get.bind hf

lemma respects_lift_bind {q : Except Fault α} {f : α → Action σ β} (hf : ∀ a, Respects R (f a)) :
    Respects R ((liftM q : Action σ α) >>= f) := (respects_lift q).bind hf

lemma respects_forIn {l : List α} {b : β} {f : α → β → Action σ (ForInStep β)}
    (h : ∀ x ∈ l, ∀ b, Respects R (f x b)) : Respects R (forIn l b f) := by
  induction l generalizing b with
  | nil => exact respects_pure b
  | cons x l ih =>
    rw [List.forIn_cons]
    refine (h x List.mem_cons_self b).bind fun r => ?_
    cases r with
    | done b => exact respects_pure b
    | yield b => exact ih fun y hy => h y (List.mem_cons_of_mem x hy)

lemma respects_mapM {l : List α} {f : α → Action σ β} (h : ∀ x ∈ l, Respects R (f x)) :
    Respects R (l.mapM f) := by
  induction l with
  | nil => exact respects_pure []
  | cons x l ih =>
    rw [List.mapM_cons]
    exact (h x List.mem_cons_self).bind fun b =>
      (ih fun y hy => h y (List.mem_cons_of_mem x hy)).bind fun bs => respects_pure (b :: bs)

lemma respects_allM {l : List α} {p : α → Action σ Bool} (h : ∀ x ∈ l, Respects R (p x)) :
    Respects R (l.allM p) := by
  induction l with
  | nil => exact respects_pure true
  | cons x l ih =>
    rw [List.allM]
    refine (h x List.mem_cons_self).bind fun b => ?_
    cases b with
    | true => exact ih fun y hy => h y (List.mem_cons_of_mem x hy)
    | false => exact respects_pure false

omit [IsPreorder σ R]

/-! ## Loops that succeed -/

/-- What holds after some actions in a row that succeed, by an invariant over the elements visited so far
and their results. -/
theorem mapM_eq_ok {l : List α} {f : α → Action σ β} {I : List α → List β → σ → Prop}
    (step : ∀ before x after results s b s', l = before ++ x :: after → I before results s →
      f x s = .ok b s' → I (before ++ [x]) (results ++ [b]) s') {s s' : σ} {bs : List β}
    (start : I [] [] s) (run : l.mapM f s = .ok bs s') : I l bs s' := by
  have hround : ∀ before x after results s, l = before ++ x :: after → I before results s →
      Ensures (fun _ => False) (f x) s fun b s' => I (before ++ [x]) (results ++ [b]) s' := by
    intro before x after results s hl hi
    unfold Ensures
    cases hx : f x s with
    | ok b s' => exact step before x after results s b s' hl hi hx
    | error f s' => exact not_false
  exact (ensures_mapM hround start).of_ok run

/-- What holds after a loop that succeeds, whichever round ends it. -/
theorem forIn_value_eq_ok {l : List α} {f : α → β → Action σ (ForInStep β)} {I : β → σ → Prop}
    (step : ∀ x ∈ l, ∀ b s r s', I b s → f x b s = .ok r s' → I r.value s') {b b' : β} {s s' : σ}
    (start : I b s) (run : forIn l b f s = .ok b' s') : I b' s' := by
  induction l generalizing b s with
  | nil =>
    cases run
    exact start
  | cons x l ih =>
    rw [List.forIn_cons, bind_eq_ok] at run
    obtain ⟨r, u, hx, hrest⟩ := run
    have hnext := step x List.mem_cons_self b s r u start hx
    cases r with
    | done c =>
      cases hrest
      exact hnext
    | yield c => exact ih (fun y hy => step y (List.mem_cons_of_mem x hy)) hnext hrest

end Action

namespace Hosted

variable {σ ε α : Type} {R : σ → σ → Prop}

/-- What an action does to its own part of a state. -/
abbrev OnOwn (R : σ → σ → Prop) (s t : Hosted σ ε) : Prop := R s.own t.own

instance [IsPreorder σ R] : IsPreorder (Hosted σ ε) (OnOwn R) where
  refl s := Std.Refl.refl s.own
  trans s t u := IsTrans.trans s.own t.own u.own

lemma respects_onOwn {x : Action σ α} (h : Action.Respects R x) :
    Action.Respects (OnOwn R) (onOwn x : Action (Hosted σ ε) α) := by
  rintro ⟨own, host⟩ r t hrun
  simp only [onOwn] at hrun
  cases hx : x own with
  | ok a own' =>
    rw [hx] at hrun
    cases hrun
    exact h own _ own' hx
  | error f own' =>
    rw [hx] at hrun
    cases hrun

lemma respects_onHost [IsPreorder σ R] (x : Action ε α) :
    Action.Respects (OnOwn R) (onHost x : Action (Hosted σ ε) α) := by
  rintro ⟨own, host⟩ r t hrun
  simp only [onHost] at hrun
  cases hx : x host with
  | ok a host' =>
    rw [hx] at hrun
    cases hrun
    exact Std.Refl.refl own
  | error f host' =>
    rw [hx] at hrun
    cases hrun

end Hosted

end GameSearch
