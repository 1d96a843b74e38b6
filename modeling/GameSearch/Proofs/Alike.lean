import GameSearch.Proofs.Action
import GameSearch.Search.Repeater

/-!
# What makes no difference to an action

`Action.Alike` compares two runs of one action: from states that differ in what it does not heed, it comes to the
same result or the same fault, and to states that differ in nothing else.  It is enough that each part of the
action runs alike, however the parts are put together.
-/

namespace GameSearch

namespace Action

variable {σ α β : Type} {R Q : σ → σ → Prop}

/-- Two runs with the same result in states related by `Q`, or with the same fault in states related by `R`. -/
inductive EndsAlike (R Q : σ → σ → Prop) : (r r' : EStateM.Result Fault σ α) → Prop
  | ok {a : α} {s t : σ} (h : Q s t) : EndsAlike R Q (.ok a s) (.ok a t)
  | error {e : Fault} {s t : σ} (h : R s t) : EndsAlike R Q (.error e s) (.error e t)

lemma EndsAlike.cases {r r' : EStateM.Result Fault σ α} (h : EndsAlike R Q r r') :
    (∃ a s t, r = .ok a s ∧ r' = .ok a t ∧ Q s t) ∨ ∃ e s t, r = .error e s ∧ r' = .error e t ∧ R s t := by
  cases h with
  | ok hQ => exact .inl ⟨_, _, _, rfl, rfl, hQ⟩
  | error hR => exact .inr ⟨_, _, _, rfl, rfl, hR⟩

/-- If one of the runs succeeds, so does the other. -/
lemma EndsAlike.of_ok {r r' : EStateM.Result Fault σ α} {a : α} {s : σ} (h : EndsAlike R Q r r') (hr : r = .ok a s) :
    ∃ t, r' = .ok a t ∧ Q s t := by
  subst hr
  cases h with
  | ok hQ => exact ⟨_, rfl, hQ⟩

/-- From states related by `R` an action comes to the same, in states related by `Q` if it succeeds. -/
def Alike (R Q : σ → σ → Prop) (x : Action σ α) : Prop := ∀ ⦃s t⦄, R s t → EndsAlike R Q (x s) (x t)

lemma Alike.mono {Q' : σ → σ → Prop} {x : Action σ α} (h : Alike R Q x) (himp : ∀ ⦃s t⦄, Q s t → Q' s t) :
    Alike R Q' x := by
  intro s t hst
  obtain ⟨a, s', t', hs, ht, hQ⟩ | ⟨e, s', t', hs, ht, hR⟩ := (h hst).cases
  · rw [hs, ht]
    exact .ok (himp hQ)
  · rw [hs, ht]
    exact .error hR

lemma alike_pure (a : α) : Alike R R (pure a : Action σ α) := fun _ _ h => .ok h

lemma alike_throw (e : Fault) : Alike R Q (throw e : Action σ α) := fun _ _ h => .error h

/-- What comes after a fault does not matter. -/
lemma alike_throw_bind (e : Fault) (f : α → Action σ β) : Alike R Q ((throw e : Action σ α) >>= f) :=
  fun _ _ h => .error h

lemma alike_lift (q : Except Fault α) : Alike R R (liftM q : Action σ α) := by
  intro s t h
  cases q with
  | ok a => exact .ok h
  | error e => exact .error h

lemma alike_modify {f : σ → σ} (h : ∀ ⦃s t⦄, R s t → Q (f s) (f t)) : Alike R Q (modify f : Action σ PUnit) :=
  fun _ _ hst => .ok (h hst)

/-- What is told about a state has to be the same. -/
lemma alike_get_bind {f : σ → Action σ β} (hsame : ∀ ⦃s t⦄, R s t → f s = f t) (hf : ∀ s, Alike R Q (f s)) :
    Alike R Q ((get : Action σ σ) >>= f) := by
  intro s t h
  have hrun : EndsAlike R Q (f s s) (f t t) := hsame h ▸ hf s h
  exact hrun

lemma Alike.bind {x : Action σ α} {f : α → Action σ β} (hx : Alike R R x) (hf : ∀ a, Alike R Q (f a)) :
    Alike R Q (x >>= f) := by
  intro s t h
  obtain ⟨a, s', t', hs, ht, hR⟩ | ⟨e, s', t', hs, ht, hR⟩ := (hx h).cases
  · rw [bind_of_ok hs, bind_of_ok ht]
    exact hf a hR
  · rw [bind_of_error hs, bind_of_error ht]
    exact .error hR

lemma Alike.bind_pure {x : Action σ α} (hx : Alike R Q x) (f : α → β) : Alike R Q (x >>= fun a => pure (f a)) := by
  intro s t h
  obtain ⟨a, s', t', hs, ht, hQ⟩ | ⟨e, s', t', hs, ht, hR⟩ := (hx h).cases
  · rw [bind_of_ok hs, bind_of_ok ht]
    exact .ok hQ
  · rw [bind_of_error hs, bind_of_error ht]
    exact .error hR

lemma Alike.ite {c : Prop} [Decidable c] {x y : Action σ α} (hx : c → Alike R Q x) (hy : ¬c → Alike R Q y) :
    Alike R Q (if c then x else y) := by
  split
  · exact hx ‹_›
  · exact hy ‹_›

lemma alike_forIn {l : List α} {b : β} {f : α → β → Action σ (ForInStep β)} (h : ∀ a b, Alike R R (f a b)) :
    Alike R R (forIn l b f) := by
  induction l generalizing b with
  | nil => exact alike_pure b
  | cons a l ih =>
    rw [List.forIn_cons]
    refine (h a b).bind fun r => ?_
    cases r with
    | done b => exact alike_pure b
    | yield b => exact ih

lemma alike_mapM {l : List α} {f : α → Action σ β} (h : ∀ a, Alike R R (f a)) : Alike R R (l.mapM f) := by
  induction l with
  | nil => exact alike_pure []
  | cons a l ih =>
    rw [List.mapM_cons]
    exact (h a).bind fun b => ih.bind fun bs => alike_pure (b :: bs)

/-- The states after an action are related, whether it succeeds or fails. -/
lemma Alike.after {x : Action σ α} (h : Alike R R x) {s t : σ} (hst : R s t) : R (x.after s) (x.after t) := by
  obtain ⟨a, s', t', hs, ht, hR⟩ | ⟨e, s', t', hs, ht, hR⟩ := (h hst).cases
  · rwa [after_of_ok hs, after_of_ok ht]
  · rwa [after_of_error hs, after_of_error ht]

end Action

open GameSearch.Action

namespace Hosted

variable {σ ε α β : Type} {S T : σ → σ → Prop}

/-- Related states in the same surroundings. -/
structure Beside (S : σ → σ → Prop) (x y : Hosted σ ε) : Prop where
  own : S x.own y.own
  host : x.host = y.host

lemma Beside.mono {x y : Hosted σ ε} (himp : ∀ ⦃a b⦄, S a b → T a b) (h : Beside S x y) : Beside T x y :=
  ⟨himp h.own, h.host⟩

lemma alike_onHost (x : Action ε α) : Alike (Beside S) (Beside S) (onHost x : Action (Hosted σ ε) α) := by
  rintro ⟨own, host⟩ ⟨own', _⟩ ⟨h, rfl⟩
  simp only [onHost]
  cases x host with
  | ok a host' => exact .ok ⟨h, rfl⟩
  | error e host' => exact .error ⟨h, rfl⟩

lemma alike_onOwn {x : Action σ α} (hx : Alike S S x) :
    Alike (Beside S) (Beside S) (onOwn x : Action (Hosted σ ε) α) := by
  rintro ⟨own, host⟩ ⟨own', _⟩ ⟨h, rfl⟩
  simp only [onOwn]
  obtain ⟨a, s, t, hs, ht, hS⟩ | ⟨e, s, t, hs, ht, hS⟩ := (hx h).cases
  · simp only [hs, ht]
    exact .ok ⟨hS, rfl⟩
  · simp only [hs, ht]
    exact .error ⟨hS, rfl⟩

lemma alike_change {f : σ → σ} (h : ∀ ⦃a b⦄, S a b → T (f a) (f b)) :
    Alike (Beside S) (Beside T) (change f : Action (Hosted σ ε) Unit) := by
  rintro x y hxy
  exact .ok ⟨h hxy.own, hxy.host⟩

lemma alike_read_bind {Q : Hosted σ ε → Hosted σ ε → Prop} {f : σ → Action (Hosted σ ε) β}
    (hsame : ∀ ⦃a b⦄, S a b → f a = f b) (hf : ∀ ⦃a b⦄, S a b → Alike (Beside S) Q (f a)) :
    Alike (Beside S) Q ((read : Action (Hosted σ ε) σ) >>= f) := by
  intro x y h
  have hrun : EndsAlike (Beside S) Q (f x.own x) (f y.own y) := hsame h.own ▸ hf h.own h
  exact hrun

end Hosted

namespace Repeater

variable {σ α : Type} {R : σ → σ → Prop}

/-- Repetitions at related states, cancelled or not. -/
structure Beside (R : σ → σ → Prop) (r r' : Repeater σ) : Prop where
  inner : R r.inner r'.inner
  isCancelled : r.isCancelled = r'.isCancelled

lemma alike_lift {x : Action σ α} (hx : Alike R R x) : Alike (Beside R) (Beside R) (lift x) := by
  intro r r' h
  unfold lift
  obtain ⟨a, s, t, hs, ht, hR⟩ | ⟨e, s, t, hs, ht, hR⟩ := (hx h.inner).cases
  · simp only [hs, ht]
    exact .ok ⟨hR, h.isCancelled⟩
  · simp only [hs, ht]
    exact .error ⟨hR, h.isCancelled⟩

variable {now : Action σ Int} {action : Action (Repeater σ) Unit}

lemma alike_runUntil (hnow : Alike R R now) (haction : Alike (Beside R) (Beside R) action) (deadline : Int)
    (count done : Nat) : Alike (Beside R) (Beside R) (runUntil now action deadline count done) := by
  induction count generalizing done with
  | zero => exact alike_throw _
  | succ count ih =>
    refine haction.bind fun _ => (alike_lift hnow).bind fun time => ?_
    refine alike_get_bind (fun r r' h => by rw [h.isCancelled]) fun r => ?_
    exact Alike.ite (fun _ => ih _) fun _ => alike_pure _

lemma alike_run (hnow : Alike R R now) (haction : Alike (Beside R) (Beside R) action) (timeout : Int) (limit : Nat) :
    Alike (Beside R) (Beside R) (run now action timeout limit) := by
  refine (alike_lift hnow).bind fun start => (alike_runUntil hnow haction _ _ _).bind fun _ => ?_
  exact (alike_modify fun r r' h => ⟨h.inner, rfl⟩).bind fun _ => alike_pure _

end Repeater

end GameSearch
