import Mathlib.Tactic.Lemma
import GameSearch.Hosted

/-!
# Running actions

What an action does from a given state, taken apart along its definition: `bind_eq_ok` says how a
sequence of two actions can succeed, `bind_of_ok` and `bind_of_error` what it does once the outcome
of the first is known, and `forIn_eq_ok` and `forIn_yields` treat loops by an invariant over the
elements visited so far.
-/

namespace GameSearch.Action

variable {σ α β : Type}

lemma bind_of_ok {x : Action σ α} {f : α → Action σ β} {s t : σ} {a : α} (h : x s = .ok a t) :
    (x >>= f) s = f a t := by
  simp only [bind, EStateM.bind, h]

lemma bind_of_error {x : Action σ α} {f : α → Action σ β} {s t : σ} {e : Fault}
    (h : x s = .error e t) : (x >>= f) s = .error e t := by
  simp only [bind, EStateM.bind, h]

lemma bind_congr_run {x y : Action σ α} {f : α → Action σ β} {s t : σ} (h : x s = y t) : (x >>= f) s = (y >>= f) t := by
  simp only [bind, EStateM.bind, h]

theorem bind_eq_ok {x : Action σ α} {f : α → Action σ β} {s t : σ} {b : β} :
    (x >>= f) s = .ok b t ↔ ∃ a u, x s = .ok a u ∧ f a u = .ok b t := by
  constructor
  · intro h
    cases hx : x s with
    | ok a u => exact ⟨a, u, rfl, (bind_of_ok hx).symm.trans h⟩
    | error e u => cases (bind_of_error hx).symm.trans h
  · rintro ⟨a, u, hx, hf⟩
    rw [bind_of_ok hx, hf]

theorem bind_eq_error {x : Action σ α} {f : α → Action σ β} {s t : σ} {e : Fault} :
    (x >>= f) s = .error e t ↔
      x s = .error e t ∨ ∃ a u, x s = .ok a u ∧ f a u = .error e t := by
  cases hx : x s with
  | ok a u =>
    rw [bind_of_ok hx]
    constructor
    · exact fun h => .inr ⟨a, u, rfl, h⟩
    · rintro (h | ⟨_, _, h, hf⟩)
      · cases h
      · cases h; exact hf
  | error e' u =>
    rw [bind_of_error hx]
    constructor
    · intro h
      cases h
      exact .inl rfl
    · rintro (h | ⟨_, _, h, _⟩)
      · cases h
        rfl
      · cases h

@[simp] lemma pure_run (a : α) (s : σ) : (pure a : Action σ α) s = .ok a s := rfl

@[simp] lemma throw_run (e : Fault) (s : σ) : (throw e : Action σ α) s = .error e s := rfl

@[simp] lemma get_run (s : σ) : (get : Action σ σ) s = .ok s s := rfl

@[simp] lemma set_run (s t : σ) : (set t : Action σ PUnit) s = .ok ⟨⟩ t := rfl

@[simp] lemma modify_run (f : σ → σ) (s : σ) : (modify f : Action σ PUnit) s = .ok ⟨⟩ (f s) := rfl

@[simp] lemma modifyGet_run (f : σ → α × σ) (s : σ) :
    (modifyGet f : Action σ α) s = .ok (f s).1 (f s).2 := rfl

@[simp] lemma lift_ok (a : α) (s : σ) :
    (liftM (Except.ok a : Except Fault α) : Action σ α) s = .ok a s := rfl

@[simp] lemma lift_error (e : Fault) (s : σ) :
    (liftM (Except.error e : Except Fault α) : Action σ α) s = .error e s := rfl

lemma lift_of_ok {x : Except Fault α} {a : α} (h : x = .ok a) (s : σ) :
    (liftM x : Action σ α) s = .ok a s := by rw [h]; rfl

lemma lift_eq_ok {x : Except Fault α} {a : α} {s t : σ} :
    (liftM x : Action σ α) s = .ok a t ↔ x = .ok a ∧ t = s := by
  cases x with
  | ok b => simp [eq_comm]
  | error e => simp

lemma lift_bind_eq_ok {x : Except Fault α} {f : α → Action σ β} {s t : σ} {b : β} :
    ((liftM x : Action σ α) >>= f) s = .ok b t ↔ ∃ a, x = .ok a ∧ f a s = .ok b t := by
  rw [bind_eq_ok]
  simp only [lift_eq_ok]
  constructor
  · rintro ⟨a, u, ⟨hx, rfl⟩, hf⟩
    exact ⟨a, hx, hf⟩
  · rintro ⟨a, hx, hf⟩
    exact ⟨a, s, ⟨hx, rfl⟩, hf⟩

lemma lift_eq_error {x : Except Fault α} {e : Fault} {s t : σ} :
    (liftM x : Action σ α) s = .error e t ↔ x = .error e ∧ t = s := by
  cases x with
  | ok b => simp
  | error e => simp [eq_comm]

/-! ## Afterwards -/

/-- The state after an action, whether it succeeds or fails. -/
def after (x : Action σ α) (s : σ) : σ :=
  match x s with
  | .ok _ t => t
  | .error _ t => t

lemma after_of_ok {x : Action σ α} {a : α} {s t : σ} (h : x s = .ok a t) : x.after s = t := by rw [after, h]

lemma after_of_error {x : Action σ α} {e : Fault} {s t : σ} (h : x s = .error e t) : x.after s = t := by
  rw [after, h]

lemma after_lift {q : Except Fault α} {s : σ} : (liftM q : Action σ α).after s = s := by
  cases q <;> rfl

lemma after_bind_of_ok {x : Action σ α} {f : α → Action σ β} {s t : σ} {a : α} (h : x s = .ok a t) :
    (x >>= f).after s = (f a).after t := by
  rw [after, bind_of_ok h, after]

/-- What holds after the first of two actions, and is kept by the second one, holds after both. -/
theorem after_bind {P : σ → Prop} {x : Action σ α} {f : α → Action σ β} {s : σ} (hx : P (x.after s))
    (hf : ∀ a t, x s = .ok a t → P t → P ((f a).after t)) : P ((x >>= f).after s) := by
  cases hrun : x s with
  | error e t =>
    rw [after_of_error hrun] at hx
    rwa [after_of_error (bind_of_error hrun)]
  | ok a t =>
    rw [after_of_ok hrun] at hx
    rw [after_bind_of_ok hrun]
    exact hf a t hrun hx

/-- A query leaves the state alone. -/
lemma after_lift_bind {P : σ → Prop} {q : Except Fault α} {f : α → Action σ β} {s : σ} (hs : P s)
    (hf : ∀ a, q = .ok a → P ((f a).after s)) : P (((liftM q : Action σ α) >>= f).after s) := by
  refine after_bind (by rwa [after_lift]) fun a t h _ => ?_
  obtain ⟨hq, rfl⟩ := lift_eq_ok.1 h
  exact hf a hq

/-! ## Loops -/

/-- A loop that cannot fail keeps what each of its rounds keeps. -/
theorem forIn_yields {l : List α} {f : α → β → Action σ (ForInStep β)}
    {inv : List α → β → σ → Prop}
    (step : ∀ before x after b s, l = before ++ x :: after → inv before b s →
      ∃ b' s', f x b s = .ok (.yield b') s' ∧ inv (before ++ [x]) b' s')
    {b : β} {s : σ} (start : inv [] b s) :
    ∃ b' s', forIn l b f s = .ok b' s' ∧ inv l b' s' := by
  suffices h : ∀ after before b s, l = before ++ after → inv before b s →
      ∃ b' s', forIn after b f s = .ok b' s' ∧ inv l b' s' from h l [] b s rfl start
  intro after
  induction after with
  | nil =>
    intro before b s hl hi
    refine ⟨b, s, by simp, ?_⟩
    simpa [hl] using hi
  | cons x after ih =>
    intro before b s hl hi
    obtain ⟨b', s', hf, hi'⟩ := step before x after b s hl hi
    obtain ⟨b'', s'', hr, hi''⟩ := ih (before ++ [x]) b' s' (by simp [hl]) hi'
    refine ⟨b'', s'', ?_, hi''⟩
    rw [List.forIn_cons, bind_of_ok hf]
    exact hr

/-- What holds after a loop that succeeds, if each round that succeeds keeps it and no round ends
the loop. -/
theorem forIn_eq_ok {l : List α} {f : α → β → Action σ (ForInStep β)} {I : List α → β → σ → Prop}
    (step : ∀ before x after b s r s', l = before ++ x :: after → I before b s →
      f x b s = .ok r s' → ∃ b', r = .yield b' ∧ I (before ++ [x]) b' s')
    {b b' : β} {s s' : σ} (start : I [] b s) (run : forIn l b f s = .ok b' s') :
    I l b' s' := by
  suffices h : ∀ after before b s, l = before ++ after → I before b s →
      forIn after b f s = .ok b' s' → I l b' s' from h l [] b s rfl start run
  intro after
  induction after with
  | nil =>
    intro before b s hl hi hrun
    simp only [List.forIn_nil, pure_run, EStateM.Result.ok.injEq] at hrun
    obtain ⟨rfl, rfl⟩ := hrun
    simpa [hl] using hi
  | cons x after ih =>
    intro before b s hl hi hrun
    rw [List.forIn_cons, bind_eq_ok] at hrun
    obtain ⟨r, u, hf, hr⟩ := hrun
    obtain ⟨c, rfl, hi'⟩ := step before x after b s r u hl hi hf
    exact ih (before ++ [x]) c u (by simp [hl]) hi' hr

/-- Two loops whose rounds do the same. -/
theorem forIn_congr {l : List α} {f g : α → β → Action σ (ForInStep β)} (inv : List α → β → σ → Prop)
    (step : ∀ before x after b s, l = before ++ x :: after → inv before b s → f x b s = g x b s ∧
      ∀ r s', g x b s = .ok r s' → ∃ b', r = .yield b' ∧ inv (before ++ [x]) b' s')
    {b : β} {s : σ} (start : inv [] b s) : forIn l b f s = forIn l b g s := by
  suffices h : ∀ after before b s, l = before ++ after → inv before b s →
      forIn after b f s = forIn after b g s from h l [] b s rfl start
  intro after
  induction after with
  | nil => exact fun _ _ _ _ _ => rfl
  | cons x after ih =>
    intro before b s hl hi
    obtain ⟨hsame, hnext⟩ := step before x after b s hl hi
    rw [List.forIn_cons, List.forIn_cons]
    cases hg : g x b s with
    | ok r s' =>
      obtain ⟨b', rfl, hi'⟩ := hnext r s' hg
      rw [bind_of_ok hg, bind_of_ok (hsame.trans hg)]
      exact ih (before ++ [x]) b' s' (by simp [hl]) hi'
    | error e s' => rw [bind_of_error hg, bind_of_error (hsame.trans hg)]

/-- A loop goes on after some rounds, none of which can end it. -/
theorem forIn_append_of_ok {l l' : List α} {f : α → β → Action σ (ForInStep β)}
    (yields : ∀ x b s r s', f x b s = .ok r s' → ∃ b', r = .yield b')
    {b b' : β} {s s' : σ} (run : forIn l b f s = .ok b' s') : forIn (l ++ l') b f s = forIn l' b' f s' := by
  induction l generalizing b s with
  | nil =>
    cases run
    rfl
  | cons x l ih =>
    rw [List.forIn_cons, bind_eq_ok] at run
    obtain ⟨r, u, hf, hr⟩ := run
    obtain ⟨c, rfl⟩ := yields x b s r u hf
    rw [List.cons_append, List.forIn_cons, bind_of_ok hf]
    exact ih hr

/-- A loop whose rounds do nothing. -/
theorem forIn_idle {l : List α} {f : α → β → Action σ (ForInStep β)} {b : β} {s : σ}
    (h : ∀ x ∈ l, f x b s = .ok (.yield b) s) : forIn l b f s = .ok b s := by
  induction l with
  | nil => rfl
  | cons x l ih =>
    rw [List.forIn_cons, bind_of_ok (h x (by simp))]
    exact ih fun y hy => h y (by simp [hy])

/-- A list of results, each of which can be had. -/
theorem mapM_yields {l : List α} {f : α → Action σ β} {s : σ} {g : α → β}
    (h : ∀ x ∈ l, f x s = .ok (g x) s) : l.mapM f s = .ok (l.map g) s := by
  induction l with
  | nil => rfl
  | cons x l ih =>
    have hx := h x (by simp)
    have hl := ih fun y hy => h y (by simp [hy])
    rw [List.mapM_cons, bind_of_ok hx, bind_of_ok hl]
    rfl

end GameSearch.Action

namespace GameSearch.Hosted

variable {σ ε α : Type} {s t : Hosted σ ε} {r : α}

lemma read_run : (read : Action (Hosted σ ε) σ) s = .ok s.own s := rfl

lemma change_run (f : σ → σ) : (change f : Action (Hosted σ ε) Unit) s = .ok ⟨⟩ ⟨f s.own, s.host⟩ := rfl

lemma onOwn_eq_ok {action : Action σ α} : (onOwn action : Action (Hosted σ ε) α) s = .ok r t ↔
    ∃ own, action s.own = .ok r own ∧ t = ⟨own, s.host⟩ := by
  obtain ⟨own, host⟩ := s
  simp only [onOwn]
  cases action own with
  | ok r' own' => simp [eq_comm, and_assoc]
  | error f own' => simp

lemma onHost_eq_ok {action : Action ε α} : (onHost action : Action (Hosted σ ε) α) s = .ok r t ↔
    ∃ host, action s.host = .ok r host ∧ t = ⟨s.own, host⟩ := by
  obtain ⟨own, host⟩ := s
  simp only [onHost]
  cases action host with
  | ok r' host' => simp [eq_comm, and_assoc]
  | error f host' => simp

lemma onHost_eq_error {action : Action ε α} {f : Fault} : (onHost action : Action (Hosted σ ε) α) s = .error f t ↔
    ∃ host, action s.host = .error f host ∧ t = ⟨s.own, host⟩ := by
  obtain ⟨own, host⟩ := s
  simp only [onHost]
  cases action host with
  | ok r' host' => simp
  | error f' host' => simp [eq_comm, and_assoc]

lemma own_after_onHost {x : Action ε α} : ((onHost x : Action (Hosted σ ε) α).after s).own = s.own := by
  obtain ⟨own, host⟩ := s
  simp only [Action.after, onHost]
  cases x host <;> rfl

end GameSearch.Hosted
