import GameSearch.Proofs.Action

/-!
# Outcomes of actions

`Action.Ensures` says what holds after an action if it succeeds, and that it does not fail for certain
reasons.  It is shown along the definition of the action, by one lemma for each way in which actions are
put together.
-/

namespace GameSearch.Action

variable {σ ε α β : Type} {never : Fault → Prop} {s t : σ} {x : Action σ α} {a : α} {f : Fault}
  {P : α → σ → Prop}

/-- An action that succeeds has the result that is wanted, and one that fails does not do so for a
reason that never comes up. -/
def Ensures (never : Fault → Prop) (x : Action σ α) (s : σ) (P : α → σ → Prop) : Prop :=
  match x s with
  | .ok a t => P a t
  | .error f _ => ¬never f

lemma ensures_of_ok (h : x s = .ok a t) (hP : P a t) : Ensures never x s P := by
  rw [Ensures, h]
  exact hP

lemma ensures_of_error (h : x s = .error f t) (hf : ¬never f) : Ensures never x s P := by
  rw [Ensures, h]
  exact hf

lemma ensures_of_eq {y : Action σ α} (heq : x s = y s) (h : Ensures never y s P) : Ensures never x s P := by
  rw [Ensures, heq]
  exact h

lemma Ensures.of_ok (h : Ensures never x s P) (hrun : x s = .ok a t) : P a t := by
  rw [Ensures, hrun] at h
  exact h

lemma Ensures.of_error (h : Ensures never x s P) (hrun : x s = .error f t) : ¬never f := by
  rw [Ensures, hrun] at h
  exact h

/-- Of an action that succeeds it is known that it ran. -/
lemma ensures_run (h : ∀ f t, x s = .error f t → ¬never f) : Ensures never x s fun a t => x s = .ok a t := by
  cases hrun : x s with
  | ok a t => exact ensures_of_ok hrun rfl
  | error f t => exact ensures_of_error hrun (h f t hrun)

/-- An action that does not fail for any reason succeeds. -/
lemma Ensures.yields (h : Ensures (fun _ => True) x s P) : ∃ a t, x s = .ok a t ∧ P a t := by
  cases hrun : x s with
  | ok a t => exact ⟨a, t, rfl, h.of_ok hrun⟩
  | error f t => exact absurd trivial (h.of_error hrun)

/-- What is known of an action that succeeds can be added. -/
lemma Ensures.adding {Q : α → σ → Prop} (h : Ensures never x s P) (hQ : ∀ a t, x s = .ok a t → Q a t) :
    Ensures never x s Q := by
  cases hrun : x s with
  | ok a t => exact ensures_of_ok hrun (hQ a t hrun)
  | error f t => exact ensures_of_error hrun (h.of_error hrun)

lemma ensures_lift {q : Except Fault α} (h : ∀ f, q = .error f → ¬never f) :
    Ensures never (liftM q : Action σ α) s fun _ t => t = s := by
  cases hq : q with
  | ok a => exact ensures_of_ok (lift_of_ok rfl s) rfl
  | error f => exact ensures_of_error rfl (h f hq)

lemma Ensures.mono {Q : α → σ → Prop} (h : Ensures never x s P)
    (himp : ∀ a t, P a t → Q a t) : Ensures never x s Q := by
  unfold Ensures at h ⊢
  cases hrun : x s with
  | ok a t =>
    rw [hrun] at h
    exact himp a t h
  | error f t =>
    rw [hrun] at h
    exact h

/-- Some of the reasons for which an action does not fail. -/
lemma Ensures.sparing {never' : Fault → Prop} (h : Ensures never x s P) (himp : ∀ f, never' f → never f) :
    Ensures never' x s P := by
  cases hrun : x s with
  | ok a t => exact ensures_of_ok hrun (h.of_ok hrun)
  | error f t => exact ensures_of_error hrun fun hf => h.of_error hrun (himp f hf)

theorem Ensures.bind {g : α → Action σ β} {Q : β → σ → Prop} (h : Ensures never x s P)
    (hg : ∀ a t, P a t → Ensures never (g a) t Q) : Ensures never (x >>= g) s Q := by
  cases hrun : x s with
  | ok a t =>
    rw [Ensures, bind_of_ok hrun]
    exact hg a t (h.of_ok hrun)
  | error f t => exact ensures_of_error (bind_of_error hrun) (h.of_error hrun)

lemma ensures_bind_of_ok {g : α → Action σ β} {Q : β → σ → Prop} (hrun : x s = .ok a t)
    (hg : Ensures never (g a) t Q) : Ensures never (x >>= g) s Q := by
  rw [Ensures, bind_of_ok hrun]
  exact hg

/-- Some actions in a row, with an invariant over the elements visited so far and their results. -/
theorem ensures_mapM {l : List α} {g : α → Action σ β} {I : List α → List β → σ → Prop}
    (step : ∀ before x after results s, l = before ++ x :: after → I before results s →
      Ensures never (g x) s fun b s' => I (before ++ [x]) (results ++ [b]) s')
    (start : I [] [] s) : Ensures never (l.mapM g) s (I l) := by
  suffices h : ∀ after before results s, l = before ++ after → I before results s →
      Ensures never (after.mapM g) s fun bs s' => I l (results ++ bs) s' from
    h l [] [] s rfl start
  intro after
  induction after with
  | nil =>
    intro before results s hl hI
    rw [List.append_nil] at hl
    refine ensures_of_ok (a := []) (t := s) rfl ?_
    rw [hl, List.append_nil]
    exact hI
  | cons x after ih =>
    intro before results s hl hI
    rw [List.mapM_cons]
    refine (step before x after results s hl hI).bind fun b s' hb => ?_
    refine (ih (before ++ [x]) (results ++ [b]) s' (by simp [hl]) hb).bind fun bs s'' hbs => ?_
    rw [List.append_assoc] at hbs
    exact ensures_of_ok rfl hbs

/-- A loop without results, with an invariant over the elements visited so far. -/
theorem ensures_forIn {l : List α} {g : α → PUnit → Action σ (ForInStep PUnit)} {I : List α → σ → Prop}
    (step : ∀ before x after s, l = before ++ x :: after → I before s →
      Ensures never (g x ⟨⟩) s fun r s' => r = .yield ⟨⟩ ∧ I (before ++ [x]) s')
    (start : I [] s) : Ensures never (forIn l ⟨⟩ g) s fun _ s' => I l s' := by
  suffices h : ∀ after before s, l = before ++ after → I before s →
      Ensures never (forIn after ⟨⟩ g) s fun _ s' => I l s' from h l [] s rfl start
  intro after
  induction after with
  | nil =>
    intro before s hl hI
    rw [List.append_nil] at hl
    exact ensures_of_ok (a := ⟨⟩) (t := s) rfl (hl ▸ hI)
  | cons x after ih =>
    intro before s hl hI
    rw [List.forIn_cons]
    refine (step before x after s hl hI).bind fun r s' hr => ?_
    obtain ⟨rfl, hI'⟩ := hr
    exact ih (before ++ [x]) s' (by simp [hl]) hI'

/-- Checks that change nothing. -/
theorem ensures_allM {l : List α} {g : α → Action σ Bool} {P : α → Prop}
    (h : ∀ x ∈ l, Ensures never (g x) s fun b t => t = s ∧ (b = true → P x)) :
    Ensures never (l.allM g) s fun b t => t = s ∧ (b = true → ∀ x ∈ l, P x) := by
  induction l with
  | nil => exact ensures_of_ok (a := true) (t := s) rfl ⟨rfl, by simp⟩
  | cons x l ih =>
    rw [List.allM]
    refine (h x List.mem_cons_self).bind fun b t hb => ?_
    obtain ⟨rfl, hb⟩ := hb
    cases b with
    | false => exact ensures_of_ok (a := false) rfl ⟨rfl, by simp⟩
    | true =>
      refine (ih fun y hy => h y (List.mem_cons_of_mem x hy)).mono fun b t hl => ⟨hl.1, fun htrue y hy => ?_⟩
      rcases List.mem_cons.1 hy with rfl | hy
      · exact hb rfl
      · exact hl.2 htrue y hy

end GameSearch.Action

namespace GameSearch.Hosted

variable {σ ε α : Type} {never : Fault → Prop} {s : Hosted σ ε} {P : α → Hosted σ ε → Prop}

lemma ensures_onOwn {x : Action σ α}
    (h : Action.Ensures never x s.own fun a own => P a ⟨own, s.host⟩) :
    Action.Ensures never (onOwn x : Action (Hosted σ ε) α) s P := by
  obtain ⟨own, host⟩ := s
  unfold Action.Ensures at h
  cases hrun : x own with
  | ok a own' =>
    rw [hrun] at h
    exact Action.ensures_of_ok (by simp only [onOwn, hrun]) h
  | error f own' =>
    rw [hrun] at h
    exact Action.ensures_of_error (t := ⟨own', host⟩) (by simp only [onOwn, hrun]) h

lemma ensures_onHost {x : Action ε α}
    (h : Action.Ensures never x s.host fun a host => P a ⟨s.own, host⟩) :
    Action.Ensures never (onHost x : Action (Hosted σ ε) α) s P := by
  obtain ⟨own, host⟩ := s
  unfold Action.Ensures at h
  cases hrun : x host with
  | ok a host' =>
    rw [hrun] at h
    exact Action.ensures_of_ok (by simp only [onHost, hrun]) h
  | error f host' =>
    rw [hrun] at h
    exact Action.ensures_of_error (t := ⟨own, host'⟩) (by simp only [onHost, hrun]) h

end GameSearch.Hosted
