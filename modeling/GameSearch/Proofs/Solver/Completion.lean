import GameSearch.Proofs.Solver.Soundness

/-!
# Solvers finish

A search leaves the queue as it was behind it, with bounds that answer its window: the searches that it is
put behind are those of successors, and once they have been done there is a verdict.  As every play ends,
this is an induction on the state that is searched.
-/

namespace GameSearch.Solver

variable {ε : Type} [Dice ε] {p : Problem ℚ ε} {worth : State → ℚ} {solver : Solver ℚ} {host : ε} {s t : State}
  {low high l u : ℚ} {rest : List (Task ℚ)} {children : List State} {x y z : Hosted (Solver ℚ) ε}

namespace Problem

/-! ## Many steps -/

/-- Makes so many steps. -/
def steps (p : Problem ℚ ε) : ℕ → Action (Hosted (Solver ℚ) ε) Unit
  | 0 => pure ()
  | n + 1 => do
    p.step
    p.steps n

/-- Steps lead from one solver to another one. -/
def Comes (p : Problem ℚ ε) (x y : Hosted (Solver ℚ) ε) : Prop := ∃ n, p.steps n x = .ok () y

lemma Comes.refl : p.Comes x x := ⟨0, rfl⟩

lemma Comes.head (hstep : p.step x = .ok () y) (h : p.Comes y z) : p.Comes x z := by
  obtain ⟨n, hn⟩ := h
  exact ⟨n + 1, (Action.bind_of_ok hstep).trans hn⟩

lemma Comes.trans (h : p.Comes x y) (h' : p.Comes y z) : p.Comes x z := by
  obtain ⟨n, hn⟩ := h
  induction n generalizing x with
  | zero =>
    cases hn
    exact h'
  | succ n ih =>
    obtain ⟨_, w, hstep, hrest⟩ := Action.bind_eq_ok.1 hn
    exact (ih hrest).head hstep

/-! ## Searches -/

/-- A solver has got past the front of its queue, or is done: what it knew it still knows. -/
structure Past (p : Problem ℚ ε) (worth : State → ℚ) (solver : Solver ℚ) (rest : List (Task ℚ))
    (after : Solver ℚ) : Prop where
  sound : p.Sound worth after
  narrows : solver.entries.Narrows after.entries
  queue : after.isDone = false → after.queue.toList = rest

/-- The first task of the queue is done in the end if it is a search of this state. -/
def Completes (p : Problem ℚ ε) (worth : State → ℚ) (s : State) : Prop :=
  ∀ (solver : Solver ℚ) (host : ε) (low high : ℚ) (rest : List (Task ℚ)), p.Sound worth solver →
    solver.isDone = false → solver.queue.toList = .search s low high :: rest →
      ∃ y, p.Comes ⟨solver, host⟩ y ∧ p.Past worth solver rest y.own ∧
        (y.own.isDone = false → answers y.own.entries[s]? low high = true)

/-- Searches that have the same window are done one after the other. -/
lemma Completes.all (host : ε) (h : ∀ c ∈ children, p.Completes worth c) (hsound : p.Sound worth solver)
    (hdone : solver.isDone = false)
    (hqueue : solver.queue.toList = children.map (fun c => .search c l u) ++ rest) :
    ∃ y, p.Comes ⟨solver, host⟩ y ∧ p.Past worth solver rest y.own ∧
      (y.own.isDone = false → ∀ c ∈ children, answers y.own.entries[c]? l u = true) := by
  induction children generalizing solver host with
  | nil => exact ⟨_, .refl, ⟨hsound, .refl, fun _ => hqueue⟩, fun _ => by simp⟩
  | cons c children ih =>
    obtain ⟨y, hcomes, hpast, hanswers⟩ :=
      h c List.mem_cons_self solver host l u _ hsound hdone hqueue
    cases hy : y.own.isDone with
    | true => exact ⟨y, hcomes, ⟨hpast.sound, hpast.narrows, fun hnot => by simp [hy] at hnot⟩,
        fun hnot => by simp [hy] at hnot⟩
    | false =>
      obtain ⟨z, hcomes', hpast', hanswers'⟩ :=
        ih y.host (fun c hc => h c (List.mem_cons_of_mem _ hc)) hpast.sound hy (hpast.queue hy)
      refine ⟨z, hcomes.trans hcomes', ⟨hpast'.sound, hpast.narrows.trans hpast'.narrows, hpast'.queue⟩,
        fun hz => List.forall_mem_cons.2 ⟨?_, hanswers' hz⟩⟩
      exact answers_mono hpast'.sound.grounded.sound hpast'.narrows le_rfl le_rfl (hanswers hy)

namespace Determined

variable (h : p.Determined worth) (host : ε) (hsound : p.Sound worth solver) (hdone : solver.isDone = false)
  (hfront : solver.queue.toList = .search s low high :: rest)

include h hsound hdone hfront

/-- The step that does a search: it finds bounds that answer the window, or the verdict has to wait. -/
lemma search_step : ∃ solver' host', p.step ⟨solver, host⟩ = .ok () ⟨solver', host'⟩ ∧ p.Sound worth solver' ∧
    solver.entries.Narrows solver'.entries ∧
    (solver'.queue.toList = rest ∧ answers solver'.entries[s]? low high = true ∨
      ∃ tasks, p.judge solver.entries s.controllers low high (p.successors s) = .waiting tasks ∧
        solver'.entries = solver.entries ∧ solver'.queue.toList = tasks ++ .search s low high :: rest) := by
  obtain ⟨queue, hqueue, hstep⟩ := p.step_of_front host hdone hfront
  have hs : p.Reaches s := hsound.queue (.search s low high) (hfront ▸ List.mem_cons_self)
  obtain ⟨solver', host', hrun, hcases⟩ := h.search_yields { solver with queue := queue } host hs hsound.grounded
    low high
  have hok : p.step ⟨solver, host⟩ = .ok () ⟨p.checked solver', host'⟩ := by
    rw [hstep, perform, hrun]
  refine ⟨p.checked solver', host', hok, ?_, ?_⟩
  · obtain ⟨_, _, hsound', hok' | ⟨herror, -⟩⟩ := h.step_of_front_yields host hsound hdone hfront
    · cases hok.symm.trans hok'
      exact hsound'
    · cases hok.symm.trans herror
  · rw [checked_entries, checked_queue]
    rcases hcases with ⟨hlearns, hsame, hanswers⟩ | ⟨tasks, hjudge, rfl⟩
    · exact ⟨hlearns.narrows, .inl ⟨hsame ▸ hqueue, hanswers⟩⟩
    · refine ⟨.refl, .inr ⟨tasks, hjudge, rfl, ?_⟩⟩
      rw [Deque.toList_prepend, Deque.toList_pushFront, hqueue]

/-- A search is done twice: what it has to wait for the first time is not missing the second time. -/
lemma search_twice (hchildren : ∀ c ∈ p.successors s, p.Completes worth c) :
    ∃ solver' host', p.step ⟨solver, host⟩ = .ok () ⟨solver', host'⟩ ∧
      (p.Past worth solver rest solver' ∧ solver'.queue.toList = rest ∧
          answers solver'.entries[s]? low high = true ∨
        ∃ tasks, solver'.queue.toList = tasks ++ .search s low high :: rest ∧
          ∃ y, p.Comes ⟨solver', host'⟩ y ∧ p.Past worth solver (.search s low high :: rest) y.own ∧
            (y.own.isDone = false → ∃ z, p.step y = .ok () z ∧ p.Past worth solver rest z.own ∧
              z.own.queue.toList = rest ∧ answers z.own.entries[s]? low high = true)) := by
  obtain ⟨solver', host', hok, hsound', hnarrows, ⟨hqueue, hanswers⟩ | ⟨tasks, hjudge, hentries, hqueue⟩⟩ :=
    h.search_step host hsound hdone hfront
  · exact ⟨solver', host', hok, .inl ⟨⟨hsound', hnarrows, fun _ => hqueue⟩, hqueue, hanswers⟩⟩
  · refine ⟨solver', host', hok, .inr ⟨tasks, hqueue, ?_⟩⟩
    obtain ⟨l, u, rfl, hagain⟩ := judge_waiting hsound.grounded.sound hjudge
    cases hdone' : solver'.isDone with
    | true =>
      exact ⟨_, .refl, ⟨hsound', hnarrows, fun hnot => by simp [hdone'] at hnot⟩,
        fun hnot => by simp [hdone'] at hnot⟩
    | false =>
      obtain ⟨y, hcomes, hpast, hopen⟩ := Completes.all host'
        (fun c hc => hchildren c (List.mem_filter.1 hc).1) hsound' hdone' hqueue
      refine ⟨y, hcomes, ⟨hpast.sound, hnarrows.trans hpast.narrows, hpast.queue⟩, fun hy => ?_⟩
      have hall : ∀ c ∈ p.successors s, Problem.answers y.own.entries[c]? l u = true := by
        intro c hc
        by_cases hknown : Problem.answers solver.entries[c]? l u = true
        · exact answers_mono hpast.sound.grounded.sound (hnarrows.trans hpast.narrows) le_rfl le_rfl hknown
        · exact hopen hy c (List.mem_filter.2 ⟨hc, by simpa using hknown⟩)
      obtain ⟨b, hb⟩ := hagain y.own.entries hpast.sound.grounded.sound (hnarrows.trans hpast.narrows) hall
      obtain ⟨after, host'', hok', hafter, hnarrows', ⟨hqueue', hanswers'⟩ | ⟨tasks, hwait, -⟩⟩ :=
        h.search_step y.host hpast.sound hy (hpast.queue hy)
      · exact ⟨_, hok', ⟨hafter, (hnarrows.trans hpast.narrows).trans hnarrows', fun _ => hqueue'⟩, hqueue',
          hanswers'⟩
      · cases hb.symm.trans hwait

omit hsound hdone hfront in
/-- Every search is done in the end. -/
theorem completes (hs : p.Reaches s) : p.Completes worth s := by
  induction h.acc hs with
  | intro s _ ih =>
    intro solver host low high rest hsound hdone hfront
    obtain ⟨solver', host', hok, ⟨hpast, hqueue, hanswers⟩ | ⟨tasks, -, y, hcomes, hpast, hagain⟩⟩ :=
      h.search_twice host hsound hdone hfront fun c hc => ih c hc (hs.successor hc)
    · exact ⟨_, Comes.refl.head hok, hpast, fun _ => hanswers⟩
    · cases hy : y.own.isDone with
      | true => exact ⟨y, hcomes.head hok, ⟨hpast.sound, hpast.narrows, fun hnot => by simp [hy] at hnot⟩,
          fun hnot => by simp [hy] at hnot⟩
      | false =>
        obtain ⟨z, hok', hpast', -, hanswers⟩ := hagain hy
        exact ⟨z, (hcomes.trans (Comes.refl.head hok')).head hok, hpast', fun _ => hanswers⟩

end Determined

/-! ## From the start -/

omit [Dice ε] in
lemma Sound.value?_of_done (hsound : p.Sound worth solver) (hdone : solver.isDone = true) :
    solver.value? p.origin = some (p.value worth p.origin) := by
  obtain ⟨x, hx⟩ := Option.isSome_iff_exists.1 (hsound.done.symm.trans hdone)
  rw [hx, hsound.grounded.sound.value hx]

/-- The first step of a new solver plants a seed, and leaves a search of the state that is asked for. -/
lemma Determined.first_step (h : p.Determined worth) (hends : p.EndsWithin p.maxPlies p.origin) (host : ε) :
    ∃ solver' host' rest, p.step ⟨{}, host⟩ = .ok () ⟨solver', host'⟩ ∧ p.Sound worth solver' ∧
      solver'.queue.toList = .search p.origin p.range.lower p.range.upper :: rest := by
  have hstart : (({} : Solver ℚ).postponed (p.fresh {})).queue.toList =
      [.seed p.origin, .search p.origin p.range.lower p.range.upper] := by
    simp [toList_postponed, fresh]
  have hempty : p.Sound worth {} := sound_empty
  have hsound : p.Sound worth (({} : Solver ℚ).postponed (p.fresh {})) :=
    hempty.postponed fun task htask => reaches_fresh htask
  rw [step_of_empty hempty rfl rfl]
  obtain ⟨queue, hqueue, hstep⟩ := p.step_of_front host rfl hstart
  rcases h.plant_yields { ({} : Solver ℚ).postponed (p.fresh {}) with queue := queue } host reaches_origin
    hsound.grounded with ⟨solver', host', tasks, hrun, -, htasks, -⟩ | ⟨_, _, -, -, -, -, hlong⟩
  · have hok : p.step ⟨({} : Solver ℚ).postponed (p.fresh {}), host⟩ = .ok () ⟨p.checked solver', host'⟩ := by
      rw [hstep, perform, hrun]
    refine ⟨p.checked solver', host', tasks, hok, ?_, ?_⟩
    · obtain ⟨_, _, hsound', hok' | ⟨herror, -⟩⟩ := h.step_of_front_yields host hsound rfl hstart
      · cases hok.symm.trans hok'
        exact hsound'
      · cases hok.symm.trans herror
    · rw [checked_queue, htasks, hqueue, List.singleton_append]
  · exact absurd hends hlong

/-- A solver finds the value of the state that is asked for, whatever is drawn. -/
theorem Determined.finishes (h : p.Determined worth) (hends : p.EndsWithin p.maxPlies p.origin) (host : ε) :
    ∃ y, p.Comes ⟨{}, host⟩ y ∧ p.Sound worth y.own ∧ y.own.isDone = true := by
  obtain ⟨solver, host₁, rest, hok, hsound, hfront⟩ := h.first_step hends host
  cases hdone : solver.isDone with
  | true => exact ⟨_, Comes.refl.head hok, hsound, hdone⟩
  | false =>
    obtain ⟨y, hcomes, hpast, hanswers⟩ :=
      h.completes reaches_origin solver host₁ _ _ rest hsound hdone hfront
    refine ⟨y, hcomes.head hok, hpast.sound, ?_⟩
    by_contra hy
    rw [Bool.not_eq_true] at hy
    obtain ⟨b, hb, hexact⟩ := (answers_range_iff hpast.sound.grounded.sound).1 (hanswers hy)
    have hknown : (y.own.value? p.origin).isSome = true := by
      rw [Solver.value?, value?_eq_some.2 ⟨b, hb, hexact, rfl⟩]
      rfl
    rw [← hpast.sound.done, hy] at hknown
    cases hknown

end Problem

end GameSearch.Solver
