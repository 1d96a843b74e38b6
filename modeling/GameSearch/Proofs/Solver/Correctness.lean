import GameSearch.Chance.Twister
import GameSearch.Proofs.Solver.Completion

/-!
# Solvers are correct

The two results about solvers.  What a solver knows is right at every moment, and a solver knows the value
of the state that is asked for after finitely many steps, if playouts may be as long as plays are.
-/

namespace GameSearch.Solver

variable {ε : Type} [Dice ε] {p : Problem ℚ ε} {worth : State → ℚ} {solver : Solver ℚ}

namespace Problem

/-! ## At every moment -/

/-- Whenever a solver is stopped, its bounds hold and the values that it knows are right.  Bounds never
become inconsistent: a step fails only if a playout is given up. -/
theorem Run.knows_values (hrun : p.Run solver) (h : p.Determined worth) :
    (∀ s b, solver.entries[s]? = some b →
      p.Reaches s ∧ b.lower ≤ p.value worth s ∧ p.value worth s ≤ b.upper) ∧
    (∀ s x, solver.book[s]? = some x → x = p.value worth s) ∧
    (∀ s x, solver.value? s = some x → x = p.value worth s) ∧
    ∀ host, ∃ solver' host', p.step ⟨solver, host⟩ = .ok () ⟨solver', host'⟩ ∨
      p.step ⟨solver, host⟩ = .error .outOfSteps ⟨solver', host'⟩ ∧ ¬p.EndsWithin p.maxPlies p.origin := by
  have hsound := hrun.sound h
  refine ⟨fun s b hb => ?_, fun s x hx => ?_, fun s x hx => hsound.grounded.sound.value hx, fun host => ?_⟩
  · obtain ⟨hs, hhold⟩ := hsound.grounded s b hb
    exact ⟨hs, hhold.lower, hhold.upper⟩
  · rw [getElem?_book] at hx
    exact hsound.grounded.sound.value hx
  · obtain ⟨solver', host', -, hstep⟩ := h.step_yields host hsound
    exact ⟨solver', host', hstep⟩

lemma Comes.run {x y : Hosted (Solver ℚ) ε} (hrun : p.Run x.own) (h : p.Comes x y) : p.Run y.own := by
  obtain ⟨n, hn⟩ := h
  induction n generalizing x with
  | zero =>
    cases hn
    exact hrun
  | succ n ih =>
    obtain ⟨_, w, hstep, hrest⟩ := Action.bind_eq_ok.1 hn
    exact ih (hrun.step hstep) hrest

end Problem

end GameSearch.Solver

namespace GameSearch.Wager

open Solver

variable {ε : Type}

lemma reaches_kept : (problem ε).Reaches kept :=
  Problem.reaches_origin.successor (Problem.mem_successors.2
    ⟨.single gambler keep, Game.transitions_of_ok successors?_staked ▸ List.mem_cons_self⟩)

lemma reaches_risked : (problem ε).Reaches risked :=
  Problem.reaches_origin.successor (Problem.mem_successors.2
    ⟨.single gambler risk, Game.transitions_of_ok successors?_staked ▸ by simp⟩)

lemma successors_staked : (problem ε).successors staked = [kept, risked] := by
  rw [Problem.successors, problem, Game.transitions_of_ok successors?_staked]
  rfl

lemma successors_risked : (problem ε).successors risked = [won, lost] := by
  rw [Problem.successors, problem, Game.transitions_of_ok successors?_risked]
  rfl

lemma value_risked : (problem ε).value gain risked = 1 / 3 := by
  have h := determined ε
  have hwon : (problem ε).value gain won = 2 / 3 :=
    h.value_of_terminal (reaches_risked.successor (successors_risked ▸ by simp)) rfl
  have hlost : (problem ε).value gain lost = 0 :=
    h.value_of_terminal (reaches_risked.successor (successors_risked ▸ by simp)) rfl
  rw [h.value_of_chance reaches_risked rfl rfl, successors_risked]
  simp only [List.map_cons, List.map_nil, hwon, hlost, List.sum_cons, List.sum_nil, List.length_cons,
    List.length_nil]
  norm_num

/-- The wager is fair. -/
lemma value_staked : (problem ε).value gain staked = 1 / 3 := by
  have h := determined ε
  have hkept : (problem ε).value gain kept = 1 / 3 := h.value_of_terminal reaches_kept rfl
  obtain ⟨-, t, ht, hvalue⟩ := h.value_of_allies Problem.reaches_origin rfl
    (show staked.controllers.toList ≠ [chance] by decide)
    (show ∀ role ∈ staked.controllers.toList, role ∈ SortedSet.ofList [gambler] by decide)
  change _ = (problem ε).value gain staked at hvalue
  rw [← hvalue]
  change t ∈ (problem ε).successors staked at ht
  rw [successors_staked, List.mem_pair] at ht
  rcases ht with rfl | rfl
  · exact hkept
  · exact value_risked

lemma endsWithin_two : (problem ε).EndsWithin 2 staked := Problem.endsWithin_of_rank left_lt le_rfl

end GameSearch.Wager

namespace GameSearch.Solver.Problem

variable {ε : Type} {p : Problem ℚ ε} {worth : State → ℚ}

/-- There is a moment at which the value of the wager is known. -/
theorem knows_values_wager : ∃ solver, (Wager.problem Twister).Run solver ∧
    (∀ s b, solver.entries[s]? = some b → (Wager.problem Twister).Reaches s ∧
      b.lower ≤ (Wager.problem Twister).value Wager.gain s ∧
      (Wager.problem Twister).value Wager.gain s ≤ b.upper) ∧
    solver.book[Wager.staked]? = some (1 / 3) ∧ solver.value? Wager.staked = some (1 / 3) := by
  obtain ⟨y, hcomes, hsound, hdone⟩ :=
    (Wager.determined Twister).finishes Wager.endsWithin_two (Twister.ofSeed 1)
  have hrun : (Wager.problem Twister).Run y.own := hcomes.run .start
  obtain ⟨hbounds, hbook, hvalue, -⟩ := hrun.knows_values (Wager.determined Twister)
  have hknown := hsound.value?_of_done hdone
  change y.own.value? Wager.staked = some _ at hknown
  refine ⟨y.own, hrun, hbounds, ?_, ?_⟩
  · rw [← getElem?_book] at hknown
    rw [hknown, hbook _ _ hknown, Wager.value_staked]
  · rw [hknown, hvalue _ _ hknown, Wager.value_staked]

/-! ## In the end -/

/-- The problem with another limit on the length of playouts. -/
def withMaxPlies (p : Problem ℚ ε) (maxPlies : ℕ) : Problem ℚ ε := { p with maxPlies := maxPlies }

lemma EndsWithin.withMaxPlies {n maxPlies : ℕ} {s : State} (h : p.EndsWithin n s) :
    (p.withMaxPlies maxPlies).EndsWithin n s := by
  induction n generalizing s with
  | zero => exact h
  | succ n ih => exact fun t ht => ih (h t ht)

variable [Dice ε]

/-- Whatever is drawn, a new solver is done after some number of steps, and then knows that this is the
value of the state that is asked for. -/
def FinishesWith (p : Problem ℚ ε) (x : ℚ) : Prop :=
  ∀ host, ∃ n y, p.steps n ⟨{}, host⟩ = .ok () y ∧ y.own.isDone = true ∧ y.own.value? p.origin = some x

/-- A step that takes a search from the queue finds bounds that answer its window, or puts the search behind
others.  In the second case the search comes to the front again, unless the solver is done before, and then
bounds that answer its window are found.  Nothing else has been put in front of the rest of the queue. -/
def SearchesTwice (p : Problem ℚ ε) : Prop :=
  ∀ solver, p.Run solver → solver.isDone = false → ∀ s low high rest,
    solver.queue.toList = .search s low high :: rest → ∀ host, ∃ solver' host',
      p.step ⟨solver, host⟩ = .ok () ⟨solver', host'⟩ ∧
      (solver'.queue.toList = rest ∧ answers solver'.entries[s]? low high = true ∨
        ∃ tasks, solver'.queue.toList = tasks ++ .search s low high :: rest ∧
          ∃ n y, p.steps n ⟨solver', host'⟩ = .ok () y ∧
            (y.own.isDone = true ∨ y.own.queue.toList = .search s low high :: rest ∧
              ∃ z, p.step y = .ok () z ∧ z.own.queue.toList = rest ∧
                answers z.own.entries[s]? low high = true))

lemma Determined.finishesWith (h : p.Determined worth) (hends : p.EndsWithin p.maxPlies p.origin) :
    p.FinishesWith (p.value worth p.origin) := by
  intro host
  obtain ⟨y, ⟨n, hn⟩, hsound, hdone⟩ := h.finishes hends host
  exact ⟨n, y, hn, hdone, hsound.value?_of_done hdone⟩

lemma Determined.searchesTwice (h : p.Determined worth) : p.SearchesTwice := by
  intro solver hrun hdone s low high rest hfront host
  have hsound := hrun.sound h
  have hs : p.Reaches s := hsound.queue (.search s low high) (hfront ▸ List.mem_cons_self)
  obtain ⟨solver', host', hok, ⟨-, hqueue, hanswers⟩ | ⟨tasks, hqueue, y, ⟨n, hn⟩, hpast, hagain⟩⟩ :=
    h.search_twice host hsound hdone hfront fun c hc => h.completes (hs.successor hc)
  · exact ⟨solver', host', hok, .inl ⟨hqueue, hanswers⟩⟩
  · refine ⟨solver', host', hok, .inr ⟨tasks, hqueue, n, y, hn, ?_⟩⟩
    cases hy : y.own.isDone with
    | true => exact .inl rfl
    | false =>
      obtain ⟨z, hstep, -, hrest, hanswers⟩ := hagain hy
      exact .inr ⟨hpast.queue hy, z, hstep, hrest, hanswers⟩

/-- A solver finds the value of the state that is asked for after finitely many steps, if playouts may be
long enough; and no search comes to the front for ever. -/
theorem Determined.solves (h : p.Determined worth) : ∃ limit, ∀ maxPlies ≥ limit,
    (p.withMaxPlies maxPlies).FinishesWith (p.value worth p.origin) ∧
      (p.withMaxPlies maxPlies).SearchesTwice := by
  obtain ⟨limit, hlimit⟩ := exists_endsWithin (h.acc reaches_origin)
  refine ⟨limit, fun maxPlies hle => ?_⟩
  have h' : (p.withMaxPlies maxPlies).Determined worth := ⟨h.range, h.queries, h.evaluates, h.worths, h.ends⟩
  exact ⟨h'.finishesWith (hlimit.mono hle).withMaxPlies, h'.searchesTwice⟩

theorem solves_wager : (Wager.problem Twister).Determined Wager.gain ∧ ∃ limit, ∀ maxPlies ≥ limit,
    ((Wager.problem Twister).withMaxPlies maxPlies).FinishesWith (1 / 3) ∧
      ((Wager.problem Twister).withMaxPlies maxPlies).SearchesTwice := by
  have hsolves := (Wager.determined Twister).solves
  change ∃ limit, ∀ maxPlies ≥ limit, ((Wager.problem Twister).withMaxPlies maxPlies).FinishesWith
    ((Wager.problem Twister).value Wager.gain Wager.staked) ∧ _ at hsolves
  rw [Wager.value_staked] at hsolves
  exact ⟨Wager.determined Twister, hsolves⟩

end GameSearch.Solver.Problem
