import GameSearch.Proofs.Solver.Verdict

/-!
# What a solver knows is right

Whatever is drawn, and wherever a solver is stopped, the bounds that it has found hold of the values of
the states, and no step makes them inconsistent.  A step fails only if a playout is given up; no playout is
if plays are short enough.
-/

namespace GameSearch

namespace Deque

variable {α : Type} {q : Deque α} {a : α} {l : List α}

lemma popFront?_of_toList (h : q.toList = a :: l) : ∃ r, q.popFront? = some (a, r) ∧ r.toList = l := by
  cases hpop : q.popFront? with
  | none => cases (popFront?_eq_none.1 hpop).symm.trans h
  | some front =>
    obtain ⟨b, r⟩ := front
    cases (popFront?_eq_some hpop).symm.trans h
    exact ⟨r, rfl, rfl⟩

lemma isEmpty_iff : q.isEmpty = true ↔ q.toList = [] := by
  obtain ⟨front, back⟩ := q
  simp [isEmpty, toList]

lemma toList_foldl_pushBack : (l.foldl pushBack q).toList = q.toList ++ l := by
  induction l generalizing q with
  | nil => simp
  | cons a l ih => rw [List.foldl_cons, ih, toList_pushBack, List.append_assoc, List.singleton_append]

end Deque

namespace Solver

variable {ε : Type} {p : Problem ℚ ε} {worth : State → ℚ} {solver solver' solver'' : Solver ℚ} {host : ε}
  {entries : Entries ℚ} {b : Bounds ℚ} {s t : State} {low high : ℚ}

/-- The state that a task is about. -/
def Task.state : Task ℚ → State
  | .seed s => s
  | .search s _ _ => s

/-- The solver with more tasks at the end of its queue. -/
def postponed (solver : Solver ℚ) (tasks : List (Task ℚ)) : Solver ℚ :=
  { solver with queue := tasks.foldl Deque.pushBack solver.queue }

lemma toList_postponed {tasks : List (Task ℚ)} :
    (solver.postponed tasks).queue.toList = solver.queue.toList ++ tasks := Deque.toList_foldl_pushBack

/-- The book lists the known values. -/
lemma getElem?_book : solver.book[s]? = solver.value? s := by
  have hmem : ∀ {x : ℚ}, (s, x) ∈ solver.entries.toList.filterMap (fun (s, b) =>
      if b.isExact then some (s, b.lower) else none) ↔ solver.value? s = some x := by
    intro x
    rw [Solver.value?, value?_eq_some, List.mem_filterMap]
    constructor
    · rintro ⟨⟨t, b⟩, hb, hx⟩
      by_cases hexact : b.isExact = true
      · simp only [if_pos hexact, Option.some.injEq, Prod.mk.injEq] at hx
        obtain ⟨rfl, rfl⟩ := hx
        exact ⟨b, Std.HashMap.mem_toList_iff_getElem?_eq_some.1 hb, Bounds.isExact_iff.1 hexact, rfl⟩
      · simp [hexact] at hx
    · rintro ⟨b, hb, hexact, rfl⟩
      exact ⟨(s, b), Std.HashMap.mem_toList_iff_getElem?_eq_some.2 hb, if_pos (Bounds.isExact_iff.2 hexact)⟩
  cases hvalue : solver.value? s with
  | some x =>
    refine Std.ExtTreeMap.getElem?_ofList_of_mem Std.ReflCmp.compare_self ?_ (hmem.2 hvalue)
    refine List.Pairwise.filterMap _ (fun a a' hne b hb b' hb' => ?_) Std.HashMap.distinct_keys_toList
    have hkeys : b.1 = a.1 ∧ b'.1 = a'.1 := by
      simp only [Option.ite_none_right_eq_some, Option.some.injEq] at hb hb'
      exact ⟨hb.2 ▸ rfl, hb'.2 ▸ rfl⟩
    rw [hkeys.1, hkeys.2, Std.LawfulEqCmp.compare_eq_iff_eq]
    simpa using hne
  | none =>
    refine Std.ExtTreeMap.getElem?_ofList_of_contains_eq_false ?_
    rw [← Bool.not_eq_true, List.contains_iff_mem, List.mem_map]
    rintro ⟨⟨t, x⟩, hx, rfl⟩
    cases hvalue.symm.trans (hmem.1 hx)

namespace Problem

/-- Every play from a state is over after at most so many plies. -/
def EndsWithin (p : Problem ℚ ε) : ℕ → State → Prop
  | 0, s => p.successors s = []
  | n + 1, s => ∀ t ∈ p.successors s, EndsWithin p n t

lemma EndsWithin.succ {n : ℕ} (h : p.EndsWithin n s) : p.EndsWithin (n + 1) s := by
  induction n generalizing s with
  | zero => exact fun t ht => absurd (h ▸ ht) List.not_mem_nil
  | succ n ih => exact fun t ht => ih (h t ht)

lemma EndsWithin.successor {n : ℕ} (h : p.EndsWithin n s) (ht : t ∈ p.successors s) : p.EndsWithin n t := by
  cases n with
  | zero => exact absurd (h ▸ ht) List.not_mem_nil
  | succ n => exact (h t ht).succ

lemma EndsWithin.of_reaches {n : ℕ} (h : p.EndsWithin n p.origin) (hs : p.Reaches s) : p.EndsWithin n s := by
  obtain ⟨plies, hs⟩ := hs
  induction plies generalizing s with
  | zero => exact hs ▸ h
  | succ plies ih =>
    obtain ⟨r, hr, step, hstep, rfl⟩ := Game.after_succ.1 hs
    exact (ih hr).successor (mem_successors.2 ⟨step.1, hstep⟩)

lemma EndsWithin.mono {m n : ℕ} (h : p.EndsWithin m s) (hmn : m ≤ n) : p.EndsWithin n s := by
  induction hmn with
  | refl => exact h
  | step _ ih => exact ih.succ

/-- If every play ends, there is a bound on how long plays are. -/
theorem exists_endsWithin (h : Acc p.Follows s) : ∃ n, p.EndsWithin n s := by
  induction h with
  | intro s _ ih =>
    suffices hall : ∀ children : List State, (∀ t ∈ children, t ∈ p.successors s) →
        ∃ n, ∀ t ∈ children, p.EndsWithin n t by
      obtain ⟨n, hn⟩ := hall (p.successors s) fun _ ht => ht
      exact ⟨n + 1, hn⟩
    intro children
    induction children with
    | nil => exact fun _ => ⟨0, fun t ht => absurd ht List.not_mem_nil⟩
    | cons t children ih' =>
      intro hmem
      obtain ⟨m, hm⟩ := ih t (hmem t List.mem_cons_self)
      obtain ⟨n, hn⟩ := ih' fun t ht => hmem t (List.mem_cons_of_mem _ ht)
      exact ⟨max m n, List.forall_mem_cons.2
        ⟨hm.mono (le_max_left m n), fun t ht => (hn t ht).mono (le_max_right m n)⟩⟩

/-- Plays are short if each ply lowers the rank of the state. -/
lemma endsWithin_of_rank {rank : State → ℕ} (hrank : ∀ s t, p.Follows t s → rank t < rank s) {n : ℕ}
    (hs : rank s ≤ n) : p.EndsWithin n s := by
  induction n generalizing s with
  | zero => exact List.eq_nil_iff_forall_not_mem.2 fun t ht => by linarith [hrank s t ht]
  | succ n ih => exact fun t ht => ih (by linarith [hrank s t ht])

/-- All bounds are those of states that can come up, and hold of their values. -/
def Grounded (p : Problem ℚ ε) (worth : State → ℚ) (entries : Entries ℚ) : Prop :=
  ∀ (s : State) (b : Bounds ℚ), entries[s]? = some b → p.Reaches s ∧ b.Hold p.range (p.value worth s)

lemma Grounded.sound (h : p.Grounded worth entries) : entries.Sound p.range (p.value worth) :=
  fun s b hb => (h s b hb).2

/-- A solver finds better bounds, or keeps those it has. -/
structure Learns (p : Problem ℚ ε) (worth : State → ℚ) (solver solver' : Solver ℚ) : Prop where
  grounded : p.Grounded worth solver'.entries
  narrows : solver.entries.Narrows solver'.entries
  isDone : solver'.isDone = solver.isDone

lemma Learns.refl (h : p.Grounded worth solver.entries) : p.Learns worth solver solver := ⟨h, .refl, rfl⟩

/-- What the bounds of a state become if others are found for it. -/
def narrowed (p : Problem ℚ ε) (entries : Entries ℚ) (s : State) (b : Bounds ℚ) : Bounds ℚ :=
  ⟨max (entries.getD s p.range).lower b.lower, min (entries.getD s p.range).upper b.upper⟩

namespace Determined

variable (solver host) (h : p.Determined worth) (hs : p.Reaches s) (hgrounded : p.Grounded worth solver.entries)

include h hs hgrounded in
omit hgrounded in
lemma hold_getD (hgrounded : p.Grounded worth entries) :
    (entries.getD s p.range).Hold p.range (p.value worth s) := by
  rw [Std.HashMap.getD_eq_getD_getElem?]
  cases hb : entries[s]? with
  | none => exact ⟨(h.value_mem hs).1, (h.value_mem hs).2, le_rfl, le_rfl⟩
  | some b => exact (hgrounded s b hb).2

include h hs hgrounded

/-- Bounds that hold of the value of a state can be had for it. -/
lemma tighten_yields (hb : b.Hold p.range (p.value worth s)) : ∃ solver',
    p.tighten s b ⟨solver, host⟩ = .ok () ⟨solver', host⟩ ∧ p.Learns worth solver solver' ∧
      solver'.queue = solver.queue ∧
      ∀ low high, b.Answers low high → answers solver'.entries[s]? low high = true := by
  have hold := h.hold_getD hs hgrounded
  have hnew : (p.narrowed solver.entries s b).Hold p.range (p.value worth s) :=
    ⟨max_le hold.lower hb.lower, le_min hold.upper hb.upper, hold.least.trans (le_max_left _ _),
      (min_le_left _ _).trans hold.greatest⟩
  have hbetween := hnew.lower.trans hnew.upper
  refine ⟨{ solver with entries := solver.entries.insert s (p.narrowed solver.entries s b) }, ?_, ⟨?_, ?_, rfl⟩,
    rfl, ?_⟩
  · refine (Action.bind_of_ok rfl).trans ((Action.bind_of_ok rfl).trans ?_)
    simp only [Scalar.larger_rat, Scalar.smaller_rat]
    rw [narrowed] at hbetween
    rw [decide_eq_true hbetween]
    rfl
  · intro t b' hb'
    rw [Std.HashMap.getElem?_insert] at hb'
    split at hb'
    · rename_i heq
      cases eq_of_beq heq
      cases hb'
      exact ⟨hs, hnew⟩
    · exact hgrounded t b' hb'
  · intro t b' hb'
    simp only [Std.HashMap.getElem?_insert]
    split
    · rename_i heq
      cases eq_of_beq heq
      rw [narrowed, Std.HashMap.getD_eq_getD_getElem?, hb']
      exact ⟨_, rfl, le_max_left _ _, min_le_left _ _⟩
    · exact ⟨b', hb', le_rfl, le_rfl⟩
  · intro low high hanswers
    refine answers_iff.2 ⟨p.narrowed solver.entries s b, Std.HashMap.getElem?_insert_self, ?_⟩
    have hlower : b.lower ≤ (p.narrowed solver.entries s b).lower := le_max_right _ _
    have hupper : (p.narrowed solver.entries s b).upper ≤ b.upper := min_le_right _ _
    rcases hanswers with hexact | hcut | hfail
    · exact .inl (le_antisymm hbetween (by linarith))
    · exact .inr (.inl (by linarith))
    · exact .inr (.inr (by linarith))

lemma settleTerminal_yields (hterminal : p.game.isTerminal s = .ok true) : ∃ solver' host',
    p.settleTerminal s ⟨solver, host⟩ = .ok () ⟨solver', host'⟩ ∧ p.Learns worth solver solver' ∧
      solver'.queue = solver.queue ∧ ∀ low high, answers solver'.entries[s]? low high = true := by
  obtain ⟨host', heval⟩ := h.evaluates s hs hterminal host
  have hvalue := h.value_of_terminal hs hterminal
  obtain ⟨hleast, hgreatest⟩ := h.worths s hs hterminal
  obtain ⟨solver', hrun, hlearns, hqueue, hanswers⟩ := h.tighten_yields solver host' hs hgrounded
    (show Bounds.Hold ⟨worth s, worth s⟩ p.range _ from ⟨hvalue.ge, hvalue.le, hleast, hgreatest⟩)
  refine ⟨solver', host', ?_, hlearns, hqueue, fun low high => hanswers low high (.inl rfl)⟩
  have hhost : (Hosted.onHost (p.evaluator.evaluate p.game s p.role) :
      Action (Hosted (Solver ℚ) ε) ℚ) ⟨solver, host⟩ = .ok (worth s) ⟨solver, host'⟩ := by
    rw [Hosted.onHost, heval]
  exact (Action.bind_of_ok hhost).trans hrun

omit hgrounded in
lemma search_of_goes (hgoes : p.game.isTerminal s = .ok false) (hopen : ¬answers solver.entries[s]? low high = true) :
    p.search s low high ⟨solver, host⟩ =
      match p.judge solver.entries s.controllers low high (p.successors s) with
      | .settled b => p.tighten s b ⟨solver, host⟩
      | .waiting tasks => .ok ()
          ⟨{ solver with queue := (solver.queue.pushFront (.search s low high)).prepend tasks }, host⟩ := by
  rw [search]
  refine (Action.bind_of_ok rfl).trans ?_
  rw [if_neg hopen]
  refine (Action.bind_of_ok (Action.lift_of_ok hgoes _)).trans ?_
  refine (Action.bind_of_ok (Action.lift_of_ok (h.children? hs) _)).trans ?_
  refine (Action.bind_of_ok rfl).trans ?_
  refine (Action.bind_of_ok (Action.lift_of_ok (h.control? hs hgoes) _)).trans ?_
  cases p.judge solver.entries s.controllers low high (p.successors s) <;> rfl

/-- A search finds bounds that answer its window, or is put behind those of some of the successors. -/
lemma search_yields (low high : ℚ) : ∃ solver' host', p.search s low high ⟨solver, host⟩ = .ok () ⟨solver', host'⟩ ∧
    (p.Learns worth solver solver' ∧ solver'.queue = solver.queue ∧
        answers solver'.entries[s]? low high = true ∨
      ∃ tasks, p.judge solver.entries s.controllers low high (p.successors s) = .waiting tasks ∧
        solver' = { solver with queue := (solver.queue.pushFront (.search s low high)).prepend tasks }) := by
  by_cases hanswers : answers solver.entries[s]? low high = true
  · refine ⟨solver, host, ?_, .inl ⟨.refl hgrounded, rfl, hanswers⟩⟩
    rw [search]
    refine (Action.bind_of_ok rfl).trans ?_
    rw [if_pos hanswers]
    rfl
  · by_cases hterminal : p.game.isTerminal s = .ok true
    · obtain ⟨solver', host', hrun, hlearns, hqueue, hsettled⟩ :=
        h.settleTerminal_yields solver host hs hgrounded hterminal
      refine ⟨solver', host', ?_, .inl ⟨hlearns, hqueue, hsettled low high⟩⟩
      rw [search]
      refine (Action.bind_of_ok rfl).trans ?_
      rw [if_neg hanswers]
      refine (Action.bind_of_ok (Action.lift_of_ok hterminal _)).trans ?_
      exact Action.bind_of_ok hrun
    · have hgoes := h.goes hs hterminal
      cases hjudge : p.judge solver.entries s.controllers low high (p.successors s) with
      | settled b =>
        obtain ⟨hhold, hb⟩ := h.judge_settled hs hgoes hgrounded.sound hjudge
        obtain ⟨solver', hrun, hlearns, hqueue, hsettled⟩ := h.tighten_yields solver host hs hgrounded hhold
        refine ⟨solver', host, ?_, .inl ⟨hlearns, hqueue, hsettled low high hb⟩⟩
        rw [h.search_of_goes solver host hs hgoes hanswers, hjudge]
        exact hrun
      | waiting tasks =>
        refine ⟨_, host, ?_, .inr ⟨tasks, rfl, rfl⟩⟩
        rw [h.search_of_goes solver host hs hgoes hanswers, hjudge]

variable [Dice ε]

/-- A playout ends at a state whose value is known or that is terminal. -/
lemma playToKnown_stops (left : ℕ) (before : Option State)
    (hstops : (solver.value? s).isSome = true ∨ p.game.isTerminal s = .ok true) :
    ∃ solver' host', p.playToKnown left s before ⟨solver, host⟩ = .ok before ⟨solver', host'⟩ ∧
      p.Learns worth solver solver' ∧ solver'.queue = solver.queue := by
  by_cases hknown : (solver.value? s).isSome = true
  · refine ⟨solver, host, ?_, .refl hgrounded, rfl⟩
    rw [playToKnown.eq_def]
    refine (Action.bind_of_ok rfl).trans ?_
    rw [if_pos hknown]
    rfl
  · have hterminal := hstops.resolve_left hknown
    obtain ⟨solver', host', hrun, hlearns, hqueue, -⟩ := h.settleTerminal_yields solver host hs hgrounded hterminal
    refine ⟨solver', host', ?_, hlearns, hqueue⟩
    rw [playToKnown.eq_def]
    refine (Action.bind_of_ok rfl).trans ?_
    rw [if_neg hknown]
    refine (Action.bind_of_ok (Action.lift_of_ok hterminal _)).trans ?_
    exact Action.bind_of_ok hrun

/-- A random playout leads to a state that can come up, unless it is given up. -/
lemma playToKnown_yields (left : ℕ) {before : Option State} (hbefore : ∀ t ∈ before, p.Reaches t) :
    (∃ last solver' host', p.playToKnown left s before ⟨solver, host⟩ = .ok last ⟨solver', host'⟩ ∧
      (∀ t ∈ last, p.Reaches t) ∧ p.Learns worth solver solver' ∧ solver'.queue = solver.queue) ∨
    ∃ host', p.playToKnown left s before ⟨solver, host⟩ = .error .outOfSteps ⟨solver, host'⟩ ∧
      ¬p.EndsWithin left s := by
  induction left generalizing s before host with
  | zero =>
    by_cases hstops : (solver.value? s).isSome = true ∨ p.game.isTerminal s = .ok true
    · obtain ⟨solver', host', hrun, hlearns, hqueue⟩ := h.playToKnown_stops solver host hs hgrounded 0 before hstops
      exact .inl ⟨before, solver', host', hrun, hbefore, hlearns, hqueue⟩
    · rw [not_or] at hstops
      have hgoes := h.goes hs hstops.2
      refine .inr ⟨host, ?_, h.successors_ne_nil hs hgoes⟩
      rw [playToKnown]
      refine (Action.bind_of_ok rfl).trans ?_
      rw [if_neg hstops.1]
      exact Action.bind_of_ok (Action.lift_of_ok hgoes _)
  | succ left ih =>
    by_cases hstops : (solver.value? s).isSome = true ∨ p.game.isTerminal s = .ok true
    · obtain ⟨solver', host', hrun, hlearns, hqueue⟩ :=
        h.playToKnown_stops solver host hs hgrounded (left + 1) before hstops
      exact .inl ⟨before, solver', host', hrun, hbefore, hlearns, hqueue⟩
    · rw [not_or] at hstops
      have hgoes := h.goes hs hstops.2
      obtain ⟨next, hnext⟩ := h.queries s hs
      obtain ⟨turn, host₁, t, hturn, hplay, hstep⟩ := Game.randomTurn_run hnext hgoes host
      have ht : t ∈ p.successors s := mem_successors.2 ⟨turn, hstep⟩
      have hgo : p.playToKnown (left + 1) s before ⟨solver, host⟩ =
          p.playToKnown left t (some s) ⟨solver, host₁⟩ := by
        rw [playToKnown]
        refine (Action.bind_of_ok rfl).trans ?_
        rw [if_neg hstops.1]
        refine (Action.bind_of_ok (Action.lift_of_ok hgoes _)).trans ?_
        have hhost : (Hosted.onHost (p.game.randomTurn s) : Action (Hosted (Solver ℚ) ε) Turn)
            ⟨solver, host⟩ = .ok turn ⟨solver, host₁⟩ := by
          rw [Hosted.onHost, hturn]
        refine (Action.bind_of_ok hhost).trans ?_
        exact Action.bind_of_ok (Action.lift_of_ok hplay _)
      rw [hgo]
      rcases ih host₁ (hs.successor ht) (show ∀ t ∈ some s, p.Reaches t by simpa using hs) with
        hok | ⟨host', hrun, hlong⟩
      · exact .inl hok
      · exact .inr ⟨host', hrun, fun hends => hlong (hends t ht)⟩

/-- A seed is planted, unless its playout is given up. -/
lemma plant_yields :
    (∃ solver' host' tasks, p.plant s ⟨solver, host⟩ = .ok () ⟨solver', host'⟩ ∧
      p.Learns worth solver solver' ∧ solver'.queue.toList = solver.queue.toList ++ tasks ∧
      ∀ task ∈ tasks, p.Reaches task.state) ∨
    ∃ solver' host', p.plant s ⟨solver, host⟩ = .error .outOfSteps ⟨solver', host'⟩ ∧
      p.Learns worth solver solver' ∧ solver'.queue = solver.queue ∧ solver'.entries = solver.entries ∧
      ¬p.EndsWithin p.maxPlies s := by
  by_cases hseeded : solver.seeded.contains s = true
  · refine .inl ⟨solver, host, [], ?_, .refl hgrounded, (List.append_nil _).symm, by simp⟩
    rw [plant]
    refine (Action.bind_of_ok rfl).trans ?_
    rw [if_pos hseeded]
    rfl
  · rcases h.playToKnown_yields { solver with seeded := solver.seeded.insert s } host hs hgrounded p.maxPlies
      (show ∀ t ∈ none, p.Reaches t by simp) with
      ⟨last, solver₁, host₁, hplay, hlast, hlearns, hqueue⟩ | ⟨host', hplay, hlong⟩
    · -- The state where the playout ended is searched later, and so are playouts from the successors.
      let seeds : List (Task ℚ) := ((p.successors s).filter fun c => !solver₁.seeded.contains c).map .seed
      have hseeds : ∀ task ∈ seeds, p.Reaches task.state := by
        intro task htask
        obtain ⟨c, hc, rfl⟩ := List.mem_map.1 htask
        exact hs.successor (List.mem_filter.1 hc).1
      have hrun : ∃ planned : List (Task ℚ), (∀ task ∈ planned, p.Reaches task.state) ∧
          p.plant s ⟨solver, host⟩ = .ok () ⟨(solver₁.postponed planned).postponed seeds, host₁⟩ := by
        cases last with
        | none =>
          refine ⟨[], by simp, ?_⟩
          rw [plant]
          refine (Action.bind_of_ok rfl).trans ?_
          rw [if_neg hseeded]
          refine (Action.bind_of_ok rfl).trans ?_
          refine (Action.bind_of_ok hplay).trans ?_
          exact Action.bind_of_ok (Action.lift_of_ok (h.children? hs) _)
        | some last =>
          refine ⟨[.seed last, .search last p.range.lower p.range.upper], ?_, ?_⟩
          · simp [Task.state, hlast last rfl]
          rw [plant]
          refine (Action.bind_of_ok rfl).trans ?_
          rw [if_neg hseeded]
          refine (Action.bind_of_ok rfl).trans ?_
          refine (Action.bind_of_ok hplay).trans ?_
          refine (Action.bind_of_ok rfl).trans ?_
          exact Action.bind_of_ok (Action.lift_of_ok (h.children? hs) _)
      obtain ⟨planned, hplanned, hrun⟩ := hrun
      refine .inl ⟨_, host₁, planned ++ seeds, hrun, ⟨hlearns.grounded, hlearns.narrows, hlearns.isDone⟩, ?_, ?_⟩
      · rw [toList_postponed, toList_postponed, hqueue, List.append_assoc]
      · exact fun task htask => (List.mem_append.1 htask).elim (hplanned task) (hseeds task)
    · refine .inr ⟨{ solver with seeded := solver.seeded.insert s }, host', ?_, .mk hgrounded .refl rfl, rfl, rfl,
        hlong⟩
      rw [plant]
      refine (Action.bind_of_ok rfl).trans ?_
      rw [if_neg hseeded]
      refine (Action.bind_of_ok rfl).trans ?_
      exact Action.bind_of_error hplay

omit hs in
/-- A task is done, unless it is a seed whose playout is given up. -/
lemma perform_yields {task : Task ℚ} (hs : p.Reaches task.state)
    (hqueue : ∀ task ∈ solver.queue.toList, p.Reaches task.state) :
    ∃ solver' host', p.Learns worth solver solver' ∧ (∀ task ∈ solver'.queue.toList, p.Reaches task.state) ∧
      (p.perform task ⟨solver, host⟩ = .ok () ⟨solver', host'⟩ ∨
        p.perform task ⟨solver, host⟩ = .error .outOfSteps ⟨solver', host'⟩ ∧
          solver'.entries = solver.entries ∧ ¬p.EndsWithin p.maxPlies task.state) := by
  cases task with
  | seed s =>
    rcases h.plant_yields solver host hs hgrounded with
      ⟨solver', host', tasks, hrun, hlearns, htasks, hreach⟩ | ⟨solver', host', hrun, hlearns, hsame, hlong⟩
    · refine ⟨solver', host', hlearns, fun task htask => ?_, .inl hrun⟩
      rw [htasks] at htask
      exact (List.mem_append.1 htask).elim (hqueue task) (hreach task)
    · exact ⟨solver', host', hlearns, hsame ▸ hqueue, .inr ⟨hrun, hlong⟩⟩
  | search s low high =>
    change p.Reaches s at hs
    obtain ⟨solver', host', hrun, ⟨hlearns, hsame, -⟩ | ⟨tasks, hjudge, rfl⟩⟩ :=
      h.search_yields solver host hs hgrounded low high
    · exact ⟨solver', host', hlearns, hsame ▸ hqueue, .inl hrun⟩
    · refine ⟨{ solver with queue := (solver.queue.pushFront (.search s low high)).prepend tasks }, host',
        ⟨hgrounded, .refl, rfl⟩, fun task htask => ?_, .inl hrun⟩
      obtain ⟨l, u, rfl, -⟩ := judge_waiting hgrounded.sound hjudge
      rw [Deque.toList_prepend, Deque.toList_pushFront] at htask
      rcases List.mem_append.1 htask with htask | htask
      · obtain ⟨c, hc, rfl⟩ := List.mem_map.1 htask
        exact hs.successor (List.mem_filter.1 hc).1
      · rcases List.mem_cons.1 htask with rfl | htask
        · exact hs
        · exact hqueue task htask

end Determined

/-! ## Steps -/

/-- What is true of a solver after any number of steps. -/
structure Sound (p : Problem ℚ ε) (worth : State → ℚ) (solver : Solver ℚ) : Prop where
  grounded : p.Grounded worth solver.entries
  queue : ∀ task ∈ solver.queue.toList, p.Reaches task.state
  done : solver.isDone = (solver.value? p.origin).isSome

/-- The solver after a look at what is known of the state that is asked for. -/
def checked (p : Problem ℚ ε) (solver : Solver ℚ) : Solver ℚ :=
  if (solver.value? p.origin).isSome then { solver with isDone := true } else solver

/-- The tasks of a solver that has nothing to do. -/
def fresh (p : Problem ℚ ε) (solver : Solver ℚ) : List (Task ℚ) :=
  (if solver.seeded.contains p.origin then [] else [.seed p.origin]) ++
    [.search p.origin p.range.lower p.range.upper]

@[simp] lemma checked_entries : (p.checked solver).entries = solver.entries := by
  rw [checked]
  split <;> rfl

@[simp] lemma checked_queue : (p.checked solver).queue = solver.queue := by
  rw [checked]
  split <;> rfl

lemma sound_empty : p.Sound worth {} :=
  ⟨fun s b hb => by simp at hb, by simp, by simp [Solver.value?, Entries.value?]⟩

lemma Learns.sound_checked (h : p.Learns worth solver solver') (hdone : solver.isDone = false)
    (hqueue : ∀ task ∈ solver'.queue.toList, p.Reaches task.state) : p.Sound worth (p.checked solver') := by
  refine ⟨by rw [checked_entries]; exact h.grounded, by rw [checked_queue]; exact hqueue, ?_⟩
  rw [Solver.value?, checked_entries, ← Solver.value?, checked]
  split
  · rename_i hknown
    exact hknown.symm
  · rename_i hunknown
    rw [h.isDone, hdone, eq_comm, ← Bool.not_eq_true]
    exact hunknown

lemma Sound.postponed {tasks : List (Task ℚ)} (hsound : p.Sound worth solver)
    (htasks : ∀ task ∈ tasks, p.Reaches task.state) : p.Sound worth (solver.postponed tasks) := by
  refine ⟨hsound.grounded, fun task htask => ?_, hsound.done⟩
  rw [toList_postponed] at htask
  exact (List.mem_append.1 htask).elim (hsound.queue task) (htasks task)

lemma reaches_fresh {task : Task ℚ} (htask : task ∈ p.fresh solver) : p.Reaches task.state := by
  rw [fresh, List.mem_append] at htask
  rcases htask with htask | htask
  · split at htask
    · cases htask
    · rw [List.mem_singleton.1 htask]
      exact reaches_origin
  · rw [List.mem_singleton.1 htask]
    exact reaches_origin

variable [Dice ε]

lemma step_of_done (hdone : solver.isDone = true) : p.step ⟨solver, host⟩ = .ok () ⟨solver, host⟩ := by
  rw [step]
  refine (Action.bind_of_ok rfl).trans ?_
  rw [if_pos hdone]
  rfl

/-- A solver that is not done does the first task of its queue. -/
lemma step_of_front (p : Problem ℚ ε) (host : ε) {task : Task ℚ} {rest : List (Task ℚ)} (hdone : solver.isDone = false)
    (hfront : solver.queue.toList = task :: rest) : ∃ queue : Deque (Task ℚ), queue.toList = rest ∧
      p.step ⟨solver, host⟩ = match p.perform task ⟨{ solver with queue := queue }, host⟩ with
        | .ok _ ⟨solver', host'⟩ => .ok () ⟨p.checked solver', host'⟩
        | .error e t => .error e t := by
  obtain ⟨queue, hpop, hqueue⟩ := Deque.popFront?_of_toList hfront
  refine ⟨queue, hqueue, ?_⟩
  have hempty : ¬solver.queue.isEmpty = true := by simp [Deque.isEmpty_iff, hfront]
  rw [step]
  refine (Action.bind_of_ok rfl).trans ?_
  rw [if_neg (by simp [hdone])]
  refine (Action.bind_of_ok rfl).trans ?_
  rw [if_neg hempty]
  refine (Action.bind_of_ok rfl).trans ?_
  rw [hpop]
  refine (Action.bind_of_ok rfl).trans ?_
  cases hrun : p.perform task ⟨{ solver with queue := queue }, host⟩ with
  | error e t => exact Action.bind_of_error hrun
  | ok u t =>
    refine (Action.bind_of_ok hrun).trans ((Action.bind_of_ok rfl).trans ?_)
    obtain ⟨solver', host'⟩ := t
    simp only [checked]
    split <;> rfl

/-- A solver that has nothing to do fills its queue first. -/
lemma step_of_empty (hsound : p.Sound worth solver) (hdone : solver.isDone = false)
    (hempty : solver.queue.toList = []) :
    p.step ⟨solver, host⟩ = p.step ⟨solver.postponed (p.fresh solver), host⟩ := by
  have hunknown : ¬(solver.value? p.origin).isSome = true := by
    rw [← hsound.done, hdone]
    exact Bool.false_ne_true
  have hrestart : p.restart ⟨solver, host⟩ = .ok () ⟨solver.postponed (p.fresh solver), host⟩ := by
    rw [restart, fresh]
    refine (Action.bind_of_ok rfl).trans ?_
    rw [if_neg hunknown]
    by_cases hseeded : solver.seeded.contains p.origin = true
    · rw [if_pos hseeded, if_neg (by simp [hseeded])]
      rfl
    · rw [if_neg hseeded, if_pos (by simpa using hseeded)]
      rfl
  have hfilled : ¬(solver.postponed (p.fresh solver)).queue.isEmpty = true := by
    simp [Deque.isEmpty_iff, toList_postponed, fresh]
  rw [step]
  refine (Action.bind_of_ok rfl).trans (.trans ?_ (Action.bind_of_ok rfl).symm)
  rw [if_neg (by simp [hdone]), if_neg (show ¬(solver.postponed (p.fresh solver)).isDone = true by
    simp [postponed, hdone])]
  refine (Action.bind_of_ok rfl).trans (.trans ?_ (Action.bind_of_ok rfl).symm)
  rw [if_pos (Deque.isEmpty_iff.2 hempty), if_neg hfilled]
  exact Action.bind_of_ok hrestart

lemma Determined.step_of_front_yields {task : Task ℚ} {rest : List (Task ℚ)} (h : p.Determined worth) (host : ε)
    (hsound : p.Sound worth solver) (hdone : solver.isDone = false) (hfront : solver.queue.toList = task :: rest) :
    ∃ solver' host', p.Sound worth solver' ∧ (p.step ⟨solver, host⟩ = .ok () ⟨solver', host'⟩ ∨
      p.step ⟨solver, host⟩ = .error .outOfSteps ⟨solver', host'⟩ ∧ ¬p.EndsWithin p.maxPlies p.origin) := by
  obtain ⟨queue, hqueue, hstep⟩ := p.step_of_front host hdone hfront
  have hreach : ∀ task ∈ queue.toList, p.Reaches task.state := fun t ht =>
    hsound.queue t (hfront ▸ List.mem_cons_of_mem _ (hqueue ▸ ht))
  have htask : p.Reaches task.state := hsound.queue task (hfront ▸ List.mem_cons_self)
  obtain ⟨solver', host', hlearns, hreach', hrun | ⟨hrun, hentries, hlong⟩⟩ :=
    h.perform_yields { solver with queue := queue } host hsound.grounded htask hreach
  · refine ⟨p.checked solver', host', hlearns.sound_checked hdone hreach', .inl ?_⟩
    rw [hstep, hrun]
  · refine ⟨solver', host', ⟨hlearns.grounded, hreach', ?_⟩, .inr ⟨?_, fun hends => ?_⟩⟩
    · rw [hlearns.isDone, Solver.value?, hentries]
      exact hsound.done
    · rw [hstep, hrun]
    · exact hlong (hends.of_reaches htask)

/-- No step makes bounds inconsistent: a step is made, unless a playout is given up. -/
theorem Determined.step_yields (h : p.Determined worth) (host : ε) (hsound : p.Sound worth solver) :
    ∃ solver' host', p.Sound worth solver' ∧ (p.step ⟨solver, host⟩ = .ok () ⟨solver', host'⟩ ∨
      p.step ⟨solver, host⟩ = .error .outOfSteps ⟨solver', host'⟩ ∧ ¬p.EndsWithin p.maxPlies p.origin) := by
  cases hdone : solver.isDone with
  | true => exact ⟨solver, host, hsound, .inl (step_of_done hdone)⟩
  | false =>
    cases hqueue : solver.queue.toList with
    | cons task rest => exact h.step_of_front_yields host hsound hdone hqueue
    | nil =>
      have hsound' : p.Sound worth (solver.postponed (p.fresh solver)) :=
        hsound.postponed fun task htask => reaches_fresh htask
      cases hfilled : (solver.postponed (p.fresh solver)).queue.toList with
      | nil => simp [toList_postponed, fresh] at hfilled
      | cons task rest =>
        rw [step_of_empty hsound hdone hqueue]
        exact h.step_of_front_yields host hsound' hdone hfilled

/-- What becomes of a new solver by any number of steps, with any draws, some of which may fail. -/
inductive Run (p : Problem ℚ ε) : Solver ℚ → Prop where
  | start : Run p {}
  | step {solver solver' : Solver ℚ} {host host' : ε} (before : Run p solver)
      (ok : p.step ⟨solver, host⟩ = .ok () ⟨solver', host'⟩) : Run p solver'
  | fail {solver solver' : Solver ℚ} {host host' : ε} {e : Fault} (before : Run p solver)
      (error : p.step ⟨solver, host⟩ = .error e ⟨solver', host'⟩) : Run p solver'

theorem Run.sound (hrun : p.Run solver) (h : p.Determined worth) : p.Sound worth solver := by
  induction hrun with
  | start => exact sound_empty
  | step _ hok ih =>
    obtain ⟨_, _, hsound, hstep | ⟨hstep, -⟩⟩ := h.step_yields _ ih
    · cases hok.symm.trans hstep
      exact hsound
    · cases hok.symm.trans hstep
  | fail _ herror ih =>
    obtain ⟨_, _, hsound, hstep | ⟨hstep, -⟩⟩ := h.step_yields _ ih
    · cases herror.symm.trans hstep
    · cases herror.symm.trans hstep
      exact hsound

end Problem

end Solver

end GameSearch
