import GameSearch.Proofs.Belief.Frontier
import GameSearch.Proofs.Developments

/-!
# Last states of developments

What `lastStates?` and `someLastStates?` answer, and which states the developments end in that start
from the worlds of a belief: those that are ahead of it and show the owner the given view.
-/

namespace GameSearch

namespace Arena

variable {u : Upkeep} {e : Evidence} {origins : List State} {t : State}

/-- A state in which some development ends. -/
def Ends (u : Upkeep) (e : Evidence) (origins : List State) (t : State) : Prop :=
  ∃ s ∈ origins, u.game.Plays e (e.horizon - e.offset).toNat e.offset s t

/-- The developments of some evidence. -/
def developments (u : Upkeep) (e : Evidence) (origins : List State) : List Development :=
  origins.flatMap fun s => u.game.developmentsFrom e (e.horizon - e.offset).toNat e.offset s []

lemma ends_iff : Ends u e origins t ↔
    ∃ d ∈ developments u e origins, d.getLast?.map Step.state = some t := by
  simp only [Ends, developments, List.mem_flatMap]
  constructor
  · rintro ⟨s, hs, hplays⟩
    obtain ⟨d, hd, hlast⟩ := Game.mem_developmentsFrom_last.2 hplays
    exact ⟨d, ⟨s, hs, hd⟩, hlast⟩
  · rintro ⟨d, ⟨s, hs, hd⟩, hlast⟩
    exact ⟨s, hs, Game.mem_developmentsFrom_last.1 ⟨d, hd, hlast⟩⟩

/-- The query for developments lists them in the order in which they are visited. -/
theorem developments?_eq (horigins : u.game.origins? e = .ok origins)
    (hstates : ∀ s ∈ origins, u.states s) :
    u.game.developments? e = .ok (developments u e origins) := by
  have hfold := u.answers.foldDevelopments horigins hstates
    (fun d (ds : List Development) => ForInStep.yield (d :: ds)) []
  rw [Game.visitEach_yield] at hfold
  have hreverse : ∀ (l ds : List Development), l.foldl (fun ds d => d :: ds) ds = l.reverse ++ ds := by
    intro l
    induction l with
    | nil => simp
    | cons d l ih => simp [ih]
  rw [hreverse, List.append_nil] at hfold
  rw [Game.developments?, hfold]
  exact congrArg Except.ok (List.reverse_reverse (developments u e origins))

/-- The set of states with the last one of a development. -/
def withLast (d : Development) (states : StateSet) : StateSet :=
  (d.getLast?.map Step.state).elim states states.insert

lemma mem_withLast {d : Development} {states : StateSet} :
    t ∈ withLast d states ↔ d.getLast?.map Step.state = some t ∨ t ∈ states := by
  unfold withLast
  cases h : d.getLast?.map Step.state with
  | none => simp
  | some s =>
    rw [Option.elim_some, StateSet.mem_insert, Option.some.injEq, @eq_comm _ s]

theorem lastStates?_eq (horigins : u.game.origins? e = .ok origins)
    (hstates : ∀ s ∈ origins, u.states s) :
    ∃ states, lastStates? u.game e = .ok states ∧ ∀ t, t ∈ states ↔ Ends u e origins t := by
  refine ⟨(developments u e origins).foldl (fun states d => withLast d states) ∅, ?_, fun t => ?_⟩
  · refine (u.answers.foldDevelopments horigins hstates _ _).trans ?_
    rw [show (fun d (states : StateSet) => ForInStep.yield
        ((d.getLast?.map Step.state).elim states states.insert)) =
      fun d states => ForInStep.yield (withLast d states) from rfl, Game.visitEach_yield]
    rfl
  · have hfold : ∀ (l : List Development) (states : StateSet),
        t ∈ l.foldl (fun states d => withLast d states) states ↔
          t ∈ states ∨ ∃ d ∈ l, d.getLast?.map Step.state = some t := by
      intro l
      induction l with
      | nil => simp
      | cons d l ih =>
        intro states
        rw [List.foldl_cons, ih, mem_withLast]
        simp only [List.mem_cons, exists_eq_or_imp]
        tauto
    rw [hfold, ends_iff]
    simp

lemma size_withLast_le {d : Development} {states : StateSet} :
    (withLast d states).size ≤ states.size + 1 := by
  unfold withLast
  cases d.getLast?.map Step.state with
  | none => simp
  | some s => exact Std.ExtTreeSet.size_insert_le

/-- Takes the last state of a development, and goes on as long as there are few. -/
def takeLast (limit : Nat) (d : Development) (r : StateSet × Bool) : ForInStep (StateSet × Bool) :=
  if (withLast d r.1).size < limit then .yield (withLast d r.1, true)
  else .done (withLast d r.1, false)

lemma visitEach_takeLast {limit : Nat} {l : List Development} {states : StateSet}
    (hsize : states.size < limit) (hlast : ∀ d ∈ l, ∃ t, d.getLast?.map Step.state = some t) :
    let r := (Game.visitEach (takeLast limit) l (states, true)).value
    (∀ t ∈ states, t ∈ r.1) ∧
      (∀ t ∈ r.1, t ∈ states ∨ ∃ d ∈ l, d.getLast?.map Step.state = some t) ∧ r.1.size ≤ limit ∧
      (l ≠ [] → ∃ t, t ∈ r.1) ∧
      (r.2 = true → ∀ d ∈ l, ∀ t, d.getLast?.map Step.state = some t → t ∈ r.1) := by
  induction l generalizing states with
  | nil => exact ⟨fun t ht => ht, fun t ht => .inl ht, Nat.le_of_lt hsize, by simp, by simp⟩
  | cons d l ih =>
    obtain ⟨s, hs⟩ := hlast d List.mem_cons_self
    have hin : s ∈ withLast d states := mem_withLast.2 (.inl hs)
    by_cases hmore : (withLast d states).size < limit
    · obtain ⟨h1, h2, h3, -, h5⟩ := ih hmore fun d hd => hlast d (List.mem_cons_of_mem _ hd)
      rw [Game.visitEach, takeLast, if_pos hmore]
      refine ⟨fun t ht => h1 t (mem_withLast.2 (.inr ht)), fun t ht => ?_, h3,
        fun _ => ⟨s, h1 s hin⟩, fun hr d' hd' t ht => ?_⟩
      · rcases h2 t ht with ht | ⟨d', hd', ht⟩
        · rcases mem_withLast.1 ht with ht | ht
          · exact .inr ⟨d, List.mem_cons_self, ht⟩
          · exact .inl ht
        · exact .inr ⟨d', List.mem_cons_of_mem _ hd', ht⟩
      · rcases List.mem_cons.1 hd' with rfl | hd'
        · exact h1 t (mem_withLast.2 (.inl ht))
        · exact h5 hr d' hd' t ht
    · rw [Game.visitEach, takeLast, if_neg hmore]
      refine ⟨fun t ht => mem_withLast.2 (.inr ht), fun t ht => ?_, ?_, fun _ => ⟨s, hin⟩,
        fun hr => by cases hr⟩
      · rcases mem_withLast.1 ht with ht | ht
        · exact .inr ⟨d, List.mem_cons_self, ht⟩
        · exact .inl ht
      · have := @size_withLast_le d states
        change (withLast d states).size ≤ limit
        omega

/-- Some of the last states: all of them, unless there are too many. -/
theorem someLastStates?_eq (horigins : u.game.origins? e = .ok origins)
    (hstates : ∀ s ∈ origins, u.states s) {limit : Nat} (hlimit : 0 < limit) :
    ∃ states isComplete, someLastStates? u.game e limit = .ok (states, isComplete) ∧
      (∀ t ∈ states, Ends u e origins t) ∧ states.size ≤ limit ∧
      ((∃ t, Ends u e origins t) → states.isEmpty = false) ∧
      (isComplete = true → ∀ t, Ends u e origins t → t ∈ states) := by
  have hlast : ∀ d ∈ developments u e origins, ∃ t, d.getLast?.map Step.state = some t := by
    intro d hd
    obtain ⟨s, -, hd⟩ := List.mem_flatMap.1 hd
    exact Game.exists_last_of_mem_developmentsFrom hd
  obtain ⟨-, h2, h3, h4, h5⟩ := visitEach_takeLast (show (∅ : StateSet).size < limit by simpa using hlimit) hlast
  refine ⟨_, _, u.answers.foldDevelopments horigins hstates (takeLast limit) (∅, true),
    fun t ht => ?_, h3, fun ht => ?_, fun hr t ht => ?_⟩
  · rcases h2 t ht with ht | ht
    · simp at ht
    · exact ends_iff.2 ht
  · obtain ⟨t, ht⟩ := ht
    obtain ⟨d, hd, -⟩ := ends_iff.1 ht
    exact StateSet.isEmpty_eq_false_iff.2 (h4 (List.ne_nil_of_mem hd))
  · obtain ⟨d, hd, ht⟩ := ends_iff.1 ht
    exact h5 hr d hd t ht

end Arena

/-! ## Developments from the worlds of a belief -/

namespace Place

variable {u : Upkeep} {p : Place} {ply : Int} {view : View} {s t : State}

/-- The evidence that a play was in one of the worlds of a belief, went on by the committed move and
came to a view of the owner. -/
def evidence (p : Place) (ply : Int) (view : View) : Evidence :=
  let e := ((∅ : Evidence).withStates p.depth p.belief.worlds).withView ply p.role view
  match p.move with
  | some move => e.withTurn p.depth (.single p.role move)
  | none => e

lemma evidence_states (x : Int) :
    (p.evidence ply view).states[x]? = if (p.depth : Int) = x then some p.belief.worlds else none := by
  unfold evidence
  cases p.move <;>
    simp [Evidence.withTurn, Evidence.withView, Evidence.withStates, Std.ExtTreeMap.getElem?_insert,
      show (∅ : Evidence).states = ∅ from rfl]

lemma evidence_views (x : Int) : (p.evidence ply view).views[x]? =
    if ply = x then some ((∅ : ByRole View).insert p.role view) else none := by
  unfold evidence
  cases p.move <;>
    simp [Evidence.withTurn, Evidence.withView, Evidence.withStates, Std.ExtTreeMap.getElem?_insert,
      show (∅ : Evidence).views = ∅ from rfl]

/-- The owner is bound by the move that it is committed to, if there is one. -/
def IsBound (p : Place) : Prop := p.move = none ∨ p.belief.isVisible = true

lemma accepts_of_includes {x : Int} {turn : Turn}
    (h : turn.includes ((p.evidence ply view).turns.getD x ∅) = true) (hx : x = p.depth) :
    p.accepts turn = true := by
  unfold accepts
  cases hm : p.move with
  | none => rfl
  | some move =>
    have hturn : (p.evidence ply view).turns.getD x ∅ = .single p.role move := by
      simp [evidence, hm, hx, Evidence.withTurn]
    rw [hturn, Turn.includes_single] at h
    simp [h]

lemma includes_of_accepts {x : Int} {turn : Turn} (hbound : p.IsBound)
    (h : x = p.depth → p.accepts turn = true) :
    turn.includes ((p.evidence ply view).turns.getD x ∅) = true := by
  cases hm : p.move with
  | none =>
    simp [evidence, hm, Evidence.withView, Evidence.withStates,
      show (∅ : Evidence).turns = ∅ from rfl, Turn.includes_empty]
  | some move =>
    have hvisible : p.belief.isVisible = true := by simpa [IsBound, hm] using hbound
    simp only [evidence, hm, Evidence.withTurn, Evidence.withView, Evidence.withStates,
      Std.ExtTreeMap.getD_insert, Std.compare_eq_iff_eq, show (∅ : Evidence).turns = ∅ from rfl,
      Std.ExtTreeMap.getD_empty]
    by_cases hx : (p.depth : Int) = x
    · have haccepts := h hx.symm
      simpa [hx, Turn.includes_single, accepts, hm, hvisible] using haccepts
    · simp [hx, Turn.includes_empty]

lemma mem_evidence_plies {x : Int} : x ∈ (p.evidence ply view).plies ↔ x = p.depth ∨ x = ply := by
  unfold evidence
  cases p.move with
  | none =>
    simp only [Evidence.mem_plies_withView, Evidence.mem_plies_withStates, Evidence.not_mem_plies_empty]
    tauto
  | some move =>
    simp only [Evidence.mem_plies_withTurn, Evidence.mem_plies_withView,
      Evidence.mem_plies_withStates, Evidence.not_mem_plies_empty]
    tauto

lemma evidence_offset (hply : (p.depth : Int) < ply) (hdepth : (p.depth : Int) ≠ 2147483647) :
    (p.evidence ply view).offset = p.depth := by
  refine Evidence.offset_eq (mem_evidence_plies.2 (.inl rfl)) hdepth fun x hx => ?_
  rcases mem_evidence_plies.1 hx with rfl | rfl <;> omega

lemma evidence_horizon (hply : (p.depth : Int) < ply) :
    (p.evidence ply view).horizon = ply := by
  refine Evidence.horizon_eq (mem_evidence_plies.2 (.inr rfl)) (by omega) fun x hx => ?_
  rcases mem_evidence_plies.1 hx with rfl | rfl <;> omega

lemma evidence_origins (hply : (p.depth : Int) < ply) (hdepth : (p.depth : Int) ≠ 2147483647) :
    u.game.origins? (p.evidence ply view) = .ok p.belief.worlds.toList := by
  rw [Game.origins?, evidence_offset hply hdepth, evidence_states, if_pos rfl]

lemma agrees_evidence {x : Int} : u.game.agrees (p.evidence ply view) x s = true ↔
    (x = p.depth → s ∈ p.belief.worlds) ∧ (x = ply → u.game.viewOf s p.role = view) := by
  rw [Game.agrees_iff, evidence_states, evidence_views]
  refine and_congr ?_ ?_
  · by_cases hx : (p.depth : Int) = x
    · simp [hx]
    · simp [hx, Ne.symm hx]
  · by_cases hx : ply = x
    · subst hx
      simp [Std.ExtTreeMap.getElem?_insert]
    · simp [hx, Ne.symm hx]

/-- The states some plies ahead that show the view, if that is the ply of the view. -/
def showing (u : Upkeep) (p : Place) (ply : Int) (view : View) (i : Nat) (t : State) : Prop :=
  p.ahead u i t ∧ ((p.depth : Int) + i = ply → u.game.viewOf t p.role = view)

lemma plays_evidence (hply : (p.depth : Int) < ply) {i : Nat} (hle : (p.depth : Int) + i ≤ ply) :
    ((∃ s ∈ p.belief.worlds, u.game.Plays (p.evidence ply view) i p.depth s t) →
        p.showing u ply view i t) ∧
      (p.IsBound → p.showing u ply view i t →
        ∃ s ∈ p.belief.worlds, u.game.Plays (p.evidence ply view) i p.depth s t) := by
  induction i generalizing t with
  | zero =>
    simp only [Game.Plays, agrees_evidence, showing, ahead, Int.natCast_zero, Int.add_zero]
    constructor
    · rintro ⟨s, -, ⟨hs, -⟩, rfl⟩
      exact ⟨hs trivial, fun heq => by omega⟩
    · rintro - ⟨ht, -⟩
      exact ⟨t, ht, ⟨fun _ => ht, fun heq => by omega⟩, rfl⟩
  | succ i ih =>
    have hlast : ∀ r : State, u.game.agrees (p.evidence ply view) ((p.depth : Int) + i + 1) r = true ↔
        ((p.depth : Int) + (i + 1 : Nat) = ply → u.game.viewOf r p.role = view) := by
      intro r
      rw [agrees_evidence]
      constructor
      · exact fun h heq => h.2 (by push_cast at heq; omega)
      · exact fun h => ⟨fun heq => by omega, fun heq => h (by push_cast; omega)⟩
    have hi : (p.depth : Int) + i < ply := by push_cast at hle; omega
    simp only [Game.plays_succ, hlast]
    constructor
    · rintro ⟨s, hs, r, hr, step, hstep, hincludes, rfl, hview⟩
      have hr := ((ih (Int.le_of_lt hi)).1 ⟨s, hs, hr⟩).1
      refine ⟨⟨r, hr, step, hstep, rfl, fun hzero => ?_⟩, hview⟩
      exact accepts_of_includes hincludes (by omega)
    · rintro hbound ⟨⟨r, hr, step, hstep, rfl, haccepts⟩, hview⟩
      obtain ⟨s, hs, hr⟩ := (ih (Int.le_of_lt hi)).2 hbound ⟨hr, fun heq => by omega⟩
      refine ⟨s, hs, r, hr, step, hstep, ?_, rfl, hview⟩
      exact includes_of_accepts hbound fun heq => haccepts (by omega)

lemma ends_evidence_iff (hply : (p.depth : Int) < ply) (hdepth : (p.depth : Int) ≠ 2147483647) :
    Arena.Ends u (p.evidence ply view) p.belief.worlds.toList t ↔
      ∃ s ∈ p.belief.worlds,
        u.game.Plays (p.evidence ply view) (ply - p.depth).toNat p.depth s t := by
  rw [Arena.Ends, evidence_horizon hply, evidence_offset hply hdepth]
  simp only [Std.ExtTreeSet.mem_toList]

/-- The states at a ply that follow the worlds of a belief and show its owner a view. -/
def wanted (u : Upkeep) (p : Place) (ply : Int) (view : View) (t : State) : Prop :=
  p.ahead u (ply - p.depth).toNat t ∧ u.game.viewOf t p.role = view

/-- The developments from the worlds of a belief end in states ahead that show the view. -/
theorem wanted_of_ends (hply : (p.depth : Int) < ply) (hdepth : (p.depth : Int) ≠ 2147483647)
    (h : Arena.Ends u (p.evidence ply view) p.belief.worlds.toList t) : p.wanted u ply view t := by
  have hshowing := (plays_evidence hply (by omega)).1 ((ends_evidence_iff hply hdepth).1 h)
  exact ⟨hshowing.1, hshowing.2 (by omega)⟩

/-- They end in all of these states if the owner is bound by its move. -/
theorem ends_evidence (hply : (p.depth : Int) < ply) (hdepth : (p.depth : Int) ≠ 2147483647)
    (hbound : p.IsBound) :
    Arena.Ends u (p.evidence ply view) p.belief.worlds.toList t ↔ p.wanted u ply view t := by
  refine ⟨wanted_of_ends hply hdepth, fun h => (ends_evidence_iff hply hdepth).2 ?_⟩
  exact (plays_evidence hply (by omega)).2 hbound ⟨h.1, fun _ => h.2⟩

end Place

end GameSearch
