import Mathlib.Tactic.Ring
import GameSearch.Game.Development
import GameSearch.Proofs.Transitions

/-!
# Developments as a list

`Game.foldDevelopments` visits developments without listing them.  `Game.developmentsFrom` is the list
of those that it visits from a state, and `AnswersOn.foldDevelopments` says that the visit is a fold
over these lists.  `Game.Plays` relates the first and the last states of developments.
-/

namespace GameSearch

namespace Turn

variable {turn : Turn} {role : Role} {move : Move}

lemma includes_single : turn.includes (single role move) = turn.contains role move := by
  simp [includes, single]

lemma includes_empty : turn.includes ∅ = true := rfl

end Turn

namespace Game

variable (game : Game)

/-- Whether a state agrees with what is known about its ply. -/
def agrees (e : Evidence) (ply : Int) (s : State) : Bool :=
  !((e.states[ply]?).any fun states => !states.contains s) &&
    match e.views[ply]? with
    | none => true
    | some views => views.toList.all fun (role, view) => game.viewOf s role = view

/-- The developments that go on from a state, `count` plies before the last one. -/
def developmentsFrom (e : Evidence) : (count : Nat) → (ply : Int) → State → (earlier : List Step) →
    List Development
  | 0, ply, s, earlier => if game.agrees e ply s then [(⟨s, none⟩ :: earlier).reverse] else []
  | count + 1, ply, s, earlier =>
    if game.agrees e ply s then
      ((game.transitions s).filter fun step => step.1.includes (e.turns.getD ply ∅)).flatMap
        fun step => developmentsFrom e count (ply + 1) step.2 (⟨s, some step.1⟩ :: earlier)
    else []

/-- A development leads from one state to another one. -/
def Plays (e : Evidence) : (count : Nat) → (ply : Int) → State → State → Prop
  | 0, ply, s, t => game.agrees e ply s = true ∧ s = t
  | count + 1, ply, s, t => game.agrees e ply s = true ∧ ∃ step ∈ game.transitions s,
      step.1.includes (e.turns.getD ply ∅) = true ∧ Plays e count (ply + 1) step.2 t

/-- Some evidence, and that the play began in the initial state. -/
def fromStart (e : Evidence) : Evidence := e.withStates 0 {game.start}

/-- Visits the members of a list until the visitor has seen enough. -/
def visitEach {α β : Type} (visit : α → β → ForInStep β) : List α → β → ForInStep β
  | [], b => .yield b
  | a :: rest, b =>
    match visit a b with
    | .done b => .done b
    | .yield b => visitEach visit rest b

variable {game} {states : State → Prop} {e : Evidence} {α β : Type} {s t : State} {ply : Int}
  {count : Nat} {earlier : List Step}

lemma agrees_iff : game.agrees e ply s = true ↔
    (∀ possible, e.states[ply]? = some possible → s ∈ possible) ∧
      ∀ views, e.views[ply]? = some views → ∀ role view, views[role]? = some view →
        game.viewOf s role = view := by
  unfold agrees
  rw [Bool.and_eq_true]
  refine and_congr ?_ ?_
  · cases e.states[ply]? with
    | none => simp
    | some possible =>
      simp only [Option.any_some, Bool.not_not, Option.some.injEq, forall_eq']
      exact Iff.rfl
  · cases e.views[ply]? with
    | none => simp
    | some views =>
      simp only [List.all_eq_true, decide_eq_true_eq, Option.some.injEq, forall_eq']
      constructor
      · exact fun h role view hview =>
          h (role, view) (Std.ExtTreeMap.mem_toList_iff_getElem?_eq_some.2 hview)
      · exact fun h x hx => h x.1 x.2 (Std.ExtTreeMap.mem_toList_iff_getElem?_eq_some.1 hx)

lemma visitEach_append (visit : α → β → ForInStep β) (l l' : List α) (b : β) :
    visitEach visit (l ++ l') b =
      match visitEach visit l b with
      | .done b => .done b
      | .yield b => visitEach visit l' b := by
  induction l generalizing b with
  | nil => rfl
  | cons a l ih =>
    simp only [List.cons_append, visitEach]
    cases visit a b with
    | done b => rfl
    | yield b => exact ih b

/-- If each visit is a visit of a list, then a visit of all is one of the lists in a row. -/
lemma visitAll_eq {γ : Type} {visit : α → β → Except Fault (ForInStep β)}
    {each : γ → β → ForInStep β} {f : α → List γ} {l : List α}
    (h : ∀ a ∈ l, ∀ b, visit a b = .ok (visitEach each (f a) b)) (b : β) :
    visitAll visit l b = .ok (visitEach each (l.flatMap f) b) := by
  induction l generalizing b with
  | nil => rfl
  | cons a l ih =>
    rw [List.flatMap_cons, visitEach_append, visitAll, h a List.mem_cons_self]
    cases visitEach each (f a) b with
    | done b => rfl
    | yield b => exact ih (fun a ha => h a (List.mem_cons_of_mem _ ha)) b

lemma visitEach_yield (f : α → β → β) (l : List α) (b : β) :
    visitEach (fun a b => .yield (f a b)) l b = .yield (l.foldl (fun b a => f a b) b) := by
  induction l generalizing b with
  | nil => rfl
  | cons a l ih => exact ih (f a b)

lemma AnswersOn.agrees? (h : game.AnswersOn states) (hs : states s) (e : Evidence) (ply : Int) :
    game.agrees? e ply s = .ok (game.agrees e ply s) := by
  obtain ⟨views, hviews⟩ := h.sees s hs
  unfold Game.agrees? agrees
  cases (e.states[ply]?).any fun states => !states.contains s with
  | true => rfl
  | false =>
    cases e.views[ply]? with
    | none => rfl
    | some known =>
      simp only [hviews, viewOf_of_sees hviews]
      rfl

lemma AnswersOn.visitFrom (h : game.AnswersOn states) (hs : states s)
    (visit : Development → β → ForInStep β) (b : β) :
    game.visitFrom e visit count ply s earlier b =
      .ok (visitEach visit (game.developmentsFrom e count ply s earlier) b) := by
  induction count generalizing ply s earlier b with
  | zero =>
    rw [Game.visitFrom, h.agrees? hs, developmentsFrom]
    cases game.agrees e ply s with
    | false => rfl
    | true =>
      change Except.ok (visit _ b) = _
      simp only [if_true, visitEach]
      cases visit (⟨s, none⟩ :: earlier).reverse b <;> rfl
  | succ count ih =>
    rw [Game.visitFrom, h.agrees? hs, developmentsFrom]
    cases game.agrees e ply s with
    | false => rfl
    | true =>
      rw [h.successors? hs]
      refine visitAll_eq (fun step hstep b => ?_) b
      exact ih (h.closed s hs step (List.mem_filter.1 hstep).1) b

/-- A fold over developments is a fold over a list of them. -/
theorem AnswersOn.foldDevelopments (h : game.AnswersOn states) {origins : List State}
    (horigins : game.origins? e = .ok origins) (hs : ∀ s ∈ origins, states s)
    (visit : Development → β → ForInStep β) (b : β) :
    game.foldDevelopments e visit b = .ok (visitEach visit (origins.flatMap fun s =>
      game.developmentsFrom e (e.horizon - e.offset).toNat e.offset s []) b).value := by
  let count := (e.horizon - e.offset).toNat
  have hvisit : visitAll (fun s b => game.visitFrom e visit count e.offset s [] b) origins b =
      .ok (visitEach visit (origins.flatMap fun s =>
        game.developmentsFrom e count e.offset s []) b) :=
    visitAll_eq (fun s hs' b => h.visitFrom (hs s hs') visit b) b
  simp only [count] at hvisit
  simp only [Game.foldDevelopments, horigins, bind, Except.bind, hvisit]
  rfl

/-- The developments from a state end in the states that it leads to. -/
theorem mem_developmentsFrom_last :
    (∃ d ∈ game.developmentsFrom e count ply s earlier, d.getLast?.map Step.state = some t) ↔
      game.Plays e count ply s t := by
  induction count generalizing ply s earlier with
  | zero =>
    rw [developmentsFrom, Plays]
    cases game.agrees e ply s with
    | false => simp
    | true => simp
  | succ count ih =>
    rw [developmentsFrom, Plays]
    cases game.agrees e ply s with
    | false => simp
    | true =>
      simp only [if_true, List.mem_flatMap, List.mem_filter, true_and]
      constructor
      · rintro ⟨d, ⟨step, ⟨hstep, hincludes⟩, hd⟩, hlast⟩
        exact ⟨step, hstep, hincludes, ih.1 ⟨d, hd, hlast⟩⟩
      · rintro ⟨step, hstep, hincludes, hplays⟩
        obtain ⟨d, hd, hlast⟩ := ih.2 hplays
        exact ⟨d, ⟨step, ⟨hstep, hincludes⟩, hd⟩, hlast⟩

lemma exists_last_of_mem_developmentsFrom {d : Development}
    (h : d ∈ game.developmentsFrom e count ply s earlier) :
    ∃ t, d.getLast?.map Step.state = some t := by
  induction count generalizing ply s earlier with
  | zero =>
    rw [developmentsFrom] at h
    split at h
    · rw [List.mem_singleton.1 h]
      exact ⟨s, by simp⟩
    · cases h
  | succ count ih =>
    rw [developmentsFrom] at h
    split at h
    · obtain ⟨step, -, hd⟩ := List.mem_flatMap.1 h
      exact ih hd
    · cases h

lemma Plays.agrees (h : game.Plays e count ply s t) : game.agrees e ply s = true := by
  cases count with
  | zero => exact h.1
  | succ count => exact h.1

/-- A development can be taken apart at its last step as well as at its first. -/
lemma plays_succ : game.Plays e (count + 1) ply s t ↔ ∃ r, game.Plays e count ply s r ∧
    ∃ step ∈ game.transitions r, step.1.includes (e.turns.getD (ply + count) ∅) = true ∧ step.2 = t ∧
      game.agrees e (ply + count + 1) t = true := by
  induction count generalizing ply s with
  | zero =>
    simp only [Plays, Int.natCast_zero, Int.add_zero]
    constructor
    · rintro ⟨hs, step, hstep, hincludes, ht, rfl⟩
      exact ⟨s, ⟨hs, rfl⟩, step, hstep, hincludes, rfl, ht⟩
    · rintro ⟨_, ⟨hs, rfl⟩, step, hstep, hincludes, rfl, ht⟩
      exact ⟨hs, step, hstep, hincludes, ht, rfl⟩
  | succ count ih =>
    have hply : ply + 1 + (count : Int) = ply + (count + 1 : Nat) := by push_cast; ring
    rw [Plays]
    constructor
    · rintro ⟨hs, step, hstep, hincludes, hplays⟩
      obtain ⟨r, hr, hlast⟩ := ih.1 hplays
      rw [hply] at hlast
      exact ⟨r, ⟨hs, step, hstep, hincludes, hr⟩, hlast⟩
    · rintro ⟨r, ⟨hs, step, hstep, hincludes, hr⟩, hlast⟩
      rw [← hply] at hlast
      exact ⟨hs, step, hstep, hincludes, ih.2 ⟨r, hr, hlast⟩⟩

lemma Plays.after (h : game.Plays e count ply s t) : game.After count s t := by
  induction count generalizing ply s with
  | zero => exact h.2
  | succ count ih =>
    obtain ⟨-, step, hstep, -, h⟩ := h
    exact ⟨step, hstep, ih h⟩

lemma Plays.agrees_last (h : game.Plays e count ply s t) : game.agrees e (ply + count) t = true := by
  induction count generalizing ply s with
  | zero =>
    obtain ⟨hs, rfl⟩ := h
    simpa using hs
  | succ count ih =>
    obtain ⟨-, step, -, -, h⟩ := h
    rw [show ply + (count + 1 : Nat) = ply + 1 + count by push_cast; ring]
    exact ih h

/-- A development passes through a state at each ply on the way. -/
lemma Plays.split {i j : Nat} (h : game.Plays e (i + j) ply s t) :
    ∃ r, game.Plays e i ply s r ∧ game.Plays e j (ply + i) r t := by
  induction i generalizing ply s with
  | zero => exact ⟨s, ⟨h.agrees, rfl⟩, by simpa using h⟩
  | succ i ih =>
    rw [Nat.add_right_comm, Plays] at h
    obtain ⟨hs, step, hstep, hincludes, h⟩ := h
    obtain ⟨r, hr, hlast⟩ := ih h
    refine ⟨r, ⟨hs, step, hstep, hincludes, hr⟩, ?_⟩
    convert hlast using 1
    push_cast
    ring

lemma AnswersOn.plays (h : game.AnswersOn states) (hs : states s) (hplays : game.Plays e count ply s t) :
    states t := by
  induction count generalizing ply s with
  | zero => exact hplays.2 ▸ hs
  | succ count ih =>
    obtain ⟨-, step, hstep, -, hplays⟩ := hplays
    exact ih (h.closed s hs step hstep) hplays

end Game

end GameSearch
