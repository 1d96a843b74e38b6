import Mathlib.Algebra.BigOperators.Ring.Finset
import Mathlib.Algebra.Module.NatInt
import GameSearch.Proofs.Options
import GameSearch.Proofs.Solver.Correctness

/-!
# What chance is worth to a solver

Whenever the value of a state in the hands of chance is known, so are those of its successors, and it is the
mean of these.  Successors count once, however many moves lead to them: the value is what can be expected of
a random move only if equally many moves lead to each successor.
-/

namespace GameSearch

namespace Game

variable {game : Game} {s : State} {mover : Role}

/-- The successors of a state that is in the hands of one role are what its moves lead to. -/
lemma forall₂_successors? {next : List (Turn × State)} (h : game.successors? s = .ok next)
    (hgoes : game.isTerminal s = .ok false) (hmover : s.controllers.toList = [mover]) :
    ∃ moves, game.moves? s mover = .ok moves ∧ moves ≠ [] ∧
      List.Forall₂ (fun m t => game.next? s (.single mover m) = .ok t) moves (next.map Prod.snd) := by
  obtain ⟨control, legal, hcontrol, hlegal, hne, -⟩ := exists_legal_of_successors? h hgoes
  have hroles : control.toList = [mover] := by
    rw [← hmover, State.controllers, hcontrol]
    rfl
  have hmoves : legal.getD mover [] ≠ [] := hne mover (hroles ▸ List.mem_cons_self)
  rw [successors?_of_single hgoes hcontrol hroles hlegal hmoves] at h
  refine ⟨legal.getD mover [], by rw [moves?, hlegal]; rfl, hmoves, ?_⟩
  rw [List.forall₂_map_right_iff]
  refine ((List.forall₂_and_left _ _).2 ⟨fun m hm => hm, forall₂_of_mapM h⟩).imp fun m step hstep => ?_
  obtain ⟨hm, hrun⟩ := hstep
  obtain ⟨t, ht, hrun⟩ := bind_eq_ok.1 hrun
  cases hrun
  have hplays : Legal legal control.toList [⟨mover, m⟩] := hroles ▸ .cons ⟨rfl, hm⟩ .nil
  exact (next?_of_legal hcontrol hlegal hplays).trans ht

end Game

namespace Solver

variable {ε : Type} {p : Problem ℚ ε} {solver solver' : Solver ℚ} {host : ε} {b : Bounds ℚ} {s t : State}
  {entries entries' entries'' : Entries ℚ} {x low high : ℚ}

/-- The mean of what some states are worth. -/
def mean (v : State → ℚ) (states : List State) : ℚ := (states.map v).sum / states.length

lemma mean_congr {v w : State → ℚ} {states : List State} (h : ∀ t ∈ states, v t = w t) :
    mean v states = mean w states := by
  rw [mean, mean, List.map_congr_left h]

/-- States that come up equally often need be counted only once. -/
lemma mean_eraseDups {v : State → ℚ} {states : List State}
    (h : ∀ t ∈ states, ∀ t' ∈ states, states.count t = states.count t') :
    mean v states.eraseDups = mean v states := by
  by_cases hempty : states = []
  · rw [hempty]
    rfl
  obtain ⟨first, hfirst⟩ := List.exists_mem_of_ne_nil states hempty
  have hdistinct : states.eraseDups.toFinset = states.toFinset := by
    ext t
    rw [List.mem_toFinset, List.mem_toFinset, List.mem_eraseDups]
  have hcount : ∀ t ∈ states.toFinset, states.count t = states.count first := fun t ht =>
    h t (List.mem_toFinset.1 ht) first hfirst
  have hsum : (states.map v).sum = states.count first * (states.eraseDups.map v).sum := by
    rw [Finset.sum_list_map_count, ← List.sum_toFinset v (nodup_eraseDups states), hdistinct, Finset.mul_sum]
    exact Finset.sum_congr rfl fun t ht => by rw [hcount t ht, nsmul_eq_mul]
  have hlength : states.length = states.count first * states.eraseDups.length := by
    rw [← List.toFinset_card_of_nodup (nodup_eraseDups states), hdistinct,
      ← List.sum_toFinset_count_eq_length, Finset.sum_congr rfl hcount, Finset.sum_const, smul_eq_mul, mul_comm]
  have hpos : (states.count first : ℚ) ≠ 0 := Nat.cast_ne_zero.2 (List.count_pos_iff.2 hfirst).ne'
  rw [mean, mean, hsum, hlength, Nat.cast_mul, mul_div_mul_left _ _ hpos]

namespace Problem

/-- A number is the mean of the values of the distinct successors of a state, which are all known. -/
def IsMean (p : Problem ℚ ε) (entries : Entries ℚ) (s : State) (x : ℚ) : Prop :=
  ∃ children, p.children? s = .ok children ∧
    ∃ v : State → ℚ, (∀ c ∈ children, entries.value? c = some (v c)) ∧ x = mean v children

/-- The known values of states in the hands of chance are means. -/
def Explained (p : Problem ℚ ε) (entries : Entries ℚ) : Prop :=
  ∀ s x, entries.value? s = some x → p.game.isTerminal s = .ok false → s.controllers.toList = [chance] →
    p.IsMean entries s x

/-- What is known stays known, and what is explained stays explained. -/
structure Explains (p : Problem ℚ ε) (entries entries' : Entries ℚ) : Prop where
  keeps : ∀ s x, entries.value? s = some x → entries'.value? s = some x
  explained : p.Explained entries → p.Explained entries'

lemma Explains.refl : p.Explains entries entries := ⟨fun _ _ h => h, fun h => h⟩

lemma Explains.trans (h : p.Explains entries entries') (h' : p.Explains entries' entries'') :
    p.Explains entries entries'' :=
  ⟨fun s x hx => h'.keeps s x (h.keeps s x hx), fun hexplained => h'.explained (h.explained hexplained)⟩

/-! ## New bounds -/

lemma value?_insert_of_ne (hne : t ≠ s) : Entries.value? (entries.insert s b) t = entries.value? t := by
  rw [Entries.value?, Entries.value?, Std.HashMap.getElem?_insert, if_neg (by simpa using Ne.symm hne)]

lemma value?_insert_self (h : Entries.value? (entries.insert s b) s = some x) : b.lower = b.upper ∧ b.lower = x := by
  obtain ⟨b', hb', hexact⟩ := value?_eq_some.1 h
  rw [Std.HashMap.getElem?_insert_self, Option.some_inj] at hb'
  exact hb' ▸ hexact

lemma IsMean.mono (h : p.IsMean entries s x)
    (hkeeps : ∀ t y, entries.value? t = some y → entries'.value? t = some y) : p.IsMean entries' s x := by
  obtain ⟨children, hchildren, v, hv, hx⟩ := h
  exact ⟨children, hchildren, v, fun c hc => hkeeps c _ (hv c hc), hx⟩

/-- The value of a state becomes known, or does not. -/
lemma explains_insert (hopen : entries.value? s = none) (hmean : p.game.isTerminal s = .ok false →
    s.controllers.toList = [chance] → b.lower = b.upper → p.IsMean entries s b.lower) :
    p.Explains entries (entries.insert s b) := by
  have hkeeps : ∀ t x, entries.value? t = some x → Entries.value? (entries.insert s b) t = some x := by
    intro t x ht
    have hne : t ≠ s := by
      rintro rfl
      cases hopen.symm.trans ht
    rwa [value?_insert_of_ne hne]
  refine ⟨hkeeps, fun hexplained t x ht hgoes hcontrol => IsMean.mono ?_ hkeeps⟩
  by_cases hts : t = s
  · subst hts
    obtain ⟨hexact, rfl⟩ := value?_insert_self ht
    exact hmean hgoes hcontrol hexact
  · rw [value?_insert_of_ne hts] at ht
    exact hexplained t x ht hgoes hcontrol

/-- The bounds of a state are narrowed, even if they become inconsistent. -/
lemma entries_tighten : ((p.tighten s b).after ⟨solver, host⟩).own.entries =
    solver.entries.insert s (p.narrowed solver.entries s b) := by
  rw [tighten, Action.after_bind_of_ok Hosted.read_run, Action.after_bind_of_ok (Hosted.change_run _)]
  simp only [narrowed, Scalar.larger_rat, Scalar.smaller_rat]
  split <;> rfl

/-- A state whose value is not known gets bounds, which are a mean if it is in the hands of chance. -/
lemma explains_tighten (hopen : solver.value? s = none) (hmean : p.game.isTerminal s = .ok false →
    s.controllers.toList = [chance] → b.lower = b.upper ∧ p.IsMean solver.entries s b.lower) :
    p.Explains solver.entries ((p.tighten s b).after ⟨solver, host⟩).own.entries := by
  rw [entries_tighten]
  refine explains_insert hopen fun hgoes hcontrol hexact => ?_
  obtain ⟨hsame, hmean⟩ := hmean hgoes hcontrol
  suffices hlower : (p.narrowed solver.entries s b).lower = b.lower by rwa [hlower]
  refine le_antisymm ?_ (le_max_right _ _)
  rw [hexact, hsame]
  exact min_le_right _ _

lemma explains_settleTerminal (hopen : solver.value? s = none) (hterminal : p.game.isTerminal s = .ok true) :
    p.Explains solver.entries ((p.settleTerminal s).after ⟨solver, host⟩).own.entries := by
  rw [settleTerminal]
  refine Action.after_bind (P := fun y : Hosted (Solver ℚ) ε => p.Explains solver.entries y.own.entries) ?_
    fun x y hrun _ => ?_
  · rw [Hosted.own_after_onHost]
    exact .refl
  · obtain ⟨host', -, rfl⟩ := Hosted.onHost_eq_ok.1 hrun
    refine explains_tighten hopen fun hgoes => ?_
    cases hterminal.symm.trans hgoes

lemma value?_eq_none_of_answers (hopen : ¬answers entries[s]? low high = true) : entries.value? s = none := by
  rw [Option.eq_none_iff_forall_ne_some]
  intro x hx
  obtain ⟨b, hb, hexact, -⟩ := value?_eq_some.1 hx
  exact hopen (answers_iff.2 ⟨b, hb, .inl hexact⟩)

/-- The solver after an action knows what is known, and explains it. -/
def Advances (p : Problem ℚ ε) (solver : Solver ℚ) (y : Hosted (Solver ℚ) ε) : Prop :=
  p.Explains solver.entries y.own.entries

lemma advances_of_eq {y : Hosted (Solver ℚ) ε} (h : y.own.entries = solver.entries) : p.Advances solver y := by
  rw [Advances, h]
  exact .refl

lemma Advances.of_eq {y : Hosted (Solver ℚ) ε} (h : p.Advances solver' y)
    (heq : solver'.entries = solver.entries) : p.Advances solver y := by
  rwa [Advances, ← heq]

/-- Of a state whose value is known already nothing is changed, and chance is averaged. -/
lemma advances_search : p.Advances solver ((p.search s low high).after ⟨solver, host⟩) := by
  rw [search, Action.after_bind_of_ok Hosted.read_run]
  split
  · exact advances_of_eq rfl
  rename_i hanswers
  have hopen := value?_eq_none_of_answers hanswers
  refine Action.after_lift_bind (advances_of_eq rfl) fun isTerminal hterminal => ?_
  split
  · rename_i hover
    subst hover
    exact Action.after_bind (explains_settleTerminal hopen hterminal) fun _ _ _ h => h
  rename_i hgoes
  refine Action.after_lift_bind (advances_of_eq rfl) fun children hchildren => ?_
  rw [Action.after_bind_of_ok Hosted.read_run]
  refine Action.after_lift_bind (advances_of_eq rfl) fun control hcontrol => ?_
  split
  · rename_i b hjudge
    refine explains_tighten hopen fun _ hchance => ?_
    rw [State.controllers, hcontrol] at hchance
    change control.toList = [chance] at hchance
    rw [judge, if_pos hchance] at hjudge
    obtain ⟨v, hv, rfl⟩ := average_known hjudge
    exact ⟨rfl, children, hchildren, v, hv, rfl⟩
  · exact advances_of_eq rfl

/-- A playout goes no further than to a state whose value is known or that is terminal. -/
lemma advances_unless_stopped {before : Option State} {rest : Action (Hosted (Solver ℚ) ε) (Option State)}
    (hrest : p.Advances solver (rest.after ⟨solver, host⟩)) : p.Advances solver (Action.after (do
      if ((← Hosted.read).value? s).isSome then return before
      if ← p.game.isTerminal s then
        p.settleTerminal s
        return before
      rest) ⟨solver, host⟩) := by
  rw [Action.after_bind_of_ok Hosted.read_run]
  split
  · exact advances_of_eq rfl
  rename_i hunknown
  have hopen : solver.value? s = none := by simpa using hunknown
  refine Action.after_lift_bind (advances_of_eq rfl) fun isTerminal hterminal => ?_
  split
  · rename_i hover
    subst hover
    exact Action.after_bind (explains_settleTerminal hopen hterminal) fun _ _ _ h => h
  · exact hrest

lemma advances_restart : p.Advances solver (p.restart.after ⟨solver, host⟩) := by
  rw [restart, Action.after_bind_of_ok Hosted.read_run]
  split
  · exact advances_of_eq rfl
  · split
    · exact advances_of_eq rfl
    · exact advances_of_eq rfl

lemma advances_unless_empty {rest : Action (Hosted (Solver ℚ) ε) Unit}
    (hrest : ∀ y, p.Advances solver y → p.Advances solver (rest.after y)) : p.Advances solver (Action.after (do
      if (← Hosted.read).queue.isEmpty then p.restart
      rest) ⟨solver, host⟩) := by
  rw [Action.after_bind_of_ok Hosted.read_run]
  split
  · exact Action.after_bind advances_restart fun _ y _ h => hrest y h
  · exact hrest _ (advances_of_eq rfl)

variable [Dice ε]

lemma advances_playToKnown {left : ℕ} {before : Option State} :
    p.Advances solver ((p.playToKnown left s before).after ⟨solver, host⟩) := by
  induction left generalizing s before host with
  | zero =>
    rw [playToKnown]
    exact advances_unless_stopped (advances_of_eq rfl)
  | succ left ih =>
    rw [playToKnown]
    refine advances_unless_stopped ?_
    refine Action.after_bind (advances_of_eq (by rw [Hosted.own_after_onHost])) fun turn y hrun _ => ?_
    obtain ⟨host', -, rfl⟩ := Hosted.onHost_eq_ok.1 hrun
    exact Action.after_lift_bind (advances_of_eq rfl) fun t _ => ih

lemma advances_plant : p.Advances solver ((p.plant s).after ⟨solver, host⟩) := by
  rw [plant, Action.after_bind_of_ok Hosted.read_run]
  split
  · exact advances_of_eq rfl
  rw [Action.after_bind_of_ok (Hosted.change_run _)]
  refine Action.after_bind (advances_playToKnown.of_eq rfl) fun last y _ hy => ?_
  have hseeds : ∀ y : Hosted (Solver ℚ) ε, p.Advances solver y → p.Advances solver (Action.after (do
      let children ← p.children? s
      let seeded := (← Hosted.read).seeded
      postpone ((children.filter fun c => !seeded.contains c).map .seed)) y) := by
    intro y hy
    refine Action.after_lift_bind hy fun children _ => ?_
    rw [Action.after_bind_of_ok Hosted.read_run]
    exact hy
  split
  · exact Action.after_bind hy fun _ y _ h => hseeds y h
  · exact hseeds y hy

lemma advances_perform {task : Task ℚ} : p.Advances solver ((p.perform task).after ⟨solver, host⟩) := by
  cases task with
  | seed s => exact advances_plant
  | search s low high => exact advances_search

/-- Whatever a step does and even if it fails, what is known stays known. -/
theorem advances_step : p.Advances solver (p.step.after ⟨solver, host⟩) := by
  rw [step, Action.after_bind_of_ok Hosted.read_run]
  split
  · exact advances_of_eq rfl
  refine advances_unless_empty fun y hy => ?_
  rw [Action.after_bind_of_ok Hosted.read_run]
  split
  · exact hy
  · rw [Action.after_bind_of_ok (Hosted.change_run _)]
    refine Action.after_bind ?_ fun _ z _ hz => ?_
    · exact Explains.trans hy (advances_perform.of_eq rfl)
    · rw [Action.after_bind_of_ok Hosted.read_run]
      split
      · exact hz
      · exact hz

/-! ## At every moment -/

lemma Run.explained (hrun : p.Run solver) : p.Explained solver.entries := by
  induction hrun with
  | start =>
    intro s x hx
    simp [Entries.value?] at hx
  | step _ hok ih =>
    have hadvances := Action.after_of_ok hok ▸ advances_step
    exact Explains.explained hadvances ih
  | fail _ herror ih =>
    have hadvances := Action.after_of_error herror ▸ advances_step
    exact Explains.explained hadvances ih

/-- If the value of a state in the hands of chance is known, so are those of the states that the moves of
chance lead to, and it is the mean of these, each of which counts once.  That is what can be expected of a
random move if equally many moves lead to each of these states. -/
theorem Run.averages_chance (hrun : p.Run solver) (hknown : solver.value? s = some x)
    (hgoes : p.game.isTerminal s = .ok false) (hcontrol : s.controllers.toList = [chance]) :
    ∃ moves outcomes, p.game.moves? s chance = .ok moves ∧ moves ≠ [] ∧
      List.Forall₂ (fun m t => p.game.next? s (.single chance m) = .ok t) moves outcomes ∧
      ∃ v : State → ℚ, (∀ t ∈ outcomes, solver.value? t = some (v t)) ∧ x = mean v outcomes.eraseDups ∧
        ((∀ t ∈ outcomes, ∀ t' ∈ outcomes, outcomes.count t = outcomes.count t') → x = mean v outcomes) := by
  obtain ⟨children, hchildren, v, hv, rfl⟩ := hrun.explained s x hknown hgoes hcontrol
  obtain ⟨next, hnext, hchildren⟩ := bind_eq_ok.1 hchildren
  cases hchildren
  obtain ⟨moves, hmoves, hne, houtcomes⟩ := Game.forall₂_successors? hnext hgoes hcontrol
  exact ⟨moves, next.map Prod.snd, hmoves, hne, houtcomes, v, fun t ht => hv t (List.mem_eraseDups.2 ht), rfl,
    mean_eraseDups⟩

end Problem

end Solver

/-! ## A lottery -/

namespace Lottery

open Solver

/-- The one who hopes to win. -/
def player : Role := .symbol "hopeful"

def first : Move := .symbol "first"

def second : Move := .symbol "second"

def third : Move := .symbol "third"

def fourth : Move := .symbol "fourth"

/-- A ticket is going to be drawn. -/
def drawing : State := .ofList [controlOf chance]

def won : State := .ofList [.symbol "won"]

def lost : State := .ofList [.symbol "lost"]

/-- The first two tickets win. -/
def outcome (ticket : Move) : State := if ticket = first ∨ ticket = second then won else lost

/-- One of some tickets is drawn. -/
def game (tickets : List Move) : Game where
  roles := [player, chance]
  start := drawing
  sees _ := .ok ∅
  legal _ := .ok ((∅ : ByRole (List Move)).insert chance tickets)
  goals _ := .ok ∅
  isTerminal s := .ok (s ≠ drawing)
  play _ turn := .ok (((turn.find? chance).map outcome).getD lost)

/-- What the player gets. -/
def gain (s : State) : ℚ := if s = won then 1 else 0

/-- What a lottery is worth to the player. -/
def problem (tickets : List Move) (ε : Type) : Problem ℚ ε where
  game := game tickets
  role := player
  evaluator := .ofEach fun _ s _ => pure (gain s)
  range := ⟨0, 1⟩
  allies := .ofList [player]
  origin := drawing
  maxPlies := 1

variable {tickets : List Move} {ε : Type}

lemma control?_drawing : drawing.control? = .ok drawing.controllers := rfl

lemma controllers_drawing : drawing.controllers.toList = [chance] := rfl

lemma legal_drawing :
    (game tickets).legal drawing = .ok ((∅ : ByRole (List Move)).insert chance tickets) := rfl

lemma getD_legal : (((∅ : ByRole (List Move)).insert chance tickets).getD chance []) = tickets := by simp

lemma outcome_ne_drawing (m : Move) : outcome m ≠ drawing := by
  rw [outcome]
  split <;> decide

lemma play_drawing (m : Move) : (game tickets).play drawing (.single chance m) = .ok (outcome m) := rfl

/-- Each of the tickets can be drawn. -/
lemma next?_drawing {m : Move} (hm : m ∈ tickets) :
    (game tickets).next? drawing (.single chance m) = .ok (outcome m) := by
  have hlegal : Game.Legal (((∅ : ByRole (List Move)).insert chance tickets)) drawing.controllers.toList
      [⟨chance, m⟩] := controllers_drawing ▸ .cons ⟨rfl, getD_legal.symm ▸ hm⟩ .nil
  exact (Game.next?_of_legal control?_drawing legal_drawing hlegal).trans (play_drawing m)

lemma exists_successors? (hne : tickets ≠ []) (s : State) : ∃ next, (game tickets).successors? s = .ok next ∧
    ∀ step ∈ next, s = drawing ∧ step.2 ≠ drawing := by
  by_cases hs : s = drawing
  · subst hs
    obtain ⟨next, hnext, hsteps⟩ := Game.exists_successors?_of_single rfl control?_drawing controllers_drawing
      legal_drawing (by rwa [getD_legal]) fun m _ => ⟨_, play_drawing m⟩
    refine ⟨next, hnext, fun step hstep => ⟨rfl, ?_⟩⟩
    obtain ⟨m, -, -, hplay⟩ := hsteps step hstep
    rw [← Except.ok.inj ((play_drawing m).symm.trans hplay)]
    exact outcome_ne_drawing m
  · exact ⟨[], Game.successors?_of_isTerminal (by simp [game, hs]), by simp⟩

/-- The number of plies that can still be played. -/
def left (s : State) : ℕ := if s = drawing then 1 else 0

lemma left_lt (hne : tickets ≠ []) (s t : State) (h : (problem tickets ε).Follows t s) : left t < left s := by
  obtain ⟨turn, h⟩ := Problem.mem_successors.1 h
  obtain ⟨next, hnext, hsteps⟩ := exists_successors? hne s
  change (turn, t) ∈ (game tickets).transitions s at h
  rw [Game.transitions_of_ok hnext] at h
  obtain ⟨rfl, ht⟩ := hsteps _ h
  rw [left, left, if_neg ht, if_pos rfl]
  exact Nat.one_pos

lemma gain_mem (s : State) : 0 ≤ gain s ∧ gain s ≤ 1 := by
  rw [gain]
  split <;> norm_num

lemma determined (hne : tickets ≠ []) (ε : Type) : (problem tickets ε).Determined gain where
  range := zero_le_one
  queries s _ := (exists_successors? hne s).imp fun _ h => h.1
  evaluates _ _ _ host := ⟨host, rfl⟩
  worths s _ _ := gain_mem s
  ends play _ := Problem.ends_of_rank (left_lt hne) play

/-- There is a moment at which a solver knows what the lottery is worth; what it knows of the outcomes is what
the player gets. -/
lemma exists_run [Dice ε] (hne : tickets ≠ []) (host : ε) : ∃ solver x, (problem tickets ε).Run solver ∧
    solver.value? drawing = some x ∧ ∀ t y, solver.value? t = some y → t ≠ drawing → y = gain t := by
  have h := determined hne ε
  obtain ⟨y, hcomes, hsound, hdone⟩ :=
    h.finishes (Problem.endsWithin_of_rank (left_lt hne) (show left drawing ≤ 1 from le_rfl)) host
  refine ⟨y.own, _, hcomes.run .start, hsound.value?_of_done hdone, fun t x hx ht => ?_⟩
  obtain ⟨b, hb, -⟩ := value?_eq_some.1 hx
  rw [hsound.grounded.sound.value hx]
  exact h.value_of_terminal (hsound.grounded t b hb).1 (by simp [problem, game, ht])

lemma moves?_drawing : (game tickets).moves? drawing chance = .ok tickets := by
  simp [Game.moves?, game, pure, Except.pure, bind, Except.bind]

lemma eq_map_outcome {outcomes : List State}
    (h : List.Forall₂ (fun m t => (game tickets).next? drawing (.single chance m) = .ok t) tickets outcomes) :
    outcomes = tickets.map outcome := by
  have hall : List.Forall₂ (fun m t => outcome m = t) tickets outcomes :=
    ((List.forall₂_and_left _ _).2 ⟨fun m hm => hm, h⟩).imp fun m t ⟨hm, ht⟩ =>
      Except.ok.inj ((next?_drawing hm).symm.trans ht)
  rw [← List.forall₂_map_left_iff, List.forall₂_eq_eq_eq] at hall
  exact hall.symm

lemma mean_gain : mean gain [won, lost] = 1 / 2 ∧ mean gain [won, won, lost] = 2 / 3 ∧
    mean gain [won, won, lost, lost] = 1 / 2 := by
  have hlost : lost ≠ won := by decide
  simp only [mean, gain, List.map_cons, List.map_nil, if_neg hlost, List.sum_cons, List.sum_nil,
    List.length_cons, List.length_nil]
  norm_num

/-- A solver comes to know that a lottery is worth `x`, and its tickets bring `y` on average. -/
def Judged (tickets : List Move) (x y : ℚ) : Prop :=
  ∃ (solver : Solver ℚ) (outcomes : List State), (problem tickets Twister).Run solver ∧
    solver.value? drawing = some x ∧ (game tickets).moves? drawing chance = .ok tickets ∧
    List.Forall₂ (fun m t => (game tickets).next? drawing (.single chance m) = .ok t) tickets outcomes ∧
    mean gain outcomes = y

end Lottery

namespace Solver.Problem

open Lottery

/-- Two tickets of four win, and a solver comes to know that this is worth one half.  It makes no difference to
a solver if there are only three tickets, although two thirds can be expected then. -/
theorem averages_chance_lottery :
    Judged [first, second, third, fourth] (1 / 2) (1 / 2) ∧ Judged [first, second, third] (1 / 2) (2 / 3) := by
  constructor
  · obtain ⟨solver, x, hrun, hknown, hgains⟩ :=
      exists_run (show [first, second, third, fourth] ≠ [] by simp) (Twister.ofSeed 1)
    obtain ⟨moves, outcomes, hmoves, -, hall, v, hv, -, hequal⟩ :=
      hrun.averages_chance hknown rfl controllers_drawing
    cases hmoves.symm.trans moves?_drawing
    obtain rfl : outcomes = [won, won, lost, lost] := eq_map_outcome hall
    have hgain : ∀ t ∈ [won, won, lost, lost], v t = gain t := fun t ht =>
      hgains t _ (hv t ht) (by revert t; decide)
    have hx : x = 1 / 2 := by rw [hequal (by decide), mean_congr hgain, mean_gain.2.2]
    exact ⟨solver, _, hrun, hx ▸ hknown, moves?_drawing, hall, mean_gain.2.2⟩
  · obtain ⟨solver, x, hrun, hknown, hgains⟩ :=
      exists_run (show [first, second, third] ≠ [] by simp) (Twister.ofSeed 1)
    obtain ⟨moves, outcomes, hmoves, -, hall, v, hv, hmean, -⟩ :=
      hrun.averages_chance hknown rfl controllers_drawing
    cases hmoves.symm.trans moves?_drawing
    obtain rfl : outcomes = [won, won, lost] := eq_map_outcome hall
    have hgain : ∀ t ∈ [won, lost], v t = gain t := fun t ht =>
      hgains t _ (hv t (by revert t; decide)) (by revert t; decide)
    have hdistinct : [won, won, lost].eraseDups = [won, lost] := by decide
    have hx : x = 1 / 2 := by rw [hmean, hdistinct, mean_congr hgain, mean_gain.1]
    exact ⟨solver, _, hrun, hx ▸ hknown, moves?_drawing, hall, mean_gain.2.1⟩

end Solver.Problem

end GameSearch
