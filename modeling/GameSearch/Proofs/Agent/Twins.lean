import GameSearch.Agent.Player
import GameSearch.Proofs.Agent.Trees
import GameSearch.Proofs.Alike

/-!
# Searching agents that differ in little

What a searching agent does next depends on all that it has, except on how its last search went, and on its
evaluator only where it searches.  `Unswayed` says this of an action: twins, which differ in these things
only, do the same and are twins afterwards.
-/

namespace GameSearch

open GameSearch.Action Hosted

/-- Who begins a match gets games from the same source as before, even if this fails. -/
lemma Seat.source_take (seat : Seat) (role : Role) (ruleset : Ruleset)
    (startClock playClock : Clock.Settings Binary64) :
    ((Seat.take role ruleset startClock playClock).after seat).source = seat.source := by
  let kept : Seat → Prop := fun taken => taken.source = seat.source
  refine after_bind (P := kept) rfl fun _ taken _ hkept => after_bind (P := kept) hkept fun _ _ hget hkept => ?_
  cases hget
  refine after_lift_bind (P := kept) hkept fun game _ => ?_
  cases game with
  | some game => exact hkept
  | none => exact hkept

namespace TreeAgent

variable {μ R ε α : Type}

/-- Two agents with the equipment of a third one that differ in their last search and, in a given way, in their
evaluators. -/
structure Twins (c : TreeAgent μ R ε) (E : Evaluator R ε → Evaluator R ε → Prop) (a b : TreeAgent μ R ε) : Prop where
  source : a.seat.source = c.seat.source
  settings : a.settings = c.settings
  selector : a.selector = c.selector
  chooser : a.chooser = c.chooser
  evaluator : E a.evaluator b.evaluator
  same : ∃ evaluator last, b = { a with evaluator := evaluator, lastSearch := last }

/-- Twins do the same, and are twins afterwards. -/
abbrev Unswayed (c : TreeAgent μ R ε) (E : Evaluator R ε → Evaluator R ε → Prop) (x : Deliberation μ R ε α) : Prop :=
  Alike (Beside (Twins c E)) (Beside (Twins c E)) x

variable {c a b : TreeAgent μ R ε} {E E' : Evaluator R ε → Evaluator R ε → Prop}

lemma Twins.mono (himp : ∀ ⦃e e'⦄, E e e' → E' e e') (h : Twins c E a b) : Twins c E' a b :=
  { h with evaluator := himp h.evaluator }

lemma Twins.seat_eq (h : Twins c E a b) : a.seat = b.seat := by
  obtain ⟨e, last, rfl⟩ := h.same
  rfl

lemma Twins.memory_eq (h : Twins c E a b) : a.memory = b.memory := by
  obtain ⟨e, last, rfl⟩ := h.same
  rfl

lemma Twins.settings_eq (h : Twins c E a b) : a.settings = b.settings := by
  obtain ⟨e, last, rfl⟩ := h.same
  rfl

lemma Twins.selector_eq (h : Twins c E a b) : a.selector = b.selector := by
  obtain ⟨e, last, rfl⟩ := h.same
  rfl

lemma Twins.chooser_eq (h : Twins c E a b) : a.chooser = b.chooser := by
  obtain ⟨e, last, rfl⟩ := h.same
  rfl

/-! ## Parts of an agent -/

lemma unswayed_onTrees (action : Action (Hosted (Arena R) ε) α) :
    Unswayed c E (onTrees action : Deliberation μ R ε α) := by
  rintro ⟨a, host⟩ ⟨_, _⟩ ⟨⟨hsource, hsettings, hselector, hchooser, hE, e, last, rfl⟩, rfl⟩
  rw [onTrees_run, onTrees_run]
  simp only [trees]
  cases action ⟨a.arena, host⟩ with
  | ok r t => exact .ok ⟨⟨hsource, hsettings, hselector, hchooser, hE, e, last, rfl⟩, rfl⟩
  | error f t => exact .error ⟨⟨hsource, hsettings, hselector, hchooser, hE, e, last, rfl⟩, rfl⟩

lemma unswayed_onArena (action : Action (Arena R) α) : Unswayed c E (onArena action : Deliberation μ R ε α) :=
  unswayed_onTrees _

lemma unswayed_onSeat {action : Action Seat α} (hsource : ∀ seat, (action.after seat).source = seat.source) :
    Unswayed c E (onSeat action : Deliberation μ R ε α) := by
  rintro ⟨a, host⟩ ⟨_, _⟩ ⟨⟨ha, hsettings, hselector, hchooser, hE, e, last, rfl⟩, rfl⟩
  have hafter := hsource a.seat
  simp only [onSeat]
  cases hrun : action a.seat with
  | ok r seat =>
    rw [after_of_ok hrun] at hafter
    exact .ok ⟨⟨hafter.trans ha, hsettings, hselector, hchooser, hE, e, last, rfl⟩, rfl⟩
  | error f seat =>
    rw [after_of_error hrun] at hafter
    exact .error ⟨⟨hafter.trans ha, hsettings, hselector, hchooser, hE, e, last, rfl⟩, rfl⟩

lemma unswayed_remember (f : μ → μ) : Unswayed c E (remember f : Deliberation μ R ε Unit) := by
  refine alike_change fun a b h => ?_
  obtain ⟨hsource, hsettings, hselector, hchooser, hE, e, last, rfl⟩ := h
  exact ⟨hsource, hsettings, hselector, hchooser, hE, e, last, rfl⟩

lemma unswayed_memorized : Unswayed c E (memorized : Deliberation μ R ε μ) :=
  alike_read_bind (fun a b h => by rw [h.memory_eq]) fun _ _ _ => alike_pure _

lemma unswayed_theSelector : Unswayed c E (theSelector : Deliberation μ R ε (Selector R ε)) :=
  alike_read_bind (fun a b h => by rw [h.selector_eq]) fun _ _ _ => alike_pure _

/-- The evaluators must be the same where they are used. -/
lemma unswayed_theEvaluator (hE : ∀ ⦃e e'⦄, E e e' → e = e') :
    Unswayed c E (theEvaluator : Deliberation μ R ε (Evaluator R ε)) :=
  alike_read_bind (fun a b h => by rw [hE h.evaluator]) fun _ _ _ => alike_pure _

lemma unswayed_gameAndRole (name : String) : Unswayed c E (gameAndRole name : Deliberation μ R ε (Game × Role)) :=
  alike_read_bind (fun a b h => by rw [h.seat_eq]) fun _ _ _ =>
    (alike_lift _).bind fun _ => (alike_lift _).bind fun _ => alike_pure _

/-! ## What every method does -/

section

variable [SearchMethod μ R ε]

lemma unswayed_theGame : Unswayed c E (theGame : Deliberation μ R ε Game) :=
  alike_read_bind (fun a b h => by rw [h.seat_eq]) fun _ _ _ => (alike_pure _).bind fun _ => alike_lift _

lemma unswayed_theRole : Unswayed c E (theRole : Deliberation μ R ε Role) :=
  alike_read_bind (fun a b h => by rw [h.seat_eq]) fun _ _ _ => (alike_pure _).bind fun _ => alike_lift _

/-- Agents become more alike by beginning a match if planting their trees makes them so. -/
lemma alike_prepare (hplant : Alike (Beside (Twins c E)) (Beside (Twins c E'))
    (SearchMethod.plant : Deliberation μ R ε Unit)) (role : Role) (ruleset : Ruleset)
    (startClock playClock : Clock.Settings Binary64) : Alike (Beside (Twins c E)) (Beside (Twins c E'))
      (prepare role ruleset startClock playClock : Deliberation μ R ε Unit) :=
  (unswayed_onSeat fun seat => seat.source_take role ruleset startClock playClock).bind fun _ =>
    (unswayed_onArena _).bind fun _ => hplant

lemma unswayed_leave : Unswayed c E (leave : Deliberation μ R ε Unit) :=
  (unswayed_onSeat fun _ => rfl).bind fun _ => (unswayed_onArena _).bind fun _ => unswayed_remember _

variable [Host ε]

lemma unswayed_search (hstep : Unswayed c E (SearchMethod.step : Deliberation μ R ε Unit)) (timeout : Int) :
    Unswayed c E (search timeout : Deliberation μ R ε Unit) := by
  intro x y h
  have hrun := Repeater.alike_run (alike_onHost Host.readClock) (Repeater.alike_lift hstep) timeout maxSteps
    (s := { inner := x }) (t := { inner := y }) ⟨h, rfl⟩
  unfold search
  obtain ⟨outcome, r, r', hr, hr', ⟨hown, hhost⟩, -⟩ | ⟨e, r, r', hr, hr', ⟨hinner, -⟩⟩ := hrun.cases
  · simp only [hr, hr']
    obtain ⟨hsource, hsettings, hselector, hchooser, hE, e, last, hsame⟩ := hown
    exact .ok ⟨⟨hsource, hsettings, hselector, hchooser, hE, e, outcome, by rw [hsame]⟩, hhost⟩
  · simp only [hr, hr']
    exact .error hinner

variable [Scalar R]

omit [Host ε] in
lemma unswayed_choose (id : NodeId) : Unswayed c E (choose id : Deliberation μ R ε Move) :=
  alike_read_bind (fun a b h => by rw [h.chooser_eq]) fun _ _ _ => unswayed_theRole.bind fun _ =>
    (unswayed_onArena _).bind fun _ => alike_onHost _

lemma unswayed_noteOptions (id : NodeId) : Unswayed c E (noteOptions id : Deliberation μ R ε Unit) := by
  refine unswayed_theRole.bind fun role => (unswayed_onArena _).bind fun arena => (alike_lift _).bind fun options => ?_
  refine alike_read_bind (fun a b h => by rw [h.settings_eq]) fun _ _ _ => (alike_lift _).bind fun lines => ?_
  exact alike_onHost _

end

/-- What a method does between simulations does not depend on evaluators. -/
structure Unprejudiced [SearchMethod μ R ε] (c : TreeAgent μ R ε) (E : Evaluator R ε → Evaluator R ε → Prop) :
    Prop where
  develop : ∀ ply view, Unswayed c E (SearchMethod.develop ply view : Deliberation μ R ε Unit)
  decisionNode : Unswayed c E (SearchMethod.decisionNode : Deliberation μ R ε NodeId)
  commit : ∀ move, Unswayed c E (SearchMethod.commit move : Deliberation μ R ε Unit)

lemma Unprejudiced.calculate [SearchMethod μ R ε] [Host ε] [Scalar R] (h : Unprejudiced c E)
    (hstep : Unswayed c E (SearchMethod.step : Deliberation μ R ε Unit)) (ply timeLeft : Int) (view : View) :
    Unswayed c E (calculate ply timeLeft view : Deliberation μ R ε Move) := by
  refine unswayed_theGame.bind fun game => unswayed_theRole.bind fun role => (alike_onHost _).bind fun began => ?_
  refine (h.develop ply view).bind fun _ => (alike_onHost _).bind fun time => ?_
  refine alike_read_bind (fun a b h => by rw [h.seat_eq]) fun _ _ _ => ?_
  refine alike_read_bind (fun a b h => by rw [h.settings_eq]) fun _ _ _ => ?_
  refine (unswayed_search hstep _).bind fun _ => h.decisionNode.bind fun id => ?_
  refine (unswayed_onArena _).bind fun _ => (unswayed_choose id).bind fun move => ?_
  refine (unswayed_noteOptions id).bind fun _ => (alike_pure _).bind fun name => (alike_onHost _).bind fun _ => ?_
  refine (h.commit move).bind fun _ => (alike_lift _).bind fun legal => Alike.ite (fun _ => ?_) fun _ => ?_
  · exact alike_throw_bind _ _
  · exact alike_pure _

end TreeAgent

open TreeAgent

/-! ## Perfect information -/

namespace Mcts

variable {R ε : Type} {c : TreeAgent Mcts R ε} {E : Evaluator R ε → Evaluator R ε → Prop}

lemma unswayed_root : Unswayed c E (root : Deliberation Mcts R ε NodeId) :=
  unswayed_memorized.bind fun _ => alike_lift _

lemma unswayed_reroot (id : NodeId) : Unswayed c E (reroot id : Deliberation Mcts R ε Unit) :=
  (unswayed_remember _).bind fun _ => unswayed_onArena _

lemma unswayed_commit (move : Move) : Unswayed c E (commit move : Deliberation Mcts R ε Unit) :=
  unswayed_root.bind fun _ => (unswayed_onArena _).bind fun _ => (unswayed_onArena _).bind fun _ =>
    (unswayed_onArena _).bind fun _ => (alike_lift _).bind unswayed_reroot

variable [Scalar R] [Host ε]

lemma unswayed_develop (ply : Int) (view : View) :
    Unswayed c E (SearchMethod.develop ply view : Deliberation Mcts R ε Unit) := by
  refine unswayed_root.bind fun root => (unswayed_onArena _).bind fun _ => ?_
  refine alike_read_bind (fun a b h => by rw [h.seat_eq]) fun _ _ _ => (alike_lift _).bind fun game => ?_
  exact (unswayed_onTrees _).bind unswayed_reroot

lemma unswayed_step (hE : ∀ ⦃e e'⦄, E e e' → e = e') :
    Unswayed c E (SearchMethod.step : Deliberation Mcts R ε Unit) := by
  refine alike_read_bind (fun a b h => by rw [h.seat_eq]) fun _ _ _ => (alike_lift _).bind fun game => ?_
  refine unswayed_theSelector.bind fun selector => (unswayed_theEvaluator hE).bind fun evaluator => ?_
  exact unswayed_root.bind fun root => unswayed_onTrees _

/-- Agents that make a book are equipped alike by it, whatever their evaluators were. -/
lemma alike_plant {E' : Evaluator R ε → Evaluator R ε → Prop} (hbook : c.settings.buildsBook = true → ∀ e, E' e e)
    (hplain : c.settings.buildsBook = false → ∀ ⦃e e'⦄, E e e' → E' e e') (game : Game) (role : Role) :
    Alike (Beside (Twins c E)) (Beside (Twins c E')) (plant game role : Deliberation Mcts R ε Unit) := by
  refine (unswayed_onArena _).bind fun root => (unswayed_remember _).bind fun _ => ?_
  refine alike_read_bind (fun a b h => by rw [h.settings_eq]) fun a b h => ?_
  rw [h.settings]
  refine Alike.ite (fun hbuilds => ?_) fun hnot => ?_
  · refine alike_read_bind (fun a b h => by rw [h.seat_eq]) fun _ _ _ => (alike_onHost _).bind fun book => ?_
    refine (alike_lift _).bind fun playouts => alike_change fun a b h => ?_
    obtain ⟨hsource, hsettings, hselector, hchooser, -, e, last, rfl⟩ := h
    exact ⟨hsource, hsettings, hselector, hchooser, hbook hbuilds _, _, last, rfl⟩
  · exact (alike_pure _).mono fun x y h =>
      h.mono fun a b hab => hab.mono (hplain (Bool.eq_false_iff.2 hnot))

lemma unprejudiced : Unprejudiced c E := ⟨unswayed_develop, unswayed_root, unswayed_commit⟩

end Mcts

/-! ## One point of view -/

namespace SingleObserver

variable {R ε : Type} {c : TreeAgent SingleObserver R ε} {E : Evaluator R ε → Evaluator R ε → Prop}

lemma unswayed_root : Unswayed c E (root : Deliberation SingleObserver R ε NodeId) :=
  unswayed_memorized.bind fun _ => alike_lift _

lemma unswayed_reroot (id : NodeId) : Unswayed c E (reroot id : Deliberation SingleObserver R ε Unit) :=
  (unswayed_remember _).bind fun _ => unswayed_onArena _

lemma unswayed_commit (move : Move) : Unswayed c E (commit move : Deliberation SingleObserver R ε Unit) :=
  unswayed_root.bind fun _ => (unswayed_onArena _).bind fun _ => (unswayed_onArena _).bind fun _ =>
    (unswayed_onArena _).bind fun _ => (alike_lift _).bind unswayed_reroot

lemma unswayed_plant (game : Game) (role : Role) :
    Unswayed c E (plant game role : Deliberation SingleObserver R ε Unit) :=
  (alike_lift _).bind fun _ => (unswayed_onArena _).bind fun _ => unswayed_remember _

variable [Scalar R] [Host ε]

lemma unswayed_develop (ply : Int) (view : View) :
    Unswayed c E (SearchMethod.develop ply view : Deliberation SingleObserver R ε Unit) := by
  refine unswayed_root.bind fun root => (unswayed_onArena _).bind fun _ => ?_
  refine alike_read_bind (fun a b h => by rw [h.seat_eq]) fun _ _ _ => (alike_lift _).bind fun game => ?_
  exact (unswayed_onTrees _).bind unswayed_reroot

lemma unswayed_step (hE : ∀ ⦃e e'⦄, E e e' → e = e') :
    Unswayed c E (SearchMethod.step : Deliberation SingleObserver R ε Unit) := by
  refine alike_read_bind (fun a b h => by rw [h.seat_eq]) fun _ _ _ => (alike_lift _).bind fun game => ?_
  refine unswayed_theSelector.bind fun selector => (unswayed_theEvaluator hE).bind fun evaluator => ?_
  exact unswayed_root.bind fun root => unswayed_onTrees _

lemma unprejudiced : Unprejudiced c E := ⟨unswayed_develop, unswayed_root, unswayed_commit⟩

end SingleObserver

/-! ## Every point of view -/

namespace MultiObserver

variable {R ε : Type} {c : TreeAgent MultiObserver R ε} {E : Evaluator R ε → Evaluator R ε → Prop}

lemma unswayed_locate [Dice ε] (game : Game) (own other : Role) (world : State) :
    Unswayed c E (locate game own other world : Deliberation MultiObserver R ε NodeId) := by
  refine unswayed_memorized.bind fun memory => (alike_lift _).bind fun root => (unswayed_onArena _).bind fun arena => ?_
  refine (alike_lift _).bind fun belief => (alike_lift _).bind fun first => (alike_lift _).bind fun id => ?_
  refine (alike_lift _).bind fun last => Alike.ite (fun _ => Alike.ite (fun _ => alike_pure _) fun _ => ?_) fun _ => ?_
  · exact alike_throw_bind _ _
  · cases memory.locations[(other, world)]? with
    | some id => exact alike_pure _
    | none =>
      refine (alike_lift _).bind fun developments => Alike.ite (fun _ => alike_throw_bind _ _) fun _ => ?_
      refine (alike_onHost _).bind fun development => (unswayed_onArena _).bind fun id => ?_
      exact (unswayed_remember _).bind fun _ => alike_pure _

lemma unswayed_locateAll [Dice ε] (game : Game) (own : Role) (world : State) :
    Unswayed c E (locateAll game own world : Deliberation MultiObserver R ε (ByRole NodeId)) := by
  refine unswayed_memorized.bind fun memory => (alike_mapM fun tree => ?_).bind fun _ => alike_pure _
  exact Alike.ite (fun _ => alike_pure _) fun _ => (unswayed_locate _ _ _ _).bind fun _ => alike_pure _

lemma unswayed_catchUp (own other : Role) (ply : Int) :
    Unswayed c E (catchUp own other ply : Deliberation MultiObserver R ε Unit) := by
  refine unswayed_memorized.bind fun memory => (alike_lift _).bind fun root => (unswayed_onArena _).bind fun arena => ?_
  refine (alike_lift _).bind fun node => Alike.ite (fun _ => alike_pure _) fun _ => ?_
  cases expandedBelow arena (ply - node.depth).toNat [root] with
  | none => exact alike_pure _
  | some frontier =>
    refine (alike_lift _).bind fun id => (alike_lift _).bind fun belief => (unswayed_onArena _).bind fun holder => ?_
    cases holder with
    | none => exact alike_pure _
    | some id => exact (unswayed_remember _).bind fun _ => unswayed_onArena _

lemma unswayed_tidy : Unswayed c E (tidy : Deliberation MultiObserver R ε Unit) :=
  (unswayed_remember _).bind fun _ => unswayed_memorized.bind fun _ => unswayed_onArena _

lemma unswayed_reroot (role : Role) (id : NodeId) :
    Unswayed c E (reroot role id : Deliberation MultiObserver R ε Unit) :=
  (unswayed_remember _).bind fun _ => unswayed_onArena _

lemma unswayed_commit (move : Move) : Unswayed c E (commit move : Deliberation MultiObserver R ε Unit) := by
  refine alike_read_bind (fun a b h => by rw [h.seat_eq]) fun _ _ _ => (alike_lift _).bind fun role => ?_
  refine unswayed_memorized.bind fun memory => (alike_lift _).bind fun root => (unswayed_onArena _).bind fun node => ?_
  refine (unswayed_remember _).bind fun _ => (unswayed_onArena _).bind fun _ => (unswayed_onArena _).bind fun _ => ?_
  refine (unswayed_onArena _).bind fun arena => (alike_lift _).bind fun id => ?_
  exact (unswayed_reroot role id).bind fun _ => unswayed_tidy

lemma unswayed_plant : Unswayed c E (plant : Deliberation MultiObserver R ε Unit) := by
  refine (unswayed_gameAndRole _).bind fun seat => (alike_forIn fun other _ => ?_).bind fun _ => ?_
  · refine Alike.ite (fun _ => ?_) fun _ => alike_pure _
    refine (alike_lift _).bind fun belief => (unswayed_onArena _).bind fun root => ?_
    exact (unswayed_remember _).bind fun _ => alike_pure _
  · exact unswayed_memorized.bind fun memory => Alike.ite (fun _ => alike_throw _) fun _ => alike_pure _

lemma unswayed_develop [Dice ε] (ply : Int) (view : View) :
    Unswayed c E (develop ply view : Deliberation MultiObserver R ε Unit) := by
  refine (unswayed_remember _).bind fun _ => alike_read_bind (fun a b h => by rw [h.seat_eq]) fun _ _ _ => ?_
  refine (alike_lift _).bind fun role => unswayed_memorized.bind fun memory => (alike_lift _).bind fun root => ?_
  refine (unswayed_onArena _).bind fun _ => alike_read_bind (fun a b h => by rw [h.seat_eq]) fun _ _ _ => ?_
  refine (alike_lift _).bind fun game => (unswayed_onTrees _).bind fun id => (unswayed_reroot role id).bind fun _ => ?_
  refine unswayed_memorized.bind fun memory => (alike_forIn fun other _ => ?_).bind fun _ => unswayed_tidy
  exact Alike.ite (fun _ => (unswayed_catchUp _ _ _).bind fun _ => alike_pure _) fun _ => alike_pure _

lemma unswayed_ownRoot : Unswayed c E (ownRoot : Deliberation MultiObserver R ε NodeId) :=
  alike_read_bind (fun a b h => by rw [h.seat_eq]) fun _ _ _ => (alike_lift _).bind fun _ =>
    unswayed_memorized.bind fun _ => alike_lift _

variable [Scalar R]

lemma unswayed_select [Dice ε] : Unswayed c E (select : Deliberation MultiObserver R ε JointNode) := by
  refine (unswayed_gameAndRole _).bind fun seat => unswayed_memorized.bind fun memory => ?_
  refine (alike_lift _).bind fun root => (unswayed_onArena _).bind fun node => (alike_onHost _).bind fun world => ?_
  refine (unswayed_locateAll _ _ _).bind fun nodes => unswayed_theSelector.bind fun selector => ?_
  exact unswayed_onTrees _

lemma unswayed_simulate [Dice ε] (hE : ∀ ⦃e e'⦄, E e e' → e = e') :
    Unswayed c E (simulate : Deliberation MultiObserver R ε Unit) := by
  refine alike_read_bind (fun a b h => by rw [h.seat_eq]) fun _ _ _ => (alike_lift _).bind fun game => ?_
  refine unswayed_select.bind fun joint => (alike_forIn fun tree _ => ?_).bind fun _ => ?_
  · exact (unswayed_onArena _).bind fun _ => alike_pure _
  · refine (unswayed_theEvaluator hE).bind fun evaluator => (alike_onHost _).bind fun utilities => ?_
    refine (alike_forIn fun ⟨role, id⟩ _ => ?_).bind fun _ => alike_pure _
    simp only
    cases utilities[role]? with
    | none => exact alike_throw_bind _ _
    | some utility =>
      exact (unswayed_onArena _).bind fun _ => (unswayed_onArena _).bind fun _ => alike_pure _

lemma unprejudiced [Host ε] : Unprejudiced c E := ⟨unswayed_develop, unswayed_ownRoot, unswayed_commit⟩

end MultiObserver

end GameSearch
