import GameSearch.Proofs.Belief.Reexpansion

/-!
# Expansions that are broken off

A query that fails breaks off the expansion of a belief, and what has been added by then stays in the arena.  The
worlds before the one in question have been expanded; of this one, the transitions before the failure have
edges, and yet it does not count as expanded.  So they will be added once more by the next expansion.

What fails may work again the next time, so a query may be answered when it is asked first and fail when it is asked
once more.  `Inquiry` is whom each query goes to, and `Expansion.runBy` an expansion that asks in this way.
-/

namespace GameSearch

namespace Game

/-- A game that may fail to answer a query that another one answers, but gives no other answers. -/
structure Falters (d game : Game) : Prop where
  successors? : ∀ {s next}, d.successors? s = .ok next → game.successors? s = .ok next
  view? : ∀ {s role view}, d.view? s role = .ok view → game.view? s role = .ok view

end Game

/-- Whom an expansion asks about a world: one game lists the transitions, and for each of them another one says what the
owner sees after it. -/
structure Inquiry where
  lists : Game
  sees : Nat → Game

namespace Inquiry

variable {d : Inquiry} {game : Game} {role : Role} {accepts : Turn → Bool} {s : State} {step : Turn × State}
  {next before : List (Turn × State)} {f : Fault}

/-- The same game is asked everything. -/
def of (game : Game) : Inquiry := ⟨game, fun _ => game⟩

/-- Whom is asked after one more transition. -/
def tail (d : Inquiry) : Inquiry := ⟨d.lists, fun i => d.sees (i + 1)⟩

/-- Nobody who is asked gives another answer than a game does. -/
structure Falters (d : Inquiry) (game : Game) : Prop where
  lists : d.lists.Falters game
  sees : ∀ i, (d.sees i).Falters game

lemma Falters.tail (h : d.Falters game) : d.tail.Falters game := ⟨h.lists, fun i => h.sees (i + 1)⟩

lemma falters_of {d : Game} (h : d.Falters game) : (of d).Falters game := ⟨h, fun _ => h⟩

/-- Of some transitions, there is no answer to what a role sees after one that is accepted; the ones before it are
given. -/
def Breaks (d : Inquiry) (role : Role) (accepts : Turn → Bool) (next before : List (Turn × State)) (f : Fault) : Prop :=
  ∃ step after, next = before ++ step :: after ∧
    (∀ i x, before[i]? = some x → accepts x.1 = true → ∃ view, (d.sees i).view? x.2 role = .ok view) ∧
    accepts step.1 = true ∧ (d.sees before.length).view? step.2 role = .error f

/-- There is no answer about a state: it cannot be told what the transitions out of it are, or what a role sees after
one of them. -/
inductive Stops (d : Inquiry) (role : Role) (accepts : Turn → Bool) (s : State) : List (Turn × State) → Fault → Prop
  | successors {f : Fault} : d.lists.successors? s = .error f → Stops d role accepts s [] f
  | view {next before : List (Turn × State)} {f : Fault} :
      d.lists.successors? s = .ok next → d.Breaks role accepts next before f → Stops d role accepts s before f

lemma Breaks.here (haccepts : accepts step.1 = true) (hview : (d.sees 0).view? step.2 role = .error f) :
    d.Breaks role accepts (step :: next) [] f :=
  ⟨step, next, rfl, by simp, haccepts, hview⟩

lemma Breaks.later (hanswers : accepts step.1 = true → ∃ view, (d.sees 0).view? step.2 role = .ok view)
    (h : d.tail.Breaks role accepts next before f) : d.Breaks role accepts (step :: next) (step :: before) f := by
  obtain ⟨last, after, rfl, hbefore, haccepts, hview⟩ := h
  refine ⟨last, after, rfl, fun i x hx => ?_, haccepts, hview⟩
  cases i with
  | zero =>
    cases hx
    exact hanswers
  | succ i => exact hbefore i x hx

lemma Breaks.eq_append (h : d.Breaks role accepts next before f) : ∃ after, next = before ++ after := by
  obtain ⟨step, after, rfl, -⟩ := h
  exact ⟨step :: after, rfl⟩

/-- If an answer is missing, then before anything is accepted. -/
def FailsEarly (d : Inquiry) (role : Role) (accepts : Turn → Bool) (s : State) : Prop :=
  ∀ before f, d.Stops role accepts s before f → ∀ step ∈ before, accepts step.1 = false

end Inquiry

/-- A place that has edges, if only none. -/
def Place.opened (p : Place) : Place := { p with edges := p.edges.or (some #[]) }

namespace Arena

variable {R : Type} {u : Upkeep} {d game : Game} {a a' b : Arena R} {id : NodeId} {p q : Place} {n : Node R}
  {w next : State} {turn : Turn} {step : Turn × State} {steps : List (Turn × State)} {f : Fault}
  {asked : Inquiry}

/-! ## One transition -/

lemma observation?_of_view? {view : View} (hfalters : d.Falters game) (hview : d.view? next n.role = .ok view) :
    observation? d n.role turn next = observation? game n.role turn next := by
  rw [observation?, observation?, hview, hfalters.view? hview]

/-- It does not matter which of the games is asked as long as there is an answer. -/
lemma addTransition_of_view? {view : View} (hn : a.find? id = some n) (hfalters : d.Falters game)
    (hview : d.view? next n.role = .ok view) :
    addTransition d id w turn next a = addTransition game id w turn next a := by
  unfold addTransition
  rw [Action.bind_of_ok (node_of_find? hn), Action.bind_of_ok (node_of_find? hn),
    observation?_of_view? hfalters hview]

lemma addTransition_of_error (hp : a.place? id = some p) (haccepts : p.accepts turn = true)
    (hview : game.view? next p.role = .error f) : addTransition game id w turn next a = .error f a := by
  obtain ⟨v, hnode⟩ := node_run hp
  have hobservation : observation? game p.role turn next = .error f := by
    rw [observation?, hview]
    rfl
  unfold addTransition
  rw [Action.bind_of_ok hnode, Action.bind_of_ok (belief_run hp)]
  simp only [Node.keyOf_toNode, Node.isCommitted_toNode (p := p) (e := ⟨p.keyOf w turn, turn, next, id⟩) rfl v,
    haccepts, Place.toNode_role, hobservation]
  rfl

/-- Both games add a transition alike if there is an answer where one is needed. -/
lemma addTransition_congr (hp : a.place? id = some p) (hfalters : d.Falters game)
    (hview : p.accepts turn = true → ∃ view, d.view? next p.role = .ok view) :
    addTransition d id w turn next a = addTransition game id w turn next a := by
  cases haccepts : p.accepts turn with
  | false => rw [addTransition_of_rejects hp haccepts, addTransition_of_rejects hp haccepts]
  | true =>
    obtain ⟨view, hview⟩ := hview haccepts
    obtain ⟨v, hn⟩ := find?_of_place? hp
    exact addTransition_of_view? hn hfalters hview

/-! ## One world -/

/-- The expansion of a world, if others may be asked with each query. -/
def addTransitionsBy (d : Inquiry) (id : NodeId) (world : State) : Action (Arena R) Unit := do
  change id fun n => { n with edges := n.edges.or (some #[]) }
  for (step, i) in (← d.lists.successors? world).zipIdx do
    addTransition (d.sees i) id world step.1 step.2
  changeBelief id fun b => { b with expanded := b.expanded.insert world }

/-- The loop over the transitions out of a world. -/
def addSteps (d : Inquiry) (id : NodeId) (w : State) (next : List (Turn × State)) : Action (Arena R) PUnit :=
  forIn next.zipIdx ⟨⟩ fun x => addStep (d.sees x.2) id w x.1

lemma addSteps_of : (addSteps (.of game) id w steps : Action (Arena R) PUnit) = forIn steps ⟨⟩ (addStep game id w) := by
  have hmap : steps = steps.zipIdx.map Prod.fst := by rw [List.zipIdx_map_fst]
  conv_rhs => rw [hmap, List.forIn_map]
  rfl

lemma addSteps_cons_of_ok (h : addTransition (asked.sees 0) id w step.1 step.2 a = .ok ⟨⟩ b) :
    addSteps asked id w (step :: steps) a = addSteps asked.tail id w steps b := by
  unfold addSteps
  rw [List.zipIdx_cons, List.forIn_cons, Action.bind_of_ok (addStep_of_ok h)]
  dsimp only
  rw [List.zipIdx_succ, List.forIn_map]
  rfl

lemma addSteps_cons_of_error (h : addTransition (asked.sees 0) id w step.1 step.2 a = .error f b) :
    addSteps asked id w (step :: steps) a = .error f b := by
  unfold addSteps
  rw [List.zipIdx_cons, List.forIn_cons]
  exact Action.bind_of_error (addStep_of_error h)

lemma addTransitionsBy_of_ok (h : asked.lists.successors? w = .ok steps) :
    addTransitionsBy asked id w a = (addSteps asked id w steps >>= fun _ =>
      changeBelief id fun b => { b with expanded := b.expanded.insert w }) (a.opened id) := by
  unfold addTransitionsBy
  rw [Action.bind_of_ok open_run, Action.bind_of_ok (Action.lift_of_ok h _)]
  rfl

lemma addTransitionsBy_of_error (h : asked.lists.successors? w = .error f) :
    addTransitionsBy asked id w a = .error f (a.opened id) := by
  unfold addTransitionsBy
  rw [Action.bind_of_ok open_run, h]
  rfl

/-- If the same game is asked everything, this is the expansion of a world as it is. -/
lemma addTransitionsBy_of (game : Game) :
    (addTransitionsBy (.of game) : NodeId → State → Action (Arena R) Unit) = addTransitions game := by
  funext id w a
  cases hnext : game.successors? w with
  | error f => rw [addTransitionsBy_of_error hnext, addTransitions_of_error hnext]
  | ok steps => rw [addTransitionsBy_of_ok hnext, addTransitions_of_ok hnext, addSteps_of]

lemma Sound.opened (h : a.AllSound u) (hp : a.place? id = some p) (hw : w ∈ p.belief.worlds)
    (hfresh : w ∉ p.belief.expanded) :
    Expanding u id w [] (a.opened id) p.opened ∧ Grown u id p (fun _ => False) a (a.opened id) p.opened := by
  obtain ⟨a', hrun, hexpanding, hgrows⟩ := expanding_nil h hp hw hfresh
  cases hrun
  have hdone : Function.update (p.opened.done u) w [] = p.opened.done u :=
    Function.update_eq_self_iff.2 (if_neg (show w ∉ p.opened.belief.expanded from hfresh)).symm
  have hfits : p.opened.Fits u (a.opened id).place? (p.opened.done u) id := hdone ▸ hexpanding.fits
  have hsound : (a.opened id).Sound u fun x => False ∨ x = id := hexpanding.sound.mono fun _ => .inr
  exact ⟨hexpanding, hsound.settle hexpanding.place hfits, hexpanding.place, fun x => by rw [or_false]; rfl, hgrows⟩

/-- The expansion of a belief was broken off at one of the worlds: some of its transitions have been gone through, and
some other worlds have been expanded. -/
structure Halted (u : Upkeep) (id : NodeId) (p : Place) (worlds : State → Prop) (w : State)
    (before : List (Turn × State)) (a a' : Arena R) (q : Place) : Prop where
  expanding : Expanding u id w before a' q
  expanded : ∀ x, x ∈ q.belief.expanded ↔ x ∈ p.belief.expanded ∨ worlds x
  grows : Forest.Grows (· = id) p.role p.depth a.place? a'.place?

/-- An action comes to the same after it was broken off, except that the edges out of a world are there twice. -/
def Redone (x : Action (Arena R) Unit) (id : NodeId) (w : State) (q : Place) (a a' : Arena R) : Prop :=
  ∃ a₁ a₂, x a = .ok ⟨⟩ a₁ ∧ x a' = .ok ⟨⟩ a₂ ∧ Interposed q.edgeList (q.edgesFrom w) id a₁ a₂

variable {worlds : State → Prop} {before after : List (Turn × State)}

lemma Halted.extended (h : Halted u id p worlds w before a a' q) (hp : a.place? id = some p) :
    p.Extends q ∧ p.Alike q :=
  h.grows.extended hp h.expanding.place

lemma Expanding.halted (h : Expanding u id w before a p) : Halted u id p (fun _ => False) w before a a p :=
  ⟨h, fun x => by rw [or_false], .refl⟩

/-- If no transition has been accepted, nothing was left undone. -/
lemma Halted.grown (h : Halted u id p worlds w before a a' q)
    (hrejects : ∀ step ∈ before, q.accepts step.1 = false) : Grown u id p worlds a a' q := by
  have hfits : q.Fits u a'.place? (q.done u) id := by
    refine h.expanding.fits.congr_listed fun x => ?_
    by_cases hx : x = w
    · have hnone : (before.filter fun step => q.accepts step.1) = [] :=
        List.filter_eq_nil_iff.2 fun step hstep => by simp [hrejects step hstep]
      rw [hx, Function.update_self, hnone, Place.done, if_neg h.expanding.fresh]
      rfl
    · rw [Function.update_of_ne hx]
  have hsound : a'.Sound u fun x => False ∨ x = id := h.expanding.sound.mono fun _ => .inr
  exact ⟨hsound.settle h.expanding.place hfits, h.expanding.place, h.expanded, h.grows⟩

/-- The loop over the transitions out of a world does what it would do if no query ever failed, or it is broken off
at one of them. -/
lemma addSteps_stops (hfalters : asked.Falters u.game) (h : Expanding u id w before a p)
    (hlist : u.game.transitions w = before ++ after) :
    addSteps asked id w after a = forIn after ⟨⟩ (addStep u.game id w) a ∨
      ∃ more f b q, asked.Breaks p.role p.accepts after more f ∧ addSteps asked id w after a = .error f b ∧
        forIn more ⟨⟩ (addStep u.game id w) a = .ok ⟨⟩ b ∧ Halted u id p (fun _ => False) w (before ++ more) a b q := by
  induction after generalizing asked before a p with
  | nil => exact .inl rfl
  | cons step after ih =>
    by_cases hfails : p.accepts step.1 = true ∧ ∃ f, (asked.sees 0).view? step.2 p.role = .error f
    · obtain ⟨haccepts, f, hview⟩ := hfails
      refine .inr ⟨[], f, a, p, .here haccepts hview, ?_, rfl, by rw [List.append_nil]; exact h.halted⟩
      exact addSteps_cons_of_error (addTransition_of_error h.place haccepts hview)
    · have hanswers : p.accepts step.1 = true → ∃ view, (asked.sees 0).view? step.2 p.role = .ok view :=
        fun haccepts => by
          cases hview : (asked.sees 0).view? step.2 p.role with
          | ok view => exact ⟨view, rfl⟩
          | error f => exact absurd ⟨haccepts, f, hview⟩ hfails
      obtain ⟨b, q, hrun, hexpanding, hexpanded, hgrows⟩ :=
        addTransition_yields h (hlist ▸ List.mem_append_right _ List.mem_cons_self)
      have hakin := (hgrows.extended h.place hexpanding.place).1.toAkin
      have hsame : addTransition (asked.sees 0) id w step.1 step.2 a = .ok ⟨⟩ b :=
        (addTransition_congr h.place (hfalters.sees 0) hanswers).trans hrun
      have hrest : u.game.transitions w = (before ++ [step]) ++ after := by rw [hlist, List.append_assoc]; rfl
      rw [addSteps_cons_of_ok hsame, List.forIn_cons, Action.bind_of_ok (addStep_of_ok hrun)]
      rcases ih hfalters.tail hexpanding hrest with hall | ⟨more, f, c, r, hbreaks, herror, hmore, hhalted⟩
      · exact .inl hall
      · rw [hakin.role, show q.accepts = p.accepts from funext hakin.accepts] at hbreaks
        refine .inr ⟨step :: more, f, c, r, hbreaks.later hanswers, herror, ?_, ?_, ?_, ?_⟩
        · rw [List.forIn_cons, Action.bind_of_ok (addStep_of_ok hrun)]
          exact hmore
        · simpa using hhalted.expanding
        · intro x
          rw [hhalted.expanded, hexpanded]
        · have hgrows' := hhalted.grows
          rw [hakin.role, hakin.depth] at hgrows'
          exact hgrows.trans hgrows' (fun _ h => h) (fun _ h => h) (Nat.le_refl _) (Nat.le_refl _)

/-- A world is expanded as if no query ever failed, or its expansion is broken off. -/
theorem addTransitionsBy_stops (h : a.AllSound u) (hp : a.place? id = some p) (hw : w ∈ p.belief.worlds)
    (hfresh : w ∉ p.belief.expanded) (hfalters : asked.Falters u.game) :
    addTransitionsBy asked id w a = addTransitions u.game id w a ∨
      ∃ before f b q, asked.Stops p.role p.accepts w before f ∧ addTransitionsBy asked id w a = .error f b ∧
        Halted u id p (fun _ => False) w before a b q ∧ Redone (addTransitions u.game id w) id w q a b := by
  obtain ⟨hexpanding, hopened⟩ := h.opened hp hw hfresh
  obtain ⟨a₁, q₁, hrun, -⟩ := addTransitions_yields h hp hw hfresh
  have hgame := u.answers.successors? ((h.known id p hp).worlds w hw)
  cases hnext : asked.lists.successors? w with
  | error f =>
    obtain ⟨a₂, hrun₂, hdiffers⟩ := hexpanding.addTransitions_again hgame rfl hrun
    exact .inr ⟨[], f, _, _, .successors hnext, addTransitionsBy_of_error hnext,
      ⟨hexpanding, hopened.expanded, hopened.grows⟩, a₁, a₂, hrun, hrun₂, hdiffers⟩
  | ok next =>
    have hlists := hfalters.lists.successors? hnext
    rw [hlists, Except.ok.injEq] at hgame
    rw [addTransitionsBy_of_ok hnext, addTransitions_of_ok hlists]
    rcases addSteps_stops hfalters hexpanding hgame.symm with
      hall | ⟨before, f, b, q, hbreaks, herror, hbefore, hhalted⟩
    · exact .inl (Action.bind_congr_run hall)
    · obtain ⟨after, rfl⟩ := hbreaks.eq_append
      obtain ⟨a₂, hrun₂, hdiffers⟩ := hhalted.expanding.addTransitions_again hlists hbefore hrun
      refine .inr ⟨before, f, b, q, .view hnext hbreaks, Action.bind_of_error herror, ⟨hhalted.expanding, ?_, ?_⟩,
        a₁, a₂, hrun, hrun₂, hdiffers⟩
      · exact hhalted.expanded
      · exact hopened.grows.trans hhalted.grows (fun _ h => h) (fun _ h => h) (Nat.le_refl _) (Nat.le_refl _)

/-! ## All worlds -/

/-- The expansion of a belief of which each world is expanded in the given way. -/
def expandBeliefBy (expandOne : State → Action (Arena R) Unit) (id : NodeId) : Action (Arena R) Unit := do
  let n ← node id
  if n.isExpanded then return
  let b ← belief id
  for world in b.worlds.toList do
    if !b.expanded.contains world then expandOne world

lemma expandBelief_eq :
    (expandBelief game id : Action (Arena R) Unit) = expandBeliefBy (addTransitions game id) id := rfl

/-- A round of the expansion of a belief of which some worlds have been expanded. -/
def expandStep (expandOne : State → Action (Arena R) Unit) (expanded : StateSet) (w : State) (_ : PUnit) :
    Action (Arena R) (ForInStep PUnit) :=
  if (!expanded.contains w) = true then do
    expandOne w
    pure (.yield ⟨⟩)
  else pure (.yield ⟨⟩)

variable {expandOne : State → Action (Arena R) Unit} {ask : State → Inquiry} {expanded : StateSet}

lemma expandStep_of_mem (hw : w ∈ expanded) : expandStep expandOne expanded w ⟨⟩ a = .ok (.yield ⟨⟩) a := by
  have hcontains : expanded.contains w = true := hw
  rw [expandStep, hcontains]
  rfl

lemma expandStep_of_not_mem (hw : w ∉ expanded) : expandStep expandOne expanded w ⟨⟩ a =
    (do expandOne w; pure (.yield ⟨⟩) : Action (Arena R) (ForInStep PUnit)) a := by
  have hcontains : expanded.contains w = false := Bool.eq_false_iff.2 hw
  rw [expandStep, hcontains]
  rfl

lemma expandStep_yields {c : PUnit} {r : ForInStep PUnit} (h : expandStep expandOne expanded w c a = .ok r b) :
    ∃ c', r = .yield c' := by
  unfold expandStep at h
  split at h
  · obtain ⟨_, _, -, hpure⟩ := Action.bind_eq_ok.1 h
    cases hpure
    exact ⟨_, rfl⟩
  · cases h
    exact ⟨_, rfl⟩

lemma expandBeliefBy_of_done (hp : a.place? id = some p) (hdone : (p.edges.isSome && p.belief.isExpanded) = true) :
    expandBeliefBy expandOne id a = .ok ⟨⟩ a := by
  obtain ⟨v, hnode⟩ := node_run hp
  unfold expandBeliefBy
  rw [Action.bind_of_ok hnode, Node.isExpanded_toNode, if_pos hdone]
  rfl

/-- A belief is expanded world by world. -/
lemma expandBeliefBy_run (hp : a.place? id = some p) (hgoes : ¬(p.edges.isSome && p.belief.isExpanded) = true) :
    expandBeliefBy expandOne id a = ((forIn p.belief.worlds.toList ⟨⟩ (expandStep expandOne p.belief.expanded) :
      Action (Arena R) PUnit) >>= fun _ => pure ⟨⟩) a := by
  obtain ⟨v, hnode⟩ := node_run hp
  unfold expandBeliefBy
  rw [Action.bind_of_ok hnode, Node.isExpanded_toNode, if_neg hgoes, Action.bind_of_ok (belief_run hp)]
  rfl

lemma Expanding.not_done (h : Expanding u id w before a p) : ¬(p.edges.isSome && p.belief.isExpanded) = true := by
  intro hdone
  obtain ⟨-, hsize⟩ := Bool.and_eq_true_iff.1 hdone
  have hall := StateSet.eq_of_subset_of_size_eq h.fits.expanded (by simpa [Belief.isExpanded] using hsize)
  exact h.fresh (hall ▸ h.world)

/-- A loop over the worlds is broken off at one of them, when all before it are expanded. -/
lemma forIn_expandStep_stops (hp : a.place? id = some p) (hfalters : ∀ w, (ask w).Falters u.game)
    {done todo : List State} (hlist : p.belief.worlds.toList = done ++ todo) (hgrown : Grown u id p (· ∈ done) a b q)
    (hrun : forIn todo ⟨⟩ (expandStep (fun w => addTransitionsBy (ask w) id w) p.belief.expanded) b = .error f a') :
    ∃ done' w todo' before c r q, p.belief.worlds.toList = done' ++ w :: todo' ∧ w ∉ p.belief.expanded ∧
      Grown u id p (· ∈ done') a c r ∧ (ask w).Stops p.role p.accepts w before f ∧
      Halted u id r (fun _ => False) w before c a' q ∧ Redone (addTransitions u.game id w) id w q c a' ∧
      forIn todo ⟨⟩ (expandStep (addTransitions u.game id) p.belief.expanded) b =
        forIn (w :: todo') ⟨⟩ (expandStep (addTransitions u.game id) p.belief.expanded) c := by
  induction todo generalizing done b q with
  | nil => cases hrun
  | cons w todo ih =>
    have hw := StateSet.mem_of_toList_eq hlist
    have hnew := StateSet.not_mem_of_toList_eq hlist
    have hlist' : p.belief.worlds.toList = (done ++ [w]) ++ todo := by rw [hlist, List.append_assoc]; rfl
    obtain ⟨b', q', hnext, hgrown'⟩ := hgrown.expandNext hp hw hnew
    have hstep : expandStep (addTransitions u.game id) p.belief.expanded w ⟨⟩ b = .ok (.yield ⟨⟩) b' := hnext
    by_cases hsame : expandStep (fun w => addTransitionsBy (ask w) id w) p.belief.expanded w ⟨⟩ b =
        expandStep (addTransitions u.game id) p.belief.expanded w ⟨⟩ b
    · rw [List.forIn_cons, Action.bind_of_ok (hsame.trans hstep)] at hrun
      rw [List.forIn_cons, Action.bind_of_ok hstep]
      exact ih hlist' hgrown' hrun
    · have hfresh : w ∉ p.belief.expanded := fun hin =>
        hsame ((expandStep_of_mem hin).trans (expandStep_of_mem hin).symm)
      obtain ⟨-, hlike⟩ := hgrown.extended hp
      have hfresh' : w ∉ q.belief.expanded := by
        rw [hgrown.expanded]
        exact not_or.2 ⟨hfresh, hnew⟩
      rcases addTransitionsBy_stops hgrown.sound hgrown.place (hlike.worlds ▸ hw) hfresh' (hfalters w) with
        hwhole | ⟨before, e, c, r, hstops, herror, hhalted, hredone⟩
      · refine absurd ?_ hsame
        rw [expandStep_of_not_mem hfresh, expandStep_of_not_mem hfresh]
        exact Action.bind_congr_run hwhole
      · have hbroken : expandStep (fun w => addTransitionsBy (ask w) id w) p.belief.expanded w ⟨⟩ b = .error e c :=
          (expandStep_of_not_mem hfresh).trans (Action.bind_of_error herror)
        rw [List.forIn_cons, Action.bind_of_error hbroken] at hrun
        cases hrun
        rw [hlike.role, show q.accepts = p.accepts from funext hlike.accepts] at hstops
        exact ⟨done, w, todo, before, b, q, r, hlist, hfresh, hgrown, hstops, hhalted, hredone, rfl⟩

lemma Interposed.alike_expandStep {front more : List Edge} (w : State) (c : PUnit) :
    Action.Alike (Interposed front more id) (Interposed front more id)
      (expandStep (addTransitions game id) expanded w c : Action (Arena R) (ForInStep PUnit)) :=
  Action.Alike.ite (fun _ => alike_addTransitions.bind fun _ => Action.alike_pure _) fun _ => Action.alike_pure _

/-- The expansion of a belief goes on at the world at which another one was broken off. -/
lemma forIn_expandStep_again {a₁ c : Arena R} {r : Place} {done todo : List State} (hp : a.place? id = some p)
    (hlist : p.belief.worlds.toList = done ++ w :: todo) (hfresh : w ∉ p.belief.expanded)
    (hgrown : Grown u id p (· ∈ done) a b r) (hhalted : Halted u id r (fun _ => False) w before b c q)
    (hredone : Redone (addTransitions u.game id w) id w q b c)
    (hrun : forIn (w :: todo) ⟨⟩ (expandStep (addTransitions u.game id) p.belief.expanded) b = .ok ⟨⟩ a₁) :
    ∃ a₂, forIn q.belief.worlds.toList ⟨⟩ (expandStep (addTransitions u.game id) q.belief.expanded) c = .ok ⟨⟩ a₂ ∧
      Interposed q.edgeList (q.edgesFrom w) id a₁ a₂ := by
  have hexpanded : ∀ x, x ∈ q.belief.expanded ↔ x ∈ p.belief.expanded ∨ x ∈ done := fun x => by
    rw [hhalted.expanded, or_false, hgrown.expanded]
  have hworlds : q.belief.worlds = p.belief.worlds :=
    (hhalted.extended hgrown.place).2.worlds.trans (hgrown.extended hp).2.worlds
  have hidle : forIn done ⟨⟩ (expandStep (addTransitions u.game id) q.belief.expanded) c = .ok ⟨⟩ c :=
    Action.forIn_idle fun x hx => expandStep_of_mem ((hexpanded x).2 (.inr hx))
  obtain ⟨b₁, c₁, hb₁, hc₁, hdiffers⟩ := hredone
  have hfirst : expandStep (addTransitions u.game id) q.belief.expanded w ⟨⟩ c = .ok (.yield ⟨⟩) c₁ := by
    rw [expandStep_of_not_mem hhalted.expanding.fresh, Action.bind_of_ok hc₁]
    rfl
  rw [List.forIn_cons, Action.bind_of_ok
    ((expandStep_of_not_mem hfresh).trans (Action.bind_of_ok hb₁))] at hrun
  -- no world that is left to do was done in between
  have hrest : forIn todo ⟨⟩ (expandStep (addTransitions u.game id) q.belief.expanded) c₁ =
      forIn todo ⟨⟩ (expandStep (addTransitions u.game id) p.belief.expanded) c₁ := by
    refine Action.forIn_congr (fun _ _ _ => True) ?_ trivial
    intro first x rest s t hsplit _
    have hnew : x ∉ done := by
      have hlater : p.belief.worlds.toList = (done ++ w :: first) ++ x :: rest := by
        rw [hlist, hsplit, List.append_assoc]
        rfl
      exact fun hmem => StateSet.not_mem_of_toList_eq hlater (List.mem_append_left _ hmem)
    have hsame : q.belief.expanded.contains x = p.belief.expanded.contains x := by
      rw [Bool.eq_iff_iff]
      exact (hexpanded x).trans (or_iff_left hnew)
    refine ⟨by rw [expandStep, expandStep, hsame], fun r s' hrun => ?_⟩
    obtain ⟨c', rfl⟩ := expandStep_yields hrun
    exact ⟨c', rfl, trivial⟩
  have halike : Action.Alike (Interposed q.edgeList (q.edgesFrom w) id) (Interposed q.edgeList (q.edgesFrom w) id)
      (forIn todo ⟨⟩ (expandStep (addTransitions u.game id) p.belief.expanded) : Action (Arena R) PUnit) :=
    Action.alike_forIn fun w c => Interposed.alike_expandStep w c
  obtain ⟨a₂, hrun₂, hdiffers₂⟩ := (halike hdiffers).of_ok hrun
  have hlater : forIn (w :: todo) ⟨⟩ (expandStep (addTransitions u.game id) q.belief.expanded) c = .ok ⟨⟩ a₂ := by
    rw [List.forIn_cons, Action.bind_of_ok hfirst]
    exact hrest.trans hrun₂
  refine ⟨a₂, ?_, hdiffers₂⟩
  rw [hworlds, hlist]
  exact (Action.forIn_append_of_ok (fun _ _ _ _ _ => expandStep_yields) hidle).trans hlater

/-- The expansion of a belief is broken off at a world of it. -/
theorem expandBeliefBy_eq_error (h : a.AllSound u) (hp : a.place? id = some p)
    (hfalters : ∀ w, (ask w).Falters u.game)
    (hrun : expandBeliefBy (fun w => addTransitionsBy (ask w) id w) id a = .error f a') :
    ∃ w worlds before q, (ask w).Stops p.role p.accepts w before f ∧ Halted u id p worlds w before a a' q ∧
      Redone (expandBelief u.game id) id w q a a' := by
  by_cases hdone : (p.edges.isSome && p.belief.isExpanded) = true
  · rw [expandBeliefBy_of_done hp hdone] at hrun
    cases hrun
  obtain ⟨a₁, q₁, hyields, -⟩ := expandBelief_yields h hp
  have hundisturbed := hyields
  rw [expandBelief_eq, expandBeliefBy_run hp hdone] at hyields
  rw [expandBeliefBy_run hp hdone] at hrun
  rcases Action.bind_eq_error.1 hrun with hloop | ⟨_, _, -, hpure⟩
  · obtain ⟨done, w, todo, before, b, r, q, hlist, hfresh, hgrown, hstops, hhalted, hredone, hrest⟩ :=
      forIn_expandStep_stops hp hfalters (List.nil_append _).symm (.refl h hp (by simp)) hloop
    obtain ⟨_, s, hall, hpure⟩ := Action.bind_eq_ok.1 hyields
    cases hpure
    obtain ⟨a₂, hagain, hdiffers⟩ :=
      forIn_expandStep_again hp hlist hfresh hgrown hhalted hredone (hrest.symm.trans hall)
    obtain ⟨-, hlike⟩ := hgrown.extended hp
    have hgrows := hhalted.grows
    rw [hlike.role, hlike.depth] at hgrows
    refine ⟨w, (· ∈ done), before, q, hstops, ⟨hhalted.expanding, fun x => ?_, ?_⟩, _, a₂, hundisturbed, ?_, hdiffers⟩
    · rw [hhalted.expanded, or_false, hgrown.expanded]
    · exact hgrown.grows.trans hgrows (fun _ h => h) (fun _ h => h) (Nat.le_refl _) (Nat.le_refl _)
    · rw [expandBelief_eq, expandBeliefBy_run hhalted.expanding.place hhalted.expanding.not_done,
        Action.bind_of_ok hagain]
      rfl
  · cases hpure

/-- The expansion of a world that is expanded in the given way. -/
def expandWorldBy (expandOne : State → Action (Arena R) Unit) (id : NodeId) (world : State) :
    Action (Arena R) Unit := do
  let b ← belief id
  if b.expanded.contains world then return
  if !b.worlds.contains world then throw (.notAWorld world.text id)
  expandOne world

lemma expandWorld_eq :
    (expandWorld game id w : Action (Arena R) Unit) = expandWorldBy (addTransitions game id) id w := rfl

lemma expandWorldBy_of_mem (hp : a.place? id = some p) (hw : w ∈ p.belief.expanded) :
    expandWorldBy expandOne id w a = .ok ⟨⟩ a := by
  unfold expandWorldBy
  rw [Action.bind_of_ok (belief_run hp), if_pos (show p.belief.expanded.contains w = true from hw)]
  rfl

lemma expandWorldBy_of_fresh (hp : a.place? id = some p) (hw : w ∈ p.belief.worlds) (hfresh : w ∉ p.belief.expanded) :
    expandWorldBy expandOne id w a = expandOne w a := by
  have hworlds : p.belief.worlds.contains w = true := hw
  unfold expandWorldBy
  rw [Action.bind_of_ok (belief_run hp), if_neg (show ¬p.belief.expanded.contains w = true from hfresh), hworlds]
  rfl

lemma expandWorldBy_of_not_world (hp : a.place? id = some p) (hw : w ∉ p.belief.worlds)
    (hfresh : w ∉ p.belief.expanded) : expandWorldBy expandOne id w a = .error (.notAWorld w.text id) a := by
  have hworlds : p.belief.worlds.contains w = false := Bool.eq_false_iff.2 hw
  unfold expandWorldBy
  rw [Action.bind_of_ok (belief_run hp), if_neg (show ¬p.belief.expanded.contains w = true from hfresh), hworlds]
  rfl

/-- The expansion of a world is broken off. -/
theorem expandWorldBy_eq_error (h : a.AllSound u) (hp : a.place? id = some p) (hw : w ∈ p.belief.worlds)
    (hfalters : asked.Falters u.game) (hrun : expandWorldBy (addTransitionsBy asked id) id w a = .error f a') :
    ∃ before q, asked.Stops p.role p.accepts w before f ∧ Halted u id p (fun _ => False) w before a a' q ∧
      Redone (expandWorld u.game id w) id w q a a' := by
  by_cases hin : w ∈ p.belief.expanded
  · rw [expandWorldBy_of_mem hp hin] at hrun
    cases hrun
  rw [expandWorldBy_of_fresh hp hw hin] at hrun
  rcases addTransitionsBy_stops h hp hw hin hfalters with
    hwhole | ⟨before, e, b, q, hstops, herror, hhalted, hredone⟩
  · obtain ⟨b, q, hyields, -⟩ := addTransitions_yields h hp hw hin
    rw [hwhole, hyields] at hrun
    cases hrun
  · rw [herror] at hrun
    cases hrun
    obtain ⟨a₁, a₂, hrun₁, hrun₂, hdiffers⟩ := hredone
    have hhalf := hhalted.expanding
    refine ⟨before, q, hstops, hhalted, a₁, a₂, ?_, ?_, hdiffers⟩
    · rw [expandWorld_eq, expandWorldBy_of_fresh hp hw hin, hrun₁]
    · rw [expandWorld_eq, expandWorldBy_of_fresh hhalf.place hhalf.world hhalf.fresh, hrun₂]

end Arena

/-! ## Expansions -/

/-- The ways of expanding a belief. -/
inductive Expansion where
  | all
  | world (w : State)

namespace Expansion

open Arena

variable {R : Type} {u : Upkeep} {game : Game} {ask : State → Inquiry} {a a' : Arena R} {id : NodeId} {p : Place}
  {f : Fault} {e : Expansion}

/-- Expands all worlds of a belief, or one of them. -/
def run (game : Game) (id : NodeId) : Expansion → Action (Arena R) Unit
  | all => expandBelief game id
  | world w => expandWorld game id w

/-- Does the same, if others may be asked with each query. -/
def runBy (ask : State → Inquiry) (id : NodeId) : Expansion → Action (Arena R) Unit
  | all => expandBeliefBy (fun w => addTransitionsBy (ask w) id w) id
  | world w => expandWorldBy (addTransitionsBy (ask w) id) id w

lemma runBy_of (e : Expansion) : (e.runBy (fun _ => .of game) id : Action (Arena R) Unit) = e.run game id := by
  cases e with
  | all => rw [runBy, addTransitionsBy_of, run, expandBelief_eq]
  | world w => rw [runBy, addTransitionsBy_of, run, expandWorld_eq]

/-- What is expanded are worlds of a belief. -/
def Within (e : Expansion) (b : Belief) : Prop := ∀ w, e = .world w → w ∈ b.worlds

/-- An expansion is broken off at a world of the belief. -/
theorem runBy_eq_error (h : a.AllSound u) (hp : a.place? id = some p) (he : e.Within p.belief)
    (hfalters : ∀ w, (ask w).Falters u.game) (hrun : e.runBy ask id a = .error f a') :
    ∃ w worlds before q, (ask w).Stops p.role p.accepts w before f ∧ Halted u id p worlds w before a a' q ∧
      Redone (e.run u.game id) id w q a a' := by
  cases e with
  | all => exact expandBeliefBy_eq_error h hp hfalters hrun
  | world w =>
    obtain ⟨before, q, hstops, hhalted, hredone⟩ := expandWorldBy_eq_error h hp (he w rfl) (hfalters w) hrun
    exact ⟨w, _, before, q, hstops, hhalted, hredone⟩

/-- Asking for the expansion of a state that is no world changes nothing. -/
lemma runBy_eq_error_of_not_within (h : a.AllSound u) (hp : a.place? id = some p) (he : ¬e.Within p.belief)
    (hrun : e.runBy ask id a = .error f a') : a' = a := by
  cases e with
  | all => exact absurd (fun w hw => by cases hw) he
  | world w =>
    have hw : w ∉ p.belief.worlds := fun hw => he fun x hx => by
      cases hx
      exact hw
    have hfresh : w ∉ p.belief.expanded := fun hin => hw ((h.kept id p hp not_false).expanded w hin)
    cases (expandWorldBy_of_not_world hp hw hfresh).symm.trans hrun
    rfl

end Expansion

end GameSearch
