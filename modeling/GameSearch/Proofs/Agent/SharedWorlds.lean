import GameSearch.Proofs.Agent.Trailing
import GameSearch.Proofs.Belief.Representation
import GameSearch.Proofs.Ranking
import GameSearch.Session

/-!
# One world for all trees

However a match goes on, a simulation ends at one node of each tree, and these nodes agree on its world.
`Reachable` are the ways in which an agent comes to be as it is, `Reachable.exists_at` is what they keep, and
`Reachable.shares_worlds` is what follows for the simulations.
-/

namespace GameSearch

/-! ## A game of two turns -/

namespace Signal

/-- The one who signals first. -/
def sender : Role := .symbol "sender"

/-- The one who replies without having seen the signal. -/
def receiver : Role := .symbol "receiver"

def flag : Move := .symbol "flag"

def lamp : Move := .symbol "lamp"

/-- Nothing has been signalled yet. -/
def silent : State := .ofList [controlOf sender]

/-- A signal was given, and the receiver is to reply. -/
def given (signal : Move) : State := .ofList [controlOf receiver, signal]

/-- Both have signalled. -/
def answered : State := .ofList [.symbol "over"]

def isOpen (s : State) : Bool := s = silent || s = given flag || s = given lamp

/-- Two roles signal one after the other, and see nothing. -/
def game : Game where
  roles := [sender, receiver]
  start := silent
  sees _ := .ok ∅
  legal s := .ok ((∅ : ByRole (List Move)).insert (if s = silent then sender else receiver) [flag, lamp])
  goals _ := .ok ∅
  isTerminal s := .ok (!isOpen s)
  play s turn :=
    .ok (if s = silent then given (if turn.contains sender flag then flag else lamp) else answered)

lemma successors?_silent :
    game.successors? silent = .ok [(.single sender flag, given flag), (.single sender lamp, given lamp)] := by
  rfl

lemma cases_of_silent {step : Turn × State} (h : step ∈ game.transitions silent) :
    step.2 = given flag ∨ step.2 = given lamp := by
  rw [Game.transitions_of_ok successors?_silent] at h
  rcases List.mem_pair.1 h with rfl | rfl
  · exact .inl rfl
  · exact .inr rfl

lemma successors?_given {signal : Move} (h : signal = flag ∨ signal = lamp) :
    game.successors? (given signal) =
      .ok [(.single receiver flag, answered), (.single receiver lamp, answered)] := by
  rcases h with rfl | rfl <;> rfl

lemma successors?_of_over {s : State} (h : isOpen s = false) : game.successors? s = .ok [] :=
  Game.successors?_of_isTerminal (by simp [game, h])

lemma answers : game.AnswersOn fun _ => True where
  sees _ _ := ⟨_, rfl⟩
  legal _ _ := ⟨_, rfl⟩
  goals _ _ := ⟨_, rfl⟩
  isTerminal _ _ := ⟨_, rfl⟩
  successors s _ := by
    cases hopen : isOpen s with
    | false => exact ⟨_, successors?_of_over hopen⟩
    | true =>
      simp only [isOpen, Bool.or_eq_true, decide_eq_true_eq, or_assoc] at hopen
      rcases hopen with rfl | rfl | rfl
      · exact ⟨_, successors?_silent⟩
      · exact ⟨_, successors?_given (.inl rfl)⟩
      · exact ⟨_, successors?_given (.inr rfl)⟩
  closed _ _ _ _ := trivial

/-- The flag is raised, and answered by a flag. -/
def course : Course game where
  state
    | 0 => silent
    | 1 => given flag
    | _ => answered
  turn
    | 0 => .single sender flag
    | _ => .single receiver flag
  start := rfl

lemma played : ∀ n < 2, (course.turn n, course.state (n + 1)) ∈ game.transitions (course.state n) := by
  intro n hn
  obtain rfl | rfl : n = 0 ∨ n = 1 := by omega
  · rw [show course.state 0 = silent from rfl, Game.transitions_of_ok successors?_silent]
    exact List.mem_cons_self
  · rw [show course.state 1 = given flag from rfl, Game.transitions_of_ok (successors?_given (.inl rfl))]
    exact List.mem_cons_self

lemma answered_of_given {signal : Move} {step : Turn × State} (h : signal = flag ∨ signal = lamp)
    (hstep : step ∈ game.transitions (given signal)) : step.2 = answered := by
  rw [Game.transitions_of_ok (successors?_given h)] at hstep
  rcases List.mem_pair.1 hstep with rfl | rfl <;> rfl

/-- Whatever the signals are, the play is over after two plies. -/
lemma answered_of_after {t : State} (h : game.After 2 silent t) : t = answered := by
  obtain ⟨step, hfirst, step', hsecond, rfl⟩ := h
  rcases cases_of_silent hfirst with hgiven | hgiven
  · exact answered_of_given (.inl rfl) (hgiven ▸ hsecond)
  · exact answered_of_given (.inr rfl) (hgiven ▸ hsecond)

/-- One who replies, before a match. -/
def replier (R : Type) [Scalar R] : TreeAgent MultiObserver R Session where
  seat := { source := fun _ => .ok (some game) }
  settings := {}
  selector := .mostVisited
  chooser := .mostVisited
  evaluator := .ofTable [] Scalar.half
  memory := {}

end Signal

namespace MultiObserver

open Arena TreeAgent

variable {R ε : Type} [Scalar R] [Host ε] {game : Game} {u : Upkeep} {possible : State → Prop} {own role : Role}
  {course : Nat → State → Prop} {x y : Hosted (TreeAgent MultiObserver R ε) ε} {root r id : NodeId} {p : Place}
  {w : State} {depth : Nat} {joint : JointNode}

/-! ## From call to call -/

/-- Some simulations, and selections of leaves in between. -/
inductive Searches : Hosted (TreeAgent MultiObserver R ε) ε → Hosted (TreeAgent MultiObserver R ε) ε → Prop
  | simulates {k : Nat} {x y : Hosted (TreeAgent MultiObserver R ε) ε} : Simulates k x y → Searches x y
  | select {joint : JointNode} {k : Nat} {x y z z' : Hosted (TreeAgent MultiObserver R ε) ε} : Searches x y →
      (MultiObserver.select : Deliberation MultiObserver R ε JointNode) y = .ok joint z → Simulates k z z' →
      Searches x z'

/-- The ways in which an agent of a role comes to be as it is in a match.  The match begins with an empty memory,
that is with a new agent or with one that has concluded or aborted its last match.  Plies are numbers of 32
bits. -/
inductive Reachable (game : Game) (own : Role) : Hosted (TreeAgent MultiObserver R ε) ε → Prop
  | prepare {ruleset : Ruleset} {startClock playClock : Clock.Settings Binary64}
      {x y : Hosted (TreeAgent MultiObserver R ε) ε} :
      x.own.memory = {} → x.own.seat.source ruleset = .ok (some game) →
      (TreeAgent.prepare own ruleset startClock playClock : Deliberation MultiObserver R ε Unit) x =
        .ok ⟨⟩ y → Reachable game own y
  | develop {ply : Int} {view : View} {x y : Hosted (TreeAgent MultiObserver R ε) ε} :
      Reachable game own x → ply ≤ 2147483647 →
      (SearchMethod.develop ply view : Deliberation MultiObserver R ε Unit) x = .ok ⟨⟩ y → Reachable game own y
  | search {x y : Hosted (TreeAgent MultiObserver R ε) ε} :
      Reachable game own x → Searches x y → Reachable game own y
  | commit {move : Move} {root : NodeId} {n : Node R} {x y : Hosted (TreeAgent MultiObserver R ε) ε} :
      Reachable game own x → x.own.memory.trees[own]? = some root → x.own.arena.find? root = some n →
      n.depth < 2147483647 →
      (SearchMethod.commit move : Deliberation MultiObserver R ε Unit) x = .ok ⟨⟩ y → Reachable game own y

omit [Scalar R] [Host ε] in
lemma spares_nothing (selector : Selector R ε) : selector.Spares fun _ => False :=
  ⟨fun _ hf => hf.elim, fun _ _ _ _ _ _ _ _ => not_false⟩

/-- A simulation leaves the agent's own root and its worlds as they are, and one of them is expanded after
it. -/
theorem At.step (h : At u own course x root p) (hle : p.depth ≤ 2147483647)
    (harguments : (controlOf own).arguments? = .ok [own])
    (hstep : (SearchMethod.step : Deliberation MultiObserver R ε Unit) x = .ok ⟨⟩ y) :
    ∃ q, At u own course y root q ∧ p.Alike q ∧ q.Begun ∧ y.own.memory.views = x.own.memory.views ∧
      y.own.memory.moves = x.own.memory.moves := by
  obtain ⟨joint, hsearched⟩ := (simulate_ensures h hle harguments (spares_nothing _)
    (fun _ _ _ _ _ _ _ => not_false) fun _ _ _ ⟨_, hf, _⟩ => hf.elim).of_ok hstep
  obtain ⟨q, hq, halike⟩ := hsearched.stays
  exact ⟨q, hq, halike, hsearched.begun q hq.place, hsearched.deeper.views, hsearched.deeper.moves⟩

/-- Simulations leave the agent's own root and its worlds as they are, and one of them is expanded after the
first. -/
lemma At.simulates {k : Nat} (h : At u own course x root p) (hle : p.depth ≤ 2147483647)
    (harguments : (controlOf own).arguments? = .ok [own]) (hsimulates : Simulates k x y) :
    ∃ q, At u own course y root q ∧ p.Alike q ∧ (0 < k → q.Begun) ∧
      y.own.memory.views = x.own.memory.views ∧ y.own.memory.moves = x.own.memory.moves := by
  induction hsimulates with
  | refl => exact ⟨p, h, .refl p, fun hk => absurd hk (Nat.lt_irrefl 0), rfl, rfl⟩
  | step _ hstep ih =>
    obtain ⟨q, hq, halike, -, hviews, hmoves⟩ := ih h
    obtain ⟨r, hr, halike', hbegun, hviews', hmoves'⟩ := hq.step (halike.depth ▸ hle) harguments hstep
    exact ⟨r, hr, halike.trans halike', fun _ => hbegun, hviews'.trans hviews, hmoves'.trans hmoves⟩
  | elsewhere _ hxy ih =>
    obtain ⟨q, hq, halike, hbegun, hviews, hmoves⟩ := ih h
    exact ⟨q, hq.undisturbed hxy, halike, hbegun, hxy.memory ▸ hviews, hxy.memory ▸ hmoves⟩

/-- Searching leaves the agent's own root and its worlds as they are. -/
lemma At.searches (h : At u own course x root p) (hle : p.depth ≤ 2147483647)
    (harguments : (controlOf own).arguments? = .ok [own]) (hsearches : Searches x y) :
    ∃ q, At u own course y root q ∧ p.Alike q ∧ y.own.memory.views = x.own.memory.views ∧
      y.own.memory.moves = x.own.memory.moves := by
  induction hsearches with
  | simulates hsimulates =>
    obtain ⟨q, hq, halike, -, hkept⟩ := h.simulates hle harguments hsimulates
    exact ⟨q, hq, halike, hkept⟩
  | select _ hselect hsimulates ih =>
    obtain ⟨q, hq, halike, hviews, hmoves⟩ := ih h
    have hsought := (wander_ensures hq (halike.depth ▸ hle) harguments (spares_nothing _)
      fun _ _ _ ⟨_, hf, _⟩ => hf.elim).of_ok hselect
    obtain ⟨r, hr, halike'⟩ := hsought.stays
    have hsame := halike.trans halike'
    obtain ⟨r', hr', halike'', -, hviews', hmoves'⟩ := hr.simulates (hsame.depth ▸ hle) harguments hsimulates
    exact ⟨r', hr', hsame.trans halike'', hviews'.trans (hsought.deeper.views.trans hviews),
      hmoves'.trans (hsought.deeper.moves.trans hmoves)⟩

/-- The trees are sound at every moment of a match. -/
theorem Reachable.exists_at (hstart : u.states u.game.start) (hsteady : ¬u.steady) (hforgets : ¬u.recalls)
    (harguments : (controlOf own).arguments? = .ok [own]) (h : Reachable u.game own x) :
    ∃ root p, At u own (fun _ _ => False) x root p ∧ p.depth ≤ 2147483647 := by
  induction h with
  | prepare hmemory hsource hprepare =>
    obtain ⟨root, hat, -, -⟩ :=
      At.prepare hmemory hsource hstart (fun _ _ => False) (fun _ => False.elim) hprepare
    exact ⟨root, _, hat, Nat.zero_le _⟩
  | develop _ hply hdevelop ih =>
    obtain ⟨root, p, hat, -⟩ := ih
    obtain ⟨k, q, q', -, hdeveloped⟩ := hat.develop hstart hply hforgets hdevelop
    have hlevel := hdeveloped.level
    have hle : q'.depth ≤ 2147483647 := by omega
    exact ⟨k, q'.detached, hdeveloped.keeps root _ hat fun _ => False.elim, hle⟩
  | search _ hsearches ih =>
    obtain ⟨root, p, hat, hle⟩ := ih
    obtain ⟨q, hq, halike, -, -⟩ := hat.searches hle harguments hsearches
    exact ⟨root, q, hq, halike.depth ▸ hle⟩
  | commit _ hroot hn hlt hcommit ih =>
    obtain ⟨root, p, hat, -⟩ := ih
    obtain ⟨y, q, k, r, T, hrun, hat', -, -, -, -, hle, -⟩ := hat.commit (.inr (.inr hsteady))
    cases hcommit.symm.trans hrun
    rw [hat.planted, Option.some.injEq] at hroot
    subst hroot
    obtain ⟨v, hp⟩ := find?_of_place? hat.place
    rw [hp, Option.some.injEq] at hn
    subst hn
    rw [Place.toNode_depth] at hlt
    have hle' : r.depth ≤ 2147483647 := by omega
    exact ⟨k, r.detached, hat', hle'⟩

/-! ## Ways that end at once -/

/-- A simulation draws a world of the agent's own root, locates it and goes down from there. -/
lemma At.select_run {nodes : ByRole NodeId} {host : ε} (h : At u own course x root p)
    (hchoose : Dice.choose p.belief.worlds.toList x.host = .ok w host)
    (hlocate : (locateAll u.game own w : Deliberation MultiObserver R ε (ByRole NodeId)) ⟨x.own, host⟩ = .ok nodes y)
    (hdescend : descend u.game y.own.selector (y.own.arena.slots.size + 1) ⟨nodes, w⟩ (TreeAgent.trees y) =
      .ok joint (TreeAgent.trees y)) :
    (MultiObserver.select : Deliberation MultiObserver R ε JointNode) x = .ok joint y := by
  obtain ⟨v, hnode⟩ := node_run h.place
  unfold MultiObserver.select
  refine (Action.bind_of_ok (gameAndRole_run h.game h.seated label)).trans ?_
  refine (Action.bind_of_ok memorized_run).trans ((Action.bind_of_ok (Action.lift_of_ok h.root? x)).trans ?_)
  refine (Action.bind_of_ok (onArena_of_ok hnode)).trans ?_
  refine (Action.bind_of_ok (Hosted.onHost_eq_ok.2 ⟨host, hchoose, rfl⟩)).trans ?_
  exact (Action.bind_of_ok hlocate).trans (onTrees_of_ok hdescend)

/-- A simulation ends where the agent's own worlds are located if the play is over in all of these. -/
theorem At.select_over (h : At u own course x root p) (hle : p.depth ≤ 2147483647)
    (hover : ∀ w ∈ p.belief.worlds, u.game.isTerminal w = .ok true)
    (hlocatable : ∀ w ∈ p.belief.worlds, Locatable u.game own p.depth w x) :
    ∃ joint y, (MultiObserver.select : Deliberation MultiObserver R ε JointNode) x = .ok joint y ∧
      joint.world ∈ p.belief.worlds := by
  obtain ⟨w, host, hchoose, hw⟩ := p.draw_run x.host
  have hx : At u own course ⟨x.own, host⟩ root p := h.undisturbed ⟨rfl, rfl, rfl⟩
  obtain ⟨nodes, y, hlocate, -⟩ := Action.Ensures.yields (locateAll_ensures hx hle hw fun _ => hlocatable w hw)
  have hadvance : advance u.game y.own.selector ⟨nodes, w⟩ (TreeAgent.trees y) = .ok none (TreeAgent.trees y) := by
    unfold advance
    rw [Action.bind_of_ok (Action.lift_of_ok (hover w hw) _)]
    rfl
  have hdescend : descend u.game y.own.selector (y.own.arena.slots.size + 1) ⟨nodes, w⟩ (TreeAgent.trees y) =
      .ok ⟨nodes, w⟩ (TreeAgent.trees y) := by
    rw [descend, Action.bind_of_ok hadvance]
    rfl
  exact ⟨_, y, h.select_run hchoose hlocate hdescend, hw⟩

omit [Scalar R] in
/-- A world is located at the roots if all of them are for the same ply and hold it. -/
lemma At.locateAll_run (h : At u own course x root p)
    (hlevel : ∀ (role : Role) r q, x.own.memory.trees[role]? = some r → x.own.arena.place? r = some q →
      q.depth = p.depth ∧ w ∈ q.belief.worlds) :
    (locateAll u.game own w : Deliberation MultiObserver R ε (ByRole NodeId)) x = .ok x.own.memory.trees x := by
  have hlocates : Action.Ensures (fun _ => True)
      (locateAll u.game own w : Deliberation MultiObserver R ε (ByRole NodeId)) x
      fun nodes y => nodes = x.own.memory.trees ∧ y = x := by
    unfold locateAll
    refine Action.ensures_bind_of_ok memorized_run ?_
    refine (Action.ensures_mapM (I := fun before found y => found = before ∧ y = x) ?_ ⟨rfl, rfl⟩).bind
      fun found y hfound => ?_
    · rintro before ⟨role, r⟩ after found y hl ⟨rfl, rfl⟩
      have hr : y.own.memory.trees[role]? = some r :=
        Std.ExtTreeMap.mem_toList_iff_getElem?_eq_some.1 (by simp [hl])
      simp only
      by_cases hown : role = own
      · rw [if_pos hown]
        exact Action.ensures_of_ok rfl ⟨rfl, rfl⟩
      · obtain ⟨q, hroot⟩ := h.grove.root role r hr
        obtain ⟨hdepth, hw⟩ := hlevel role r q hr hroot.place
        rw [if_neg hown]
        exact Action.ensures_bind_of_ok (h.locate_level hr hroot.place hdepth hw) (Action.ensures_of_ok rfl ⟨rfl, rfl⟩)
    · obtain ⟨rfl, rfl⟩ := hfound
      exact Action.ensures_of_ok rfl ⟨ByRole.ofList_toList _, rfl⟩
  obtain ⟨nodes, y, hrun, rfl, rfl⟩ := hlocates.yields
  exact hrun

omit [Scalar R] [Host ε] in
/-- Roots for the same ply are in step at a world that all of them hold. -/
lemma At.inStep_roots (h : At u own course x root p)
    (hlevel : ∀ (role : Role) r q, x.own.memory.trees[role]? = some r → x.own.arena.place? r = some q →
      q.depth = p.depth ∧ w ∈ q.belief.worlds) :
    InStep x.own.arena x.own.memory.trees p.depth ⟨x.own.memory.trees, w⟩ := by
  refine ⟨fun role => Iff.rfl, fun role r id hr hid => ?_⟩
  obtain ⟨q, hroot⟩ := h.grove.root role r hr
  obtain ⟨hdepth, hheld⟩ := hlevel role r q hr hroot.place
  cases hr.symm.trans hid
  exact ⟨.refl, q, hroot.place, hroot.owner, hdepth, hheld⟩

omit [Scalar R] [Host ε] in
/-- When a match begins, all roots are for the first ply and hold the initial state. -/
lemma At.level_first (h : At u own course x root (firstPlace u.game own)) (hcourse : course 0 u.game.start) :
    ∀ w ∈ (firstPlace u.game own).belief.worlds, ∀ (role : Role) r q, x.own.memory.trees[role]? = some r →
      x.own.arena.place? r = some q → q.depth = 0 ∧ w ∈ q.belief.worlds := by
  intro w hw role r q hr hq
  obtain ⟨q', hroot⟩ := h.grove.root role r hr
  cases hq.symm.trans hroot.place
  have hdepth : q.depth = 0 := Nat.le_zero.1 hroot.le
  refine ⟨hdepth, ?_⟩
  by_cases hown : role = own
  · subst hown
    cases hr.symm.trans h.planted
    cases hq.symm.trans h.place
    exact hw
  · rw [StateSet.mem_singleton.1 hw]
    exact hroot.holds hown _ (hdepth ▸ hcourse)

/-- A simulation ends at the roots if these are for the same ply and the agent's own root was never
expanded. -/
theorem At.select_first (h : At u own course x root p) (hedges : p.edges = none)
    (hlevel : ∀ w ∈ p.belief.worlds, ∀ (role : Role) r q, x.own.memory.trees[role]? = some r →
      x.own.arena.place? r = some q → q.depth = p.depth ∧ w ∈ q.belief.worlds) :
    ∃ w ∈ p.belief.worlds, ∃ host, (MultiObserver.select : Deliberation MultiObserver R ε JointNode) x =
      .ok ⟨x.own.memory.trees, w⟩ ⟨x.own, host⟩ := by
  obtain ⟨w, host, hchoose, hw⟩ := p.draw_run x.host
  let y : Hosted (TreeAgent MultiObserver R ε) ε := ⟨x.own, host⟩
  have hy : At u own course y root p := h.undisturbed ⟨rfl, rfl, rfl⟩
  have hpoised : Poised u own course y.own.memory.trees p.depth p.depth y.own.arena ⟨y.own.memory.trees, w⟩ :=
    ⟨hy.grove, hy.inStep_roots (hlevel w hw), (h.grove.sound.known root p h.place).worlds w hw⟩
  have hdescend : descend u.game y.own.selector (y.own.arena.slots.size + 1) ⟨y.own.memory.trees, w⟩
      (TreeAgent.trees y) = .ok ⟨y.own.memory.trees, w⟩ (TreeAgent.trees y) := by
    rw [descend, Action.bind_of_ok (advance_unexpanded hpoised hy.planted hy.place hedges)]
    rfl
  exact ⟨w, hw, host, h.select_run hchoose (hy.locateAll_run (hlevel w hw)) hdescend⟩

omit [Host ε] in
/-- The utility of a root can be credited, and there is nothing above it. -/
lemma Sought.credit {utility : R} (h : Sought u own course root p x joint y)
    (hid : x.own.memory.trees[role]? = some id) (hunit : Scalar.isUnit utility = true) :
    ∃ a, propagate id utility y.own.arena = .ok ⟨⟩ a ∧ backpropagate id utility a = .ok ⟨⟩ a ∧
      Sought u own course root p x joint (withTrees y ⟨a, y.host⟩) := by
  obtain ⟨q, hat, -⟩ := h.stays
  obtain ⟨r, hroot⟩ := hat.grove.root role id (h.deeper.trees ▸ hid)
  obtain ⟨v, hn⟩ := find?_of_place? hroot.place
  obtain ⟨a, hpropagate⟩ := propagate_yields hn hunit
  have hrevalued := revalued_propagate hpropagate
  obtain ⟨v', hn'⟩ := find?_of_place? ((congrFun hrevalued.places id).trans hroot.place)
  exact ⟨a, hpropagate, backpropagate_root hn' hroot.parent, h.revalued hrevalued⟩

/-- Such a simulation has a result if the worlds can be evaluated. -/
theorem At.step_first (h : At u own course x root p) (hedges : p.edges = none)
    (hlevel : ∀ w ∈ p.belief.worlds, ∀ (role : Role) r q, x.own.memory.trees[role]? = some r →
      x.own.arena.place? r = some q → q.depth = p.depth ∧ w ∈ q.belief.worlds)
    (hvalues : ∀ w host, ∃ utilities host', x.own.evaluator.evaluateAll u.game w x.own.memory.trees.keys host =
      .ok utilities host' ∧ ∀ role ∈ x.own.memory.trees,
        ∃ utility, utilities[role]? = some utility ∧ Scalar.isUnit utility = true) :
    ∃ y, (SearchMethod.step : Deliberation MultiObserver R ε Unit) x = .ok ⟨⟩ y ∧ Deeper x y := by
  obtain ⟨w, hw, host, hselect⟩ := h.select_first hedges hlevel
  obtain ⟨utilities, host', hevaluate, hunits⟩ := hvalues w host
  let joint : JointNode := ⟨x.own.memory.trees, w⟩
  have hsought : Sought u own course root p x joint ⟨x.own, host⟩ :=
    ⟨⟨p, h.undisturbed ⟨rfl, rfl, rfl⟩, .refl p⟩, ⟨rfl, rfl, rfl, rfl, rfl, rfl, rfl, .refl⟩,
      ⟨0, h.inStep_roots (hlevel w hw), w, hw, rfl⟩, (h.grove.sound.known root p h.place).worlds w hw⟩
  have hgame : x.own.seat.game? label = .ok u.game := by rw [Seat.game?, h.game]
  have hruns : Action.Ensures (fun _ => True) (simulate : Deliberation MultiObserver R ε Unit) x
      fun _ y => Sought u own course root p x joint y := by
    unfold simulate
    refine Action.ensures_bind_of_ok Hosted.read_run ?_
    refine Action.ensures_bind_of_ok (Action.lift_of_ok hgame x) ?_
    refine Action.ensures_bind_of_ok hselect ?_
    refine (Action.ensures_forIn (I := fun _ z => Sought u own course root p x joint z ∧ z.host = host) ?_
      ⟨hsought, rfl⟩).bind fun _ z hz => ?_
    · rintro before ⟨role, id⟩ after z hl ⟨hz, rfl⟩
      have hid : joint.nodes[role]? = some id :=
        Std.ExtTreeMap.mem_toList_iff_getElem?_eq_some.1 (by rw [hl]; simp)
      obtain ⟨a, q, hexpand, hz', -⟩ := hz.expand hid
      exact Action.ensures_bind_of_ok (onArena_of_ok hexpand) (Action.ensures_of_ok rfl ⟨rfl, hz', rfl⟩)
    obtain ⟨hz, rfl⟩ := hz
    refine Action.ensures_bind_of_ok (a := z.own.evaluator) (t := z) rfl ?_
    rw [hz.deeper.evaluator]
    refine Action.ensures_bind_of_ok (Hosted.onHost_eq_ok.2 ⟨host', hevaluate, rfl⟩) ?_
    refine (Action.ensures_forIn (I := fun _ z => Sought u own course root p x joint z) ?_
      (hz.unchanged host')).bind fun _ z hz => Action.ensures_of_ok rfl hz
    rintro before ⟨role, id⟩ after z hl hz
    have hid : x.own.memory.trees[role]? = some id :=
      Std.ExtTreeMap.mem_toList_iff_getElem?_eq_some.1 (by rw [hl]; simp)
    obtain ⟨utility, hutility, hunit⟩ :=
      hunits role (Std.ExtTreeMap.mem_iff_isSome_getElem?.2 (by rw [hid]; rfl))
    obtain ⟨a, hpropagate, hback, hz'⟩ := hz.credit hid hunit
    simp only [hutility]
    refine Action.ensures_bind_of_ok (onArena_of_ok hpropagate) ?_
    exact Action.ensures_bind_of_ok (onArena_of_ok hback) (Action.ensures_of_ok rfl ⟨rfl, hz'⟩)
  obtain ⟨_, y, hrun, hy⟩ := hruns.yields
  exact ⟨y, hrun, hy.deeper⟩

/-! ## Agreement -/

/-- A node of the tree of a role is for some ply, and a world is possible there. -/
structure Holds (x : Hosted (TreeAgent MultiObserver R ε) ε) (role : Role) (depth : Int) (w : State)
    (id : NodeId) : Prop where
  below : ∃ root, x.own.memory.trees[role]? = some root ∧ x.own.arena.Leads root id
  node : ∃ n b, x.own.arena.find? id = some n ∧ n.role = role ∧ n.depth = depth ∧ n.knowledge = .belief b ∧
    w ∈ b.worlds

omit [Scalar R] [Host ε] in
lemma Holds.of_describes (hroot : x.own.memory.trees[role]? = some root)
    (h : x.own.arena.Describes root role depth w id) : Holds x role depth w id := by
  obtain ⟨q, hq, hrole, hdepth, hw⟩ := h.place
  obtain ⟨v, hn⟩ := find?_of_place? hq
  exact ⟨⟨root, hroot, h.leads⟩, q.toNode v, q.belief, hn, hrole, by rw [Place.toNode_depth, hdepth], rfl, hw⟩

/-- The nodes that a simulation ended at are one for each role but chance, in its own tree.  All are for
the same ply, and the world of the simulation is possible at each of them.  It follows a world of the
agent's own root by legal joint turns. -/
structure Agrees (game : Game) (own : Role) (x : Hosted (TreeAgent MultiObserver R ε) ε) (joint : JointNode) :
    Prop where
  roles : ∀ role : Role, role ∈ joint.nodes ↔ role ∈ game.roles ∧ role ≠ chance
  nodes : ∃ depth : Int, ∀ (role : Role) id, joint.nodes[role]? = some id → Holds x role depth joint.world id
  follows : ∃ root b, x.own.memory.trees[own]? = some root ∧ x.own.arena.belief? root = .ok b ∧
    ∃ w ∈ b.worlds, ∃ plies, game.After plies w joint.world

omit [Scalar R] [Host ε] in
lemma Sought.agrees (h : Sought u own course root p x joint y) (hx : At u own course x root p) :
    Agrees u.game own y joint := by
  obtain ⟨n, hstep, w, hw, hafter⟩ := h.reached.inStep
  obtain ⟨q, hq, halike⟩ := h.stays
  refine ⟨fun role => (hstep.roles role).trans (hx.roles role), ⟨(p.depth + n : Nat), fun role id hid => ?_⟩,
    root, q.belief, hq.planted, belief?_of_place? hq.place, w, ?_, n, hafter⟩
  swap
  · rw [halike.worlds]
    exact hw
  obtain ⟨r, -, hr, -, -⟩ := h.reached.node hid
  exact Holds.of_describes (h.deeper.trees ▸ hr) (hstep.node role r id hr hid)

/-- At every moment of a match, whatever is drawn: the nodes that a simulation ends at agree on its world,
no tree ever lacks the edge for a joint turn, and a world was located at a node of the tree at which it
is possible. -/
theorem Reachable.shares_worlds (hgame : game.AnswersOn possible) (hstart : possible game.start)
    (harguments : (controlOf own).arguments? = .ok [own]) (h : Reachable game own x) :
    (∀ joint y, (MultiObserver.select : Deliberation MultiObserver R ε JointNode) x = .ok joint y →
        Agrees game own y joint) ∧
      (x.own.selector.Spares Fault.LacksEdge → ∀ f y,
        (MultiObserver.select : Deliberation MultiObserver R ε JointNode) x = .error f y → ¬f.LacksEdge) ∧
      (x.own.selector.Spares Fault.LacksEdge → x.own.evaluator.Spares game possible Fault.LacksEdge → ∀ f y,
        (SearchMethod.step : Deliberation MultiObserver R ε Unit) x = .error f y → ¬f.LacksEdge) ∧
      ∀ role w id, x.own.memory.locations[(role, w)]? = some id → ∃ depth, Holds x role depth w id := by
  let u : Upkeep := ⟨game, possible, hgame, False, False⟩
  obtain ⟨root, p, hat, hle⟩ := Reachable.exists_at (u := u) hstart not_false not_false harguments h
  have hkind : ¬∃ f : Fault, f.LacksEdge ∧ f.kind = .mismatch := by
    rintro ⟨f, hf, hmismatch⟩
    cases f <;> first | exact hf | cases hmismatch
  refine ⟨fun joint y hrun => ?_, fun hspares f y hrun => ?_, fun hspares hevaluates f y hrun => ?_,
    fun role w id hid => ?_⟩
  · exact ((wander_ensures hat hle harguments (spares_nothing _)
      fun _ _ _ ⟨_, hf, _⟩ => hf.elim).of_ok hrun).agrees hat
  · exact (wander_ensures hat hle harguments hspares fun _ _ _ hf => (hkind hf).elim).of_error hrun
  · exact (simulate_ensures hat hle harguments hspares hevaluates
      fun _ _ _ hf => (hkind hf).elim).of_error hrun
  · obtain ⟨r, hr, hdescribes⟩ := hat.located role w id hid
    exact ⟨p.depth, Holds.of_describes hr hdescribes⟩

/-- The theorem applies at the end of the play in which a signal is given and answered: the first simulation has
expanded the roots, and the receiver's own root was then developed to the last ply. -/
theorem shares_worlds_signal : ∃ (x x' y z : Hosted (TreeAgent MultiObserver ℚ Session) Session)
    (joint : JointNode), Reachable Signal.game Signal.receiver x ∧
      (SearchMethod.step : Deliberation MultiObserver ℚ Session Unit) x = .ok ⟨⟩ x' ∧
      (SearchMethod.develop 2 ∅ : Deliberation MultiObserver ℚ Session Unit) x' = .ok ⟨⟩ y ∧
      (MultiObserver.select : Deliberation MultiObserver ℚ Session JointNode) y = .ok joint z ∧
      joint.world = Signal.answered ∧ Agrees Signal.game Signal.receiver z joint := by
  let u : Upkeep := ⟨Signal.game, fun _ => True, Signal.answers, True, False⟩
  have hsource : (Signal.replier ℚ).seat.source ⟨"signal"⟩ = .ok (some u.game) := rfl
  obtain ⟨x, hprepare, hevaluator⟩ : ∃ x,
      (TreeAgent.prepare Signal.receiver ⟨"signal"⟩ ⟨0, 0, 0⟩ ⟨0, 0, 0⟩ : Deliberation MultiObserver ℚ Session Unit)
        ⟨Signal.replier ℚ, .ofSeed 0⟩ = .ok ⟨⟩ x ∧ x.own.evaluator = .ofTable [] Scalar.half := ⟨_, rfl, rfl⟩
  have hreachable : Reachable Signal.game Signal.receiver x := .prepare rfl hsource hprepare
  obtain ⟨root, hat, hviews, hmoves⟩ :=
    At.prepare rfl hsource trivial (fun m s => s = Signal.course.state m) (fun _ hs => hs) hprepare
  obtain ⟨x', hstep, -⟩ := hat.step_first rfl (hat.level_first rfl) fun w host => by
    obtain ⟨utilities, hrun, hall⟩ :=
      Evaluator.evaluateAll_ofTable u.game w x.own.memory.trees (Scalar.half : ℚ) host
    exact ⟨utilities, host, hevaluator ▸ hrun, fun role hrole => ⟨_, hall role hrole, by decide +kernel⟩⟩
  obtain ⟨p, hat', halike, -, hviews', hmoves'⟩ := hat.step (by decide) rfl hstep
  -- the own root is two plies behind the end of the play
  have hdepth : p.depth = 0 := halike.depth
  have hworlds : ∀ w ∈ p.belief.worlds, u.game.After p.depth Signal.silent w := fun w hw => by
    rw [halike.worlds] at hw
    rw [hdepth]
    exact (StateSet.mem_singleton.1 hw).symm
  have hbegins : p.Trails u 0 Signal.silent :=
    Place.trails_of_mem hdepth (halike.worlds ▸ StateSet.mem_singleton.2 rfl) halike.move
  have htrails : p.Trails u 2 (Signal.course.state 2) :=
    (hbegins.step (Signal.played 0 (by decide))).step (Signal.played 1 (by decide))
  have hfew : ∀ t, p.ahead u (2 - p.depth) t → t ∈ [Signal.answered] := fun t ht => by
    have hafter := Place.after_ahead hworlds ht
    rw [hdepth] at hafter
    exact List.mem_singleton.2 (Signal.answered_of_after hafter)
  have hview : Signal.game.viewOf Signal.answered Signal.receiver = ∅ := rfl
  obtain ⟨y, k, q, hdevelop, hat₂, hcomplete, hlast⟩ := hat'.develop_complete htrails trivial trivial not_false
    (by decide) hview halike.isComplete hfew (by decide) fun t ht _ => by
      rw [List.mem_singleton.1 ht]
      rfl
  have hremembers : Remembers Signal.receiver Signal.course x'.own.memory :=
    ⟨fun ply view h => by simp [hviews', hviews] at h, fun ply move h => by simp [hmoves', hmoves] at h⟩
  have htrail : Trail u Signal.receiver Signal.course 2 x' := ⟨⟨root, p, hat', htrails⟩, hremembers⟩
  have hready := htrail.develop trivial trivial not_false (by decide) rfl hdevelop (hat₂.covers hcomplete _)
  have hlevel : q.depth = 2 := by
    obtain ⟨k', q', hat₃, hlevel, -⟩ := hready.trees
    cases hat₂.planted.symm.trans hat₃.planted
    cases hat₂.place.symm.trans hat₃.place
    exact hlevel
  obtain ⟨joint, z, hselect, hworld⟩ := hat₂.select_over (by omega)
    (fun w hw => by
      rw [List.mem_singleton.1 (hlast w hw)]
      rfl)
    fun w hw => by
      rw [List.mem_singleton.1 (hlast w hw), hlevel]
      exact hready.locatable Signal.played
  have hreachable' : Reachable Signal.game Signal.receiver y :=
    (hreachable.search (.simulates (.step .refl hstep))).develop (by decide) hdevelop
  obtain ⟨hagrees, -⟩ := hreachable'.shares_worlds Signal.answers trivial rfl
  exact ⟨x, x', y, z, joint, hreachable, hstep, hdevelop, hselect, List.mem_singleton.1 (hlast _ hworld),
    hagrees joint z hselect⟩

end MultiObserver

end GameSearch
