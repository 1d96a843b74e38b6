import GameSearch.Agent.SingleObserver
import GameSearch.Proofs.Agent.Attendance
import GameSearch.Proofs.Belief.Representation
import GameSearch.Proofs.Belief.Tracking
import GameSearch.Session

/-!
# The belief of an agent that searches from its own point of view

Over a whole match the root of the agent's tree keeps track of the play.  `SingleObserver.Run` are the
ways in which the agent and the play can go on, `Run.follows` is what they keep, and
`Run.develop` says what the agent believes when it is to move.
-/

namespace GameSearch

namespace Arena

variable {R : Type} {u : Upkeep} {a a' : Arena R} {root : NodeId} {p : Place}

lemma Rooted.revalued (h : Rooted u a root p) (hrevalued : Revalued a a') : Rooted u a' root p :=
  ⟨hrevalued.sound h.sound, by rw [hrevalued.places, h.place], h.parent⟩

end Arena

/-! ## A game of two moves -/

namespace Dial

/-- The one who turns the dial. -/
def turner : Role := .symbol "turner"

def left : Move := .symbol "turn-left"

def right : Move := .symbol "turn-right"

/-- The dial has not been turned yet. -/
def still : State := .ofList [controlOf turner]

/-- The dial has been turned once. -/
def turned (move : Move) : State := .ofList [controlOf turner, move]

def ended : State := .ofList [.symbol "ended"]

def isOpen (s : State) : Bool := s = still || s = turned left || s = turned right

/-- A dial is turned twice by one who does not see it. -/
def game : Game where
  roles := [turner]
  start := still
  sees _ := .ok ∅
  legal _ := .ok ((∅ : ByRole (List Move)).insert turner [left, right])
  goals _ := .ok ∅
  isTerminal s := .ok (!isOpen s)
  play s turn := .ok (if s = still then turned (if turn.contains turner left then left else right) else ended)

lemma successors?_still :
    game.successors? still = .ok [(.single turner left, turned left), (.single turner right, turned right)] := by
  rfl

lemma successors?_turned {move : Move} (h : move = left ∨ move = right) :
    game.successors? (turned move) = .ok [(.single turner left, ended), (.single turner right, ended)] := by
  rcases h with rfl | rfl <;> rfl

lemma successors?_of_over {s : State} (h : isOpen s = false) : game.successors? s = .ok [] :=
  Game.successors?_of_isTerminal (by simp [game, h])

lemma answers : game.AnswersOn fun _ => True where
  sees _ _ := ⟨_, rfl⟩
  legal _ _ := ⟨_, rfl⟩
  goals _ _ := ⟨_, rfl⟩
  isTerminal _ _ := ⟨_, rfl⟩
  successors s _ := by
    cases hopen : isOpen s with
    | false => exact ⟨_, successors?_of_over hopen⟩
    | true =>
      simp only [isOpen, Bool.or_eq_true, decide_eq_true_eq, or_assoc] at hopen
      rcases hopen with rfl | rfl | rfl
      · exact ⟨_, successors?_still⟩
      · exact ⟨_, successors?_turned (.inl rfl)⟩
      · exact ⟨_, successors?_turned (.inr rfl)⟩
  closed _ _ _ _ := trivial

lemma transitions_still : game.transitions still =
    [(.single turner left, turned left), (.single turner right, turned right)] :=
  Game.transitions_of_ok successors?_still

/-- The states of a play: the dial is turned at the first two plies. -/
lemma cases_of_after {n : Nat} {s : State} (h : game.After n still s) :
    (n = 0 ∧ s = still) ∨ (n = 1 ∧ (s = turned left ∨ s = turned right)) ∨ (2 ≤ n ∧ s = ended) := by
  induction n generalizing s with
  | zero => exact .inl ⟨rfl, h.symm⟩
  | succ n ih =>
    obtain ⟨t, ht, step, hstep, rfl⟩ := Game.after_succ.1 h
    rcases ih ht with ⟨rfl, rfl⟩ | ⟨rfl, hturned⟩ | ⟨-, rfl⟩
    · rw [transitions_still] at hstep
      rcases List.mem_pair.1 hstep with rfl | rfl
      · exact .inr (.inl ⟨rfl, .inl rfl⟩)
      · exact .inr (.inl ⟨rfl, .inr rfl⟩)
    · have hover : step.2 = ended := by
        rcases hturned with rfl | rfl
        · rw [Game.transitions_of_ok (successors?_turned (.inl rfl))] at hstep
          rcases List.mem_pair.1 hstep with rfl | rfl <;> rfl
        · rw [Game.transitions_of_ok (successors?_turned (.inr rfl))] at hstep
          rcases List.mem_pair.1 hstep with rfl | rfl <;> rfl
      exact .inr (.inr ⟨Nat.le_refl 2, hover⟩)
    · rw [Game.transitions_of_ok (successors?_of_over rfl)] at hstep
      cases hstep

/-- The turner is in control at the first two plies, and at no other. -/
lemma isInControl_of_after {n : Nat} {s : State} (h : game.After n still s) :
    s.isInControl turner = decide (n < 2) := by
  rcases cases_of_after h with ⟨rfl, rfl⟩ | ⟨rfl, rfl | rfl⟩ | ⟨hn, rfl⟩
  · rfl
  · rfl
  · rfl
  · rw [decide_eq_false (Nat.not_lt.2 hn)]
    rfl

lemma regular : game.Regular turner where
  seen _ _ _ hs ht _ := (isInControl_of_after hs).trans (isInControl_of_after ht).symm
  timed _ _ _ hs ht _ _ := (isInControl_of_after hs).trans (isInControl_of_after ht).symm

lemma idle_of_over {n : Nat} {s : State} (hs : game.After n still s) (hover : game.isTerminal s = .ok true) :
    s.isInControl turner = false := by
  rcases cases_of_after hs with ⟨-, rfl⟩ | ⟨-, rfl | rfl⟩ | ⟨-, rfl⟩
  · cases hover
  · cases hover
  · cases hover
  · rfl

/-- One who recollects the own move knows how the dial was turned. -/
lemma turned_of_possible {s : State} (h : game.Possible turner [some (∅, left)] s) : s = turned left := by
  obtain ⟨t, rfl, -, step, hstep, rfl, hmove⟩ := h
  rw [show game.start = still from rfl, transitions_still] at hstep
  rcases List.mem_pair.1 hstep with rfl | rfl
  · rfl
  · exact absurd hmove (by decide)

end Dial

namespace SingleObserver

open TreeAgent

variable {R ε : Type} {u : Upkeep} {role : Role} {known : Recollection} {root leaf k : NodeId}
  {p q : Place} {view : View} {move : Move} {w w' : State}

/-! ## Simulations -/

variable [Scalar R]

lemma descend_leads [Dice ε] {selector : Selector R ε} {fuel : Nat} {s t : Hosted (Arena R) ε}
    (h : descend selector fuel root w s = .ok (leaf, w') t) :
    t.own = s.own ∧ s.own.Leads root leaf := by
  induction fuel generalizing root w s with
  | zero => cases h
  | succ fuel ih =>
    rw [descend] at h
    obtain ⟨a, s₁, hget, h₁⟩ := Action.bind_eq_ok.1 h
    obtain ⟨own, hget, rfl⟩ := Hosted.onOwn_eq_ok.1 hget
    cases hget
    obtain ⟨b, s₂, hbelief, h₂⟩ := Action.bind_eq_ok.1 h₁
    obtain ⟨-, rfl⟩ := Action.lift_eq_ok.1 hbelief
    split at h₂
    · cases h₂
      exact ⟨rfl, .refl⟩
    · obtain ⟨edges, s₃, hlift, h₃⟩ := Action.bind_eq_ok.1 h₂
      obtain ⟨hedges, rfl⟩ := Action.lift_eq_ok.1 hlift
      split at h₃
      · cases h₃
        exact ⟨rfl, .refl⟩
      · obtain ⟨key, s₄, hkey, h₄⟩ := Action.bind_eq_ok.1 h₃
        obtain ⟨host₁, -, rfl⟩ := Hosted.onHost_eq_ok.1 hkey
        obtain ⟨e, s₅, he, h₅⟩ := Action.bind_eq_ok.1 h₄
        obtain ⟨host₂, hchoose, rfl⟩ := Hosted.onHost_eq_ok.1 he
        obtain ⟨hown, hleads⟩ := ih h₅
        have hin := Dice.mem_of_choose hchoose
        rw [Array.toList_filter, List.mem_filter, ← Arena.edgesOf_of_edges? hedges] at hin
        exact ⟨hown, .trans (.step .refl hin.1) hleads⟩

/-- A simulation leaves the root and its worlds as they are, and one of them is expanded after it. -/
lemma simulate_keeps [Dice ε] {selector : Selector R ε} {evaluator : Evaluator R ε}
    {s t : Hosted (Arena R) ε} (hrooted : Arena.Rooted u s.own root p)
    (h : simulate u.game selector evaluator root s = .ok ⟨⟩ t) :
    ∃ q, Arena.Rooted u t.own root q ∧ p.Alike q ∧ q.Begun := by
  obtain ⟨n, s₁, hn, h₁⟩ := Action.bind_eq_ok.1 h
  obtain ⟨a₁, hnode, rfl⟩ := Hosted.onOwn_eq_ok.1 hn
  obtain ⟨-, rfl⟩ := Arena.node_eq_ok.1 hnode
  obtain ⟨w, s₂, hw, h₂⟩ := Action.bind_eq_ok.1 h₁
  obtain ⟨host₁, -, rfl⟩ := Hosted.onHost_eq_ok.1 hw
  obtain ⟨bound, s₃, hbound, h₃⟩ := Action.bind_eq_ok.1 h₂
  obtain ⟨a₂, hget, rfl⟩ := Hosted.onOwn_eq_ok.1 hbound
  cases hget
  obtain ⟨⟨leaf, w'⟩, s₄, hdescend, h₄⟩ := Action.bind_eq_ok.1 h₃
  obtain ⟨hown, hleads⟩ := descend_leads hdescend
  obtain ⟨_, s₅, hexpand, h₅⟩ := Action.bind_eq_ok.1 h₄
  obtain ⟨a₃, hgrow, rfl⟩ := Hosted.onOwn_eq_ok.1 hexpand
  obtain ⟨utility, s₆, hevaluate, h₆⟩ := Action.bind_eq_ok.1 h₅
  obtain ⟨a₄, hback, rfl⟩ := Hosted.onOwn_eq_ok.1 h₆
  rw [hown] at hgrow
  obtain ⟨q, hrooted', halike, hbegun⟩ := hrooted.expandWorld_below hleads hgrow
  exact ⟨q, (hrooted'.revalued (Arena.revalued_evaluate hevaluate)).revalued
    (Arena.revalued_backpropagate hback), halike, hbegun⟩

/-! ## The tree of an agent -/

/-- An agent that plays a game has a tree with some place at its root. -/
structure At (u : Upkeep) (x : Hosted (TreeAgent SingleObserver R ε) ε) (root : NodeId) (p : Place) :
    Prop where
  game : x.own.seat.game = some u.game
  memory : x.own.memory = ⟨⟨some root⟩⟩
  rooted : Arena.Rooted u x.own.arena root p

variable {x y : Hosted (TreeAgent SingleObserver R ε) ε}

omit [Scalar R] in
lemma At.root_run (h : At u x root p) : SingleObserver.root x = .ok root x := by
  unfold SingleObserver.root
  rw [Action.bind_of_ok memorized_run, h.memory]
  rfl

omit [Scalar R] in
/-- A node is made the root of the tree. -/
lemma reroot_run {a : Arena R} (h : Arena.reroot k x.own.arena = .ok ⟨⟩ a) :
    SingleObserver.reroot k x =
      .ok ⟨⟩ (withTrees (withMemory x ⟨⟨some k⟩⟩) ⟨a, x.host⟩) := by
  unfold SingleObserver.reroot
  rw [Action.bind_of_ok (remember_run _)]
  exact onArena_of_ok (x := withMemory x ⟨⟨some k⟩⟩) h

variable [Host ε]

/-- A step of the search is a simulation in the tree. -/
lemma At.step_eq_ok (h : At u x root p)
    (hstep : (SearchMethod.step : Deliberation SingleObserver R ε Unit) x = .ok ⟨⟩ y) :
    ∃ t, simulate u.game x.own.selector x.own.evaluator root (trees x) = .ok ⟨⟩ t ∧ y = withTrees x t := by
  obtain ⟨agent, x₁, hread, h₁⟩ := Action.bind_eq_ok.1 hstep
  cases hread
  obtain ⟨game, x₂, hgame, h₂⟩ := Action.bind_eq_ok.1 h₁
  obtain ⟨hgame, rfl⟩ := Action.lift_eq_ok.1 hgame
  rw [Seat.game?, h.game] at hgame
  cases hgame
  obtain ⟨selector, x₃, hselector, h₃⟩ := Action.bind_eq_ok.1 h₂
  cases hselector
  obtain ⟨evaluator, x₄, hevaluator, h₄⟩ := Action.bind_eq_ok.1 h₃
  cases hevaluator
  obtain ⟨root', x₅, hroot, h₅⟩ := Action.bind_eq_ok.1 h₄
  rw [h.root_run] at hroot
  cases hroot
  exact onTrees_eq_ok.1 h₅

/-- A simulation leaves the root and its worlds as they are, and one of them is expanded after it. -/
theorem At.step (h : At u x root p)
    (hstep : (SearchMethod.step : Deliberation SingleObserver R ε Unit) x = .ok ⟨⟩ y) :
    ∃ q, At u y root q ∧ p.Alike q ∧ q.Begun := by
  obtain ⟨t, hsimulate, rfl⟩ := h.step_eq_ok hstep
  obtain ⟨q, hrooted, halike, hbegun⟩ := simulate_keeps h.rooted hsimulate
  exact ⟨q, ⟨h.game, h.memory, hrooted⟩, halike, hbegun⟩

lemma At.develop_run (h : At u x root p) (ply : Int) (view : View) :
    (SearchMethod.develop ply view : Deliberation SingleObserver R ε Unit) x =
      (TreeAgent.onTrees (Arena.develop u.game root ply view) >>= SingleObserver.reroot) x := by
  obtain ⟨v, hnode⟩ := Arena.node_run h.rooted.place
  have hgame : (liftM (x.own.seat.game? "sois-mcts") : Deliberation SingleObserver R ε Game) x =
      .ok u.game x := by
    rw [Seat.game?, h.game]
    rfl
  refine (Action.bind_of_ok h.root_run).trans ((Action.bind_of_ok (onArena_of_ok hnode)).trans ?_)
  exact (Action.bind_of_ok Hosted.read_run).trans (Action.bind_of_ok hgame)

/-- Developing the tree of an agent makes the node that was found its root. -/
theorem At.develop_cases {ply : Int} (h : At u x root p) (hstart : u.states u.game.start)
    (hply : (p.depth : Int) ≤ ply) (hle : ply ≤ 2147483647) (view : View)
    (hrecalls : u.recalls → ∀ q, p.Meets u ply view (p.observedUpTo ply view) q →
      ((p.depth : Int) = ply → p.belief.view? = some view → q = p) →
      q.edges = none ∨ q.belief.history = p.observedUpTo ply view) :
    (∃ y k q q', (SearchMethod.develop ply view : Deliberation SingleObserver R ε Unit) x = .ok ⟨⟩ y ∧
        At u y k q'.detached ∧ p.Meets u ply view (p.observedUpTo ply view) q ∧
        (q.recording (p.observedUpTo ply view)).Limited q' ∧ q'.role = p.role ∧ (q'.depth : Int) = ply) ∨
      ∃ y f, (SearchMethod.develop ply view : Deliberation SingleObserver R ε Unit) x = .error f y ∧
        p.Unmet u ply view (p.observedUpTo ply view) f := by
  rw [h.develop_run]
  rcases Arena.develop_cases view x.host h.rooted.sound h.rooted.place hstart hply hle hrecalls with
    ⟨a₁, host, k, q, q', hdevelop, hreached, hmeets, hlimited⟩ | ⟨a₁, f, hdevelop, hunmet⟩
  · obtain ⟨a₂, hreroot, hsound, hself⟩ := hreached.sound.reroot hreached.place
    have hrun := (Action.bind_of_ok (f := SingleObserver.reroot)
      (onTrees_of_ok (x := x) hdevelop)).trans (reroot_run hreroot)
    exact .inl ⟨_, k, q, q', hrun, ⟨h.game, rfl, hsound, hself, rfl⟩, hmeets, hlimited,
      hreached.owner, hreached.level⟩
  · exact .inr ⟨_, f, Action.bind_of_error (onTrees_of_error (x := x) hdevelop), hunmet⟩

/-- Committing an agent to a move makes the only child of the root the new root, if there is one. -/
theorem At.commit (h : At u x root p) (move : Move) (hmove : p.move = none ∨ p.move = some move ∨ ¬u.steady) :
    ∃ y q k r T, (SearchMethod.commit move : Deliberation SingleObserver R ε Unit) x = .ok ⟨⟩ y ∧
      At u y k r.detached ∧ (p.committed move).Trimmed q ∧ q.Sound u T root ∧ T k = some r ∧
      (r = q ∨ q.SoleChild k) := by
  obtain ⟨a', q, hrun, hrooted, htrimmed, -⟩ := h.rooted.commit hmove
  obtain ⟨_, a₁, hcommit, htrim⟩ := Action.bind_eq_ok.1 hrun
  have hsound := hrooted.sound.kept root q hrooted.place (by simp)
  have hgoes : ∃ k r, a'.soleChild? root = .ok k ∧ a'.place? k = some r ∧ (r = q ∨ q.SoleChild k) := by
    rcases Arena.soleChild?_cases hrooted.place hsound.expanded with hsame | ⟨k, hchild, hsole⟩
    · exact ⟨root, q, hsame, hrooted.place, .inl rfl⟩
    · obtain ⟨e, he⟩ := List.exists_mem_of_ne_nil _ hsole.nonempty
      obtain ⟨c, hc, -⟩ := hsound.child e he
      rw [hsole.child e he] at hc
      exact ⟨k, c, hchild, hc, .inr hsole⟩
  obtain ⟨k, r, hchild, hr, hcases⟩ := hgoes
  obtain ⟨a₂, hreroot, hsound₂, hself⟩ := (hrooted.sound.soundBelow hr).reroot hr
  have hrun₁ : (TreeAgent.onArena (Arena.commit root move) : Deliberation SingleObserver R ε Unit) x =
      .ok ⟨⟩ (withTrees x ⟨a₁, x.host⟩) := onArena_of_ok hcommit
  have hrun₂ : (TreeAgent.onArena (Arena.trim root) : Deliberation SingleObserver R ε Unit)
      (withTrees x ⟨a₁, x.host⟩) = .ok ⟨⟩ (withTrees x ⟨a', x.host⟩) := onArena_of_ok htrim
  have hrun₃ : (TreeAgent.onArena get : Deliberation SingleObserver R ε (Arena R))
      (withTrees x ⟨a', x.host⟩) = .ok a' (withTrees x ⟨a', x.host⟩) := onArena_of_ok rfl
  have hrun₄ : (SingleObserver.reroot k : Deliberation SingleObserver R ε Unit)
      (withTrees x ⟨a', x.host⟩) = .ok ⟨⟩ (withTrees (withMemory x ⟨⟨some k⟩⟩) ⟨a₂, x.host⟩) :=
    reroot_run hreroot
  refine ⟨withTrees (withMemory x ⟨⟨some k⟩⟩) ⟨a₂, x.host⟩, q, k, r, a'.place?, ?_,
    ⟨h.game, rfl, hsound₂, hself, rfl⟩, htrimmed, hsound, hr, hcases⟩
  exact (Action.bind_of_ok h.root_run).trans <| (Action.bind_of_ok hrun₁).trans <|
    (Action.bind_of_ok hrun₂).trans <| (Action.bind_of_ok hrun₃).trans <|
    (Action.bind_of_ok (Action.lift_of_ok hchild _)).trans hrun₄

/-- When a match begins, the root is what the role believes in the initial state. -/
theorem At.prepare (role : Role) {ruleset : Ruleset} (startClock playClock : Clock.Settings Binary64)
    (hsource : x.own.seat.source ruleset = .ok (some u.game)) (hstart : u.states u.game.start) :
    ∃ y root, (TreeAgent.prepare role ruleset startClock playClock :
        Deliberation SingleObserver R ε Unit) x = .ok ⟨⟩ y ∧
      At u y root (Arena.firstPlace u.game role) := by
  have hempty : (∅ : Arena R).AllSound u := Arena.sound_empty
  obtain ⟨n, root, a', hbelief, hadd, -, hsound, hplaces⟩ :=
    Arena.firstBelief?_yields hempty hstart role
  have hself : a'.place? root = some (Arena.firstPlace u.game role) := by
    rw [hplaces, Function.update_self]
  let z := seated x u.game role startClock playClock
  refine ⟨withMemory (withTrees z ⟨a', x.host⟩) ⟨⟨some root⟩⟩, root, ?_, rfl, rfl, hsound, hself, rfl⟩
  rw [prepare_run startClock playClock hsource]
  refine (Action.bind_of_ok (gameAndRole_run rfl rfl _)).trans ?_
  refine (Action.bind_of_ok (Action.lift_of_ok hbelief z)).trans ?_
  exact (Action.bind_of_ok (onArena_of_ok hadd)).trans (remember_run _)

/-! ## Matches -/

omit [Scalar R] [Host ε] in
/-- What a role believes in the initial state keeps track of a play that has not begun. -/
lemma tracks_firstPlace : (Arena.firstPlace u.game role).Tracks u role [] := by
  have hmem : ∀ s, s ∈ (Arena.firstPlace u.game role).belief.worlds ↔ s = u.game.start :=
    fun s => StateSet.mem_singleton
  refine ⟨rfl, Nat.le_refl 0, fun s hs => ((hmem s).1 hs).symm, fun s hs => (hmem s).1 hs,
    fun _ s hs => (hmem s).2 hs, fun n _ hn => absurd hn (Nat.not_lt_zero n), .inr ⟨rfl, fun s hs => ?_,
    fun h => absurd h (Nat.lt_irrefl 0), .inr ⟨rfl, rfl, rfl⟩⟩⟩
  rw [(hmem s).1 hs]
  rfl

/-- The ways in which a play of a game and an agent of a role go on, and what the role recollects of
them.  Whenever the role is to move, the agent develops its tree to the present ply and the view of the
role, does some simulations, and is committed to the move that the role makes. -/
inductive Run (game : Game) (role : Role) :
    Recollection → State → Hosted (TreeAgent SingleObserver R ε) ε → Prop
  | prepare {ruleset : Ruleset} {startClock playClock : Clock.Settings Binary64}
      {x y : Hosted (TreeAgent SingleObserver R ε) ε} :
      x.own.seat.source ruleset = .ok (some game) →
      (TreeAgent.prepare role ruleset startClock playClock : Deliberation SingleObserver R ε Unit) x =
        .ok ⟨⟩ y → Run game role [] game.start y
  | elsewhere {known : Recollection} {s : State} {x y : Hosted (TreeAgent SingleObserver R ε) ε} :
      Run game role known s x → Undisturbed x y → Run game role known s y
  | watch {known : Recollection} {s : State} {step : Turn × State}
      {x : Hosted (TreeAgent SingleObserver R ε) ε} :
      Run game role known s x → s.isInControl role = false → step ∈ game.transitions s →
      Run game role (none :: known) step.2 x
  | move {known : Recollection} {k : Nat} {s : State} {step : Turn × State} {view : View} {move : Move}
      {x y y' z : Hosted (TreeAgent SingleObserver R ε) ε} :
      Run game role known s x → s.isInControl role = true → game.view? s role = .ok view →
      (SearchMethod.develop known.length view : Deliberation SingleObserver R ε Unit) x = .ok ⟨⟩ y →
      Simulates k y y' → (SearchMethod.commit move : Deliberation SingleObserver R ε Unit) y' = .ok ⟨⟩ z →
      step ∈ game.transitions s → step.1.find? role = some move →
      Run game role (some (view, move) :: known) step.2 z

omit [Scalar R] [Host ε] in
lemma At.undisturbed (h : At u x root p) (hxy : Undisturbed x y) : At u y root p :=
  ⟨by rw [hxy.seat, h.game], hxy.memory.trans h.memory, by rw [hxy.arena]; exact h.rooted⟩

/-- Simulations leave the root and its worlds as they are, and one of them is expanded after the first. -/
lemma At.simulates {k : Nat} (h : At u x root p) (hsimulates : Simulates k x y) :
    ∃ q, At u y root q ∧ p.Alike q ∧ (0 < k → q.Begun) := by
  induction hsimulates with
  | refl => exact ⟨p, h, .refl p, fun hk => absurd hk (Nat.lt_irrefl 0)⟩
  | step _ hstep ih =>
    obtain ⟨q, hq, halike, -⟩ := ih h
    obtain ⟨r, hr, halike', hbegun⟩ := hq.step hstep
    exact ⟨r, hr, halike.trans halike', fun _ => hbegun⟩
  | elsewhere _ hxy ih =>
    obtain ⟨q, hq, halike, hbegun⟩ := ih h
    exact ⟨q, hq.undisturbed hxy, halike, hbegun⟩

variable {s : State}

/-- An agent that keeps track of the play finds what it is to know when it is to move, unless its root
is misled. -/
theorem At.develop (h : At u x root p) (htracks : p.Tracks u role known) (hstart : u.states u.game.start)
    (hregular : u.game.Regular role) (hsteady : u.steady) (hs : Place.ToMove u role known s)
    (hview : u.game.viewOf s role = view) (hle : (known.length : Int) ≤ 2147483647) :
    (¬p.Misled known ∧ ∃ y k q, (SearchMethod.develop known.length view :
        Deliberation SingleObserver R ε Unit) x = .ok ⟨⟩ y ∧ At u y k q ∧
        q.Ready u role known view ∧ q.belief.worlds.size ≤ Arena.maxWorlds) ∨
      p.Misled known ∧ ∃ y f, (SearchMethod.develop known.length view :
        Deliberation SingleObserver R ε Unit) x = .error f y ∧ f.kind = .mismatch := by
  have hply : (p.depth : Int) ≤ known.length := Int.ofNat_le.2 htracks.depth
  rcases h.develop_cases hstart hply hle view fun hr q hmeets hsame =>
      htracks.recalls_of_meets hregular hstart hs hview hr hmeets hsame with
    ⟨y, k, q, q', hrun, hat, hmeets, hlimited, howner, hdepth⟩ | ⟨y, f, hrun, hunmet⟩
  · have hmisled : ¬p.Misled known := fun hmisled =>
      htracks.not_meets hregular hmisled hs.possible hmeets
    rw [htracks.observedUpTo_eq hmisled] at hlimited
    have hholds := htracks.holds hregular hsteady hmisled hs hview hmeets
    exact .inl ⟨hmisled, y, k, q'.detached, hrun, hat,
      hholds.ready (howner.trans htracks.owner) (by omega) hlimited, hlimited.size_le⟩
  · by_cases hmisled : p.Misled known
    · exact .inr ⟨hmisled, y, f, hrun, htracks.mismatch_of_misled hregular hmisled hs.possible hunmet⟩
    · exact absurd hunmet (htracks.not_unmet hregular hsteady hmisled hs hview)

/-- An agent that is committed to a move keeps track of the play after the move. -/
theorem At.commits (h : At u x root p) (hready : p.Ready u role known view) (hsteady : u.steady)
    (hrecalls : u.recalls)
    (hrun : (SearchMethod.commit move : Deliberation SingleObserver R ε Unit) x = .ok ⟨⟩ y) :
    ∃ k q, At u y k q ∧ q.Tracks u role (some (view, move) :: known) := by
  obtain ⟨y', q, k, r, T, hrun', hat, htrimmed, hsound, hr, hcases⟩ :=
    h.commit move (.inl hready.holds.move)
  rw [hrun] at hrun'
  cases hrun'
  have hcommitted := hready.committed htrimmed
  refine ⟨k, r.detached, hat, Place.Tracks.detached ?_⟩
  rcases hcases with rfl | hsole
  · exact hcommitted.tracks
  · exact hcommitted.tracks_child hsteady hrecalls hsound hsole.expanded hsole.child hsole.nonempty hr

/-- The root keeps track of the play as long as the match goes on. -/
theorem Run.tracks (hstart : u.states u.game.start) (hregular : u.game.Regular role) (hsteady : u.steady)
    (hrecalls : u.recalls) (hle : (known.length : Int) ≤ 2147483647) (h : Run u.game role known s x) :
    u.game.Possible role known s ∧ ∃ root p, At u x root p ∧ p.Tracks u role known := by
  induction h with
  | prepare hsource hprepare =>
    obtain ⟨y, root, hrun, hat⟩ := At.prepare role _ _ hsource hstart
    rw [hprepare] at hrun
    cases hrun
    exact ⟨rfl, root, _, hat, tracks_firstPlace⟩
  | elsewhere _ hxy ih =>
    obtain ⟨hs, root, p, hat, htracks⟩ := ih hle
    exact ⟨hs, root, p, hat.undisturbed hxy, htracks⟩
  | @watch known s step x _ hcontrol hstep ih =>
    obtain ⟨hs, root, p, hat, htracks⟩ := ih (by rw [List.length_cons] at hle; omega)
    refine ⟨⟨s, hs, step, hstep, rfl⟩, root, p, hat, htracks.watch ?_⟩
    exact hregular.idle (Recollection.after_of_possible hs) (Game.isTerminal_of_mem_transitions hstep)
      hcontrol
  | @move known _ s step view move x y y' z _ hcontrol hview hdevelop hsimulates hcommit hstep hmove ih =>
    have hle' : (known.length : Int) ≤ 2147483647 := by
      rw [List.length_cons] at hle
      omega
    obtain ⟨hs, root, p, hat, htracks⟩ := ih hle'
    have hstates := u.answers.after hstart (Recollection.after_of_possible hs)
    rw [u.answers.view? hstates, Except.ok.injEq] at hview
    have htomove : Place.ToMove u role known s := ⟨hs, hcontrol, Game.isTerminal_of_mem_transitions hstep⟩
    rcases hat.develop htracks hstart hregular hsteady htomove hview hle' with
      ⟨-, y₁, k, q, hrun, hat₁, hready, -⟩ | ⟨-, y₁, f, hrun, -⟩
    · rw [hdevelop] at hrun
      cases hrun
      obtain ⟨q', hat₂, halike, -⟩ := hat₁.simulates hsimulates
      obtain ⟨k', r, hat₃, htracks'⟩ := hat₂.commits (hready.congr halike) hsteady hrecalls hcommit
      exact ⟨⟨s, hs, hview, step, hstep, rfl, hmove⟩, k', r, hat₃, htracks'⟩
    · rw [hdevelop] at hrun
      cases hrun

/-- The root is for a ply before the present one, at which the role seems to be in control without
having been committed to a move. -/
def Astray (known : Recollection) (x : Hosted (TreeAgent SingleObserver R ε) ε) : Prop :=
  ∃ root n b, x.own.memory.tree.root = some root ∧ x.own.arena.find? root = some n ∧
    n.knowledge = .belief b ∧ n.depth < known.length ∧ b.isVisible = true ∧ n.move = none

/-- A node is for a ply at which a role has a view, and its worlds are states that the role deems
possible there: all of them, or a sample. -/
structure Grasps (game : Game) (role : Role) (known : Recollection) (view : View) (n : Node R)
    (b : Belief) : Prop where
  knowledge : n.knowledge = .belief b
  depth : n.depth = known.length
  size_pos : 1 ≤ b.worlds.size
  size_le : b.worlds.size ≤ 256
  possible : ∀ t ∈ b.worlds, game.Possible role known t ∧ game.viewOf t role = view
  all : b.isComplete = true → ∀ t, game.Possible role known t → game.viewOf t role = view → t ∈ b.worlds

omit [Scalar R] [Host ε] in
lemma At.astray_iff (h : At u x root p) : Astray known x ↔ p.Misled known := by
  obtain ⟨v, hn⟩ := Arena.find?_of_place? h.rooted.place
  constructor
  · rintro ⟨root', n, b, hroot, hn', hb, hrest⟩
    rw [h.memory] at hroot
    cases hroot
    rw [hn] at hn'
    cases hn'
    cases hb
    exact hrest
  · intro hmisled
    exact ⟨root, p.toNode v, p.belief, by rw [h.memory], hn, rfl, hmisled⟩

omit [Scalar R] in
lemma grasps_of_ready {v : Option (Valuation R)} (hready : p.Ready u role known view)
    (hsize : p.belief.worlds.size ≤ Arena.maxWorlds) :
    Grasps u.game role known view (p.toNode v) p.belief :=
  ⟨rfl, hready.depth, p.belief.one_le_size, hsize, hready.holds.possible, hready.holds.all⟩

/-- What an agent believes when it is to move, in any run of a match: its root has worlds that all agree
with what the role recollects and sees, and unless they are a sample they are all such states.  Only
if the root is astray, the tree cannot be developed.  Then the root is a sample, and the play would be
over in each of its worlds with the role still in control. -/
theorem Run.develop_grasps {game : Game} {possible : State → Prop} (hgame : game.AnswersOn possible)
    (hstart : possible game.start) (hregular : game.Regular role) (h : Run game role known s x)
    (hcontrol : s.isInControl role = true) (hongoing : game.isTerminal s = .ok false)
    (hview : game.view? s role = .ok view) (hle : (known.length : Int) ≤ 2147483647) :
    (¬Astray known x → ∃ y root n b, (SearchMethod.develop known.length view :
        Deliberation SingleObserver R ε Unit) x = .ok ⟨⟩ y ∧ y.own.memory.tree.root = some root ∧
        y.own.arena.find? root = some n ∧ Grasps game role known view n b ∧
        (b.isComplete = true → s ∈ b.worlds)) ∧
      (Astray known x → ∃ y f, (SearchMethod.develop known.length view :
        Deliberation SingleObserver R ε Unit) x = .error f y ∧ f.kind = .mismatch) ∧
      (Astray known x → ∃ root n b, x.own.memory.tree.root = some root ∧
        x.own.arena.find? root = some n ∧ n.knowledge = .belief b ∧ b.isComplete = false ∧
        ∀ w ∈ b.worlds, game.After n.depth game.start w ∧ game.isTerminal w = .ok true ∧
          w.isInControl role = true) := by
  let u : Upkeep := ⟨game, possible, hgame, True, True⟩
  obtain ⟨hs, root, p, hat, htracks⟩ := Run.tracks (u := u) hstart hregular trivial trivial hle h
  rw [hgame.view? (hgame.after hstart (Recollection.after_of_possible hs)), Except.ok.injEq] at hview
  have hdevelop := hat.develop htracks hstart hregular trivial ⟨hs, hcontrol, hongoing⟩ hview hle
  rw [hat.astray_iff]
  refine ⟨fun hmisled => ?_, fun hmisled => ?_, fun hmisled => ?_⟩
  · rcases hdevelop with ⟨-, y, k, q, hrun, hat', hready, hsize⟩ | ⟨hmisled', -⟩
    · obtain ⟨v, hn⟩ := Arena.find?_of_place? hat'.rooted.place
      exact ⟨y, k, q.toNode v, q.belief, hrun, by rw [hat'.memory], hn, grasps_of_ready hready hsize,
        fun hcomplete => hready.holds.all hcomplete s hs hview⟩
    · exact absurd hmisled' hmisled
  · rcases hdevelop with ⟨hnot, -⟩ | ⟨-, hfails⟩
    · exact absurd hmisled hnot
    · exact hfails
  · obtain ⟨v, hn⟩ := Arena.find?_of_place? hat.rooted.place
    refine ⟨root, p.toNode v, p.belief, by rw [hat.memory], hn, rfl,
      htracks.sample_of_misled hmisled hs, fun w hw => ?_⟩
    exact ⟨htracks.worlds w hw, htracks.isTerminal_of_misled hstart hmisled hw,
      (htracks.over_of_misled hmisled hw).1⟩

/-- An agent never goes astray if no role is in control once the play is over. -/
theorem Run.not_astray (hstart : u.states u.game.start) (hregular : u.game.Regular role) (hsteady : u.steady)
    (hrecalls : u.recalls) (hle : (known.length : Int) ≤ 2147483647) (h : Run u.game role known s x)
    (hover : ∀ n w, u.game.After n u.game.start w → u.game.isTerminal w = .ok true →
      w.isInControl role = false) : ¬Astray known x := by
  obtain ⟨hs, root, p, hat, htracks⟩ := h.tracks hstart hregular hsteady hrecalls hle
  rw [hat.astray_iff]
  intro hmisled
  obtain ⟨w, hw⟩ := StateSet.isEmpty_eq_false_iff.1 p.belief.nonempty
  have hcontrol := hover _ w (htracks.worlds w hw) (htracks.isTerminal_of_misled hstart hmisled hw)
  rw [(htracks.over_of_misled hmisled hw).1] at hcontrol
  cases hcontrol

/-- The theorem applies to the second turn of a dial: the agent knows how it was turned before, which it made itself
and does not see. -/
theorem develop_dial : ∃ (x y : Hosted (TreeAgent SingleObserver Binary64 Session) Session)
    (root : NodeId) (n : Node Binary64) (b : Belief),
      Run Dial.game Dial.turner [some (∅, Dial.left)] (Dial.turned Dial.left) x ∧
      (SearchMethod.develop 1 ∅ : Deliberation SingleObserver Binary64 Session Unit) x = .ok ⟨⟩ y ∧
      y.own.memory.tree.root = some root ∧ y.own.arena.find? root = some n ∧
      Grasps Dial.game Dial.turner [some (∅, Dial.left)] ∅ n b ∧ (∀ t ∈ b.worlds, t = Dial.turned Dial.left) ∧
      (b.isComplete = true → Dial.turned Dial.left ∈ b.worlds) := by
  let own : TreeAgent SingleObserver Binary64 Session := {
    seat := { source := fun _ => .ok (some Dial.game) }
    settings := {}
    selector := .mostVisited
    chooser := .mostVisited
    evaluator := .ofTable [] Scalar.half
    memory := {} }
  let u : Upkeep := ⟨Dial.game, fun _ => True, Dial.answers, True, True⟩
  have hsource : own.seat.source ⟨"dial"⟩ = .ok (some u.game) := rfl
  have hview : ∀ s, u.game.view? s Dial.turner = .ok ∅ := fun _ => rfl
  obtain ⟨x, root, hprepare, hat⟩ :=
    At.prepare (u := u) (x := ⟨own, .ofSeed 0⟩) Dial.turner ⟨0, 0, 0⟩ ⟨0, 0, 0⟩ hsource trivial
  have hrun : Run Dial.game Dial.turner [] Dial.still x := .prepare hsource hprepare
  -- the first turn
  have hfirst : Place.ToMove u Dial.turner [] Dial.still := ⟨rfl, rfl, rfl⟩
  have hview₀ : Dial.game.viewOf Dial.still Dial.turner = ∅ := rfl
  obtain ⟨-, x', k, p, hdevelop, hat', hready, -⟩ | ⟨⟨hlt, -⟩, -⟩ :=
    hat.develop tracks_firstPlace trivial Dial.regular trivial hfirst hview₀ (by decide)
  swap
  · exact absurd hlt (Nat.not_lt_zero _)
  obtain ⟨y, -, -, -, -, hcommit, -⟩ := hat'.commit Dial.left (.inl hready.holds.move)
  have hstep : (Turn.single Dial.turner Dial.left, Dial.turned Dial.left) ∈ Dial.game.transitions Dial.still := by
    rw [Game.transitions_of_ok Dial.successors?_still]
    exact List.mem_cons_self
  have hrun' : Run Dial.game Dial.turner [some (∅, Dial.left)] (Dial.turned Dial.left) y :=
    .move hrun rfl (hview _) hdevelop .refl hcommit hstep (by decide)
  -- the second one
  have hastray : ¬Astray [some (∅, Dial.left)] y :=
    Run.not_astray (u := u) trivial Dial.regular trivial trivial (by decide) hrun' fun _ _ => Dial.idle_of_over
  obtain ⟨hknows, -, -⟩ :=
    hrun'.develop_grasps Dial.answers trivial Dial.regular rfl rfl (hview _) (by decide)
  obtain ⟨z, k', n, b, hdevelop', hroot, hn, hgrasps, hholds⟩ := hknows hastray
  exact ⟨y, z, k', n, b, hrun', hdevelop', hroot, hn, hgrasps,
    fun t ht => Dial.turned_of_possible (hgrasps.possible t ht).1, hholds⟩

end SingleObserver

end GameSearch
