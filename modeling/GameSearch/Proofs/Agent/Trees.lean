import GameSearch.Agent.SingleObserver
import GameSearch.Proofs.Belief.Tending

/-!
# The trees of an agent

What an agent does to its trees it does to its arena alone.  Valuing nodes changes no place of it.
-/

namespace GameSearch

namespace TreeAgent

variable {μ R ε α : Type} {x y : Hosted (TreeAgent μ R ε) ε} {r : α} {f : Fault}

/-- An agent with other trees and in other surroundings. -/
def withTrees (x : Hosted (TreeAgent μ R ε) ε) (t : Hosted (Arena R) ε) : Hosted (TreeAgent μ R ε) ε :=
  ⟨{ x.own with arena := t.own }, t.host⟩

/-- The trees of an agent and its surroundings. -/
def trees (x : Hosted (TreeAgent μ R ε) ε) : Hosted (Arena R) ε := ⟨x.own.arena, x.host⟩

lemma onTrees_run (action : Action (Hosted (Arena R) ε) α) :
    (onTrees action : Deliberation μ R ε α) x =
      match action (trees x) with
      | .ok r t => .ok r (withTrees x t)
      | .error f t => .error f (withTrees x t) := by
  obtain ⟨own, host⟩ := x
  obtain ⟨seat, settings, selector, chooser, evaluator, memory, last, arena⟩ := own
  simp only [onTrees, trees]
  cases action ⟨arena, host⟩ <;> rfl

lemma onTrees_of_ok {action : Action (Hosted (Arena R) ε) α} {t : Hosted (Arena R) ε}
    (h : action (trees x) = .ok r t) :
    (onTrees action : Deliberation μ R ε α) x = .ok r (withTrees x t) := by
  rw [onTrees_run, h]

lemma onTrees_of_error {action : Action (Hosted (Arena R) ε) α} {t : Hosted (Arena R) ε}
    (h : action (trees x) = .error f t) :
    (onTrees action : Deliberation μ R ε α) x = .error f (withTrees x t) := by
  rw [onTrees_run, h]

lemma onTrees_eq_ok {action : Action (Hosted (Arena R) ε) α} :
    (onTrees action : Deliberation μ R ε α) x = .ok r y ↔
      ∃ t, action (trees x) = .ok r t ∧ y = withTrees x t := by
  rw [onTrees_run]
  cases action (trees x) with
  | ok r' t =>
    constructor
    · intro h
      cases h
      exact ⟨t, rfl, rfl⟩
    · rintro ⟨t', h, rfl⟩
      cases h
      rfl
  | error f t =>
    constructor
    · intro h
      cases h
    · rintro ⟨t', h, -⟩
      cases h

lemma onArena_of_ok {action : Action (Arena R) α} {a : Arena R} (h : action x.own.arena = .ok r a) :
    (onArena action : Deliberation μ R ε α) x = .ok r (withTrees x ⟨a, x.host⟩) := by
  refine onTrees_of_ok ?_
  simp only [Hosted.onOwn, trees, h]

def withSeat (x : Hosted (TreeAgent μ R ε) ε) (seat : Seat) : Hosted (TreeAgent μ R ε) ε :=
  ⟨{ x.own with seat := seat }, x.host⟩

lemma onSeat_eq_ok {action : Action Seat α} : (onSeat action : Deliberation μ R ε α) x = .ok r y ↔
    ∃ seat, action x.own.seat = .ok r seat ∧ y = withSeat x seat := by
  obtain ⟨own, host⟩ := x
  obtain ⟨seat, settings, selector, chooser, evaluator, memory, last, arena⟩ := own
  simp only [onSeat, withSeat]
  cases action seat with
  | ok r' seat' => simp [eq_comm]
  | error f seat' => simp

lemma memorized_run : (memorized : Deliberation μ R ε μ) x = .ok x.own.memory x := rfl

def withMemory (x : Hosted (TreeAgent μ R ε) ε) (memory : μ) : Hosted (TreeAgent μ R ε) ε :=
  ⟨{ x.own with memory := memory }, x.host⟩

lemma remember_run (f : μ → μ) :
    (remember f : Deliberation μ R ε Unit) x = .ok ⟨⟩ (withMemory x (f x.own.memory)) := rfl

/-! ## The beginning of a match -/

/-- An agent that has taken its place in a match, in an empty arena. -/
def seated (x : Hosted (TreeAgent μ R ε) ε) (game : Game) (role : Role)
    (startClock playClock : Clock.Settings Binary64) : Hosted (TreeAgent μ R ε) ε :=
  withTrees (withSeat x ⟨x.own.seat.source, some game, some role, startClock, playClock⟩) ⟨∅, x.host⟩

lemma gameAndRole_run {game : Game} {role : Role} (hgame : x.own.seat.game = some game)
    (hrole : x.own.seat.role = some role) (name : String) :
    (gameAndRole name : Deliberation μ R ε (Game × Role)) x = .ok (game, role) x := by
  have hgame' : (liftM (x.own.seat.game? name) : Deliberation μ R ε Game) x = .ok game x := by
    rw [Seat.game?, hgame]
    rfl
  have hrole' : (liftM (x.own.seat.role? name) : Deliberation μ R ε Role) x = .ok role x := by
    rw [Seat.role?, hrole]
    rfl
  refine (Action.bind_of_ok Hosted.read_run).trans ((Action.bind_of_ok hgame').trans ?_)
  exact Action.bind_of_ok hrole'

/-- When a match begins, the trees are planted in an empty arena. -/
theorem prepare_run [SearchMethod μ R ε] {role : Role} {ruleset : Ruleset} {game : Game}
    (startClock playClock : Clock.Settings Binary64)
    (hsource : x.own.seat.source ruleset = .ok (some game)) :
    (prepare role ruleset startClock playClock : Deliberation μ R ε Unit) x =
      (SearchMethod.plant : Deliberation μ R ε Unit) (seated x game role startClock playClock) := by
  have htake : Seat.take role ruleset startClock playClock x.own.seat =
      .ok ⟨⟩ ⟨x.own.seat.source, some game, some role, startClock, playClock⟩ := by
    refine (Action.bind_of_ok (Action.modify_run _ _)).trans ?_
    refine (Action.bind_of_ok (Action.get_run _)).trans ?_
    rw [Action.bind_of_ok (Action.lift_of_ok hsource _)]
    rfl
  exact (Action.bind_of_ok (onSeat_eq_ok.2 ⟨_, htake, rfl⟩)).trans
    (Action.bind_of_ok (onArena_of_ok rfl))

end TreeAgent

/-- A node less its valuation. -/
def Node.unvalued {R : Type} (n : Node R) : Node R := { n with valuation := none }

/-- Some world of a place can be drawn. -/
lemma Place.draw_run {ε : Type} [Dice ε] (p : Place) (source : ε) :
    ∃ w source', Dice.choose p.belief.worlds.toList source = .ok w source' ∧ w ∈ p.belief.worlds := by
  obtain ⟨w, hw⟩ := StateSet.isEmpty_eq_false_iff.1 p.belief.nonempty
  obtain ⟨w, source', hchoose, hw⟩ :=
    Dice.choose_run (List.ne_nil_of_mem (Std.ExtTreeSet.mem_toList.2 hw)) source
  exact ⟨w, source', hchoose, Std.ExtTreeSet.mem_toList.1 hw⟩

/-- All worlds of a place are expanded, and its edges lead to one node only. -/
structure Place.SoleChild (p : Place) (k : NodeId) : Prop where
  expanded : ∀ w ∈ p.belief.worlds, w ∈ p.belief.expanded
  child : ∀ e ∈ p.edgeList, e.child = k
  nonempty : p.edgeList ≠ []

namespace Arena

variable {R ε : Type} {u : Upkeep} {but : NodeId → Prop} {a a' : Arena R} {id root : NodeId}
  {p q q' : Place}

lemma edgesOf_of_edges? {edges : Array Edge} (h : a.edges? id = .ok edges) :
    a.edgesOf id = edges.toList := by
  unfold edges? node? at h
  cases hn : a.find? id with
  | none =>
    rw [hn] at h
    cases h
  | some n =>
    rw [hn] at h
    cases hedges : n.edges with
    | none => simp [bind, Except.bind, hedges, throw, throwThe, MonadExceptOf.throw] at h
    | some edges' =>
      simp only [bind, Except.bind, hedges] at h
      cases h
      simp [edgesOf, hn, hedges]

/-! ## The only child of a node -/

lemma children_toNode (v : Option (Valuation R)) :
    (p.toNode v).children = (p.edgeList.map Edge.child).eraseDups := rfl

/-- What the search for an only child comes to. -/
theorem soleChild?_cases (hp : a.place? id = some p)
    (hexpanded : ∀ w ∈ p.belief.expanded, w ∈ p.belief.worlds) :
    a.soleChild? id = .ok id ∨ ∃ k, a.soleChild? id = .ok k ∧ p.SoleChild k := by
  obtain ⟨v, hnode⟩ := node_run hp
  have hfind : a.node? id = .ok (p.toNode v) := by
    obtain ⟨hfind, -⟩ := node_eq_ok.1 hnode
    rw [node?, hfind]
  unfold soleChild?
  rw [hfind]
  simp only [bind, Except.bind]
  split
  · rename_i child hall hchildren
    refine .inr ⟨child, rfl, ?_, ?_, ?_⟩
    · rw [Node.isExpanded_toNode, Bool.and_eq_true] at hall
      have hsize : p.belief.expanded.size = p.belief.worlds.size := of_decide_eq_true hall.2
      rw [StateSet.eq_of_subset_of_size_eq hexpanded hsize]
      exact fun w hw => hw
    · intro e he
      have hin : e.child ∈ (p.edgeList.map Edge.child).eraseDups :=
        List.mem_eraseDups.2 (List.mem_map_of_mem he)
      rw [← children_toNode v, hchildren] at hin
      exact List.mem_singleton.1 hin
    · intro hnil
      rw [children_toNode, hnil] at hchildren
      cases hchildren
  · exact .inl rfl

/-! ## The first belief of a role -/

/-- What a role believes in the initial state. -/
def firstPlace (game : Game) (role : Role) : Place :=
  Place.root 0 role {game.start} true
    (Node.standingOf (game.start.isInControl role) (game.viewOf game.start role))
    (StateSet.isEmpty_singleton game.start)

/-- A root is added for what a role believes in the initial state. -/
theorem firstBelief?_yields (h : a.Sound u but) (hstart : u.states u.game.start) (role : Role) :
    ∃ n k a', SingleObserver.firstBelief? u.game role = .ok n ∧ add (.ok n) a = .ok k a' ∧
      a.place? k = none ∧ a'.Sound u but ∧
      a'.place? = Function.update a.place? k (some (firstPlace u.game role)) := by
  have hknown : ∀ s ∈ ({u.game.start} : StateSet), u.states s := by
    intro s hs
    rw [StateSet.mem_singleton.1 hs]
    exact hstart
  obtain ⟨k, a', hrun, hnone, hsound, hplaces⟩ := @addRoot_yields _ _ _ _ _ role _ true
    (Node.standingOf (u.game.start.isInControl role) (u.game.viewOf u.game.start role)) h
    (Int.le_refl 0) (StateSet.isEmpty_singleton u.game.start) hknown
  rw [Node.belief?_yields none (Int.le_refl 0) role (StateSet.isEmpty_singleton u.game.start)] at hrun
  refine ⟨_, k, a', ?_, hrun, hnone, hsound, hplaces⟩
  rw [SingleObserver.firstBelief?, u.answers.view? hstart]
  exact Node.belief?_yields none (Int.le_refl 0) role (StateSet.isEmpty_singleton u.game.start) true _

/-! ## Valuing nodes -/

/-- An arena in which at most the valuations are others. -/
structure Revalued (a a' : Arena R) : Prop where
  orderly : a.Orderly → a'.Orderly
  nodes : ∀ id, (a'.find? id).map Node.unvalued = (a.find? id).map Node.unvalued

lemma Revalued.refl : Revalued a a := ⟨fun h => h, fun _ => rfl⟩

lemma Revalued.trans {a'' : Arena R} (h : Revalued a a') (h' : Revalued a' a'') : Revalued a a'' :=
  ⟨fun ho => h'.orderly (h.orderly ho), fun id => (h'.nodes id).trans (h.nodes id)⟩

/-- What can be told without the valuations stays as it is. -/
lemma Revalued.bind_find? {α : Type} (h : Revalued a a') {f : Node R → Option α}
    (hf : ∀ n, f n.unvalued = f n) (id : NodeId) : (a'.find? id).bind f = (a.find? id).bind f := by
  have hunvalued : ∀ o : Option (Node R), (o.map Node.unvalued).bind f = o.bind f := fun o => by
    cases o with
    | none => rfl
    | some n => exact hf n
  rw [← hunvalued, h.nodes, hunvalued]

lemma Revalued.places (h : Revalued a a') : a'.place? = a.place? :=
  funext (h.bind_find? fun _ => rfl)

lemma Revalued.sane (h : Revalued a a') (hsane : a.Sane) : a'.Sane := by
  refine ⟨h.orderly hsane.orderly, fun id n hn => ?_⟩
  have hplace := congrFun h.places id
  rw [place?_of_find? hn] at hplace
  rw [hplace, ← Option.ne_none_iff_isSome, Ne, ← hsane.find?_eq_none]
  intro hnone
  have hnode := h.nodes id
  rw [hn, hnone] at hnode
  cases hnode

lemma Revalued.sound (h : Revalued a a') (hsound : a.Sound u but) : a'.Sound u but := by
  refine ⟨h.sane hsound.sane, ?_, ?_, ?_⟩
  · rw [h.places]
    exact hsound.graded
  · rw [h.places]
    exact hsound.known
  · rw [h.places]
    exact hsound.kept

lemma revalued_update (f : Node R → Option (Valuation R)) :
    Revalued a (a.update id fun n => { n with valuation := f n }) := by
  refine ⟨fun ho => ho.update _, fun other => ?_⟩
  rw [find?_update]
  by_cases hother : other = id
  · subst hother
    rw [if_pos rfl, Option.map_map]
    rfl
  · rw [if_neg hother]

lemma revalued_propagate [Scalar R] {utility : R} (h : propagate id utility a = .ok ⟨⟩ a') :
    Revalued a a' := by
  obtain ⟨n, a₁, hnode, hrest⟩ := Action.bind_eq_ok.1 h
  obtain ⟨-, rfl⟩ := node_eq_ok.1 hnode
  cases hvaluation : n.valuation with
  | some v =>
    rw [hvaluation] at hrest
    cases hrest
    exact revalued_update _
  | none =>
    rw [hvaluation] at hrest
    obtain ⟨v, a₂, hv, hchange⟩ := Action.bind_eq_ok.1 hrest
    obtain ⟨-, rfl⟩ := Action.lift_eq_ok.1 hv
    cases hchange
    exact revalued_update _

lemma propagate_yields [Scalar R] {n : Node R} {utility : R} (hn : a.find? id = some n)
    (hunit : Scalar.isUnit utility = true) : ∃ a', propagate id utility a = .ok ⟨⟩ a' := by
  rw [propagate, Action.bind_of_ok (node_of_find? hn)]
  cases n.valuation with
  | some v => exact ⟨_, rfl⟩
  | none =>
    have hvalue : (Valuation.ofUtility? utility : Except Fault (Valuation R)) = .ok ⟨utility, 1⟩ := by
      simp [Valuation.ofUtility?, Valuation.ofMean?, hunit]
    exact ⟨_, Action.bind_of_ok (Action.lift_of_ok hvalue a)⟩

lemma revalued_propagateUp [Scalar R] {utility : R} {fuel : Nat} {parent : Option Int}
    (h : propagateUp utility fuel parent a = .ok ⟨⟩ a') : Revalued a a' := by
  induction fuel generalizing a parent with
  | zero =>
    cases parent with
    | none =>
      cases h
      exact .refl
    | some number => cases h
  | succ fuel ih =>
    cases parent with
    | none =>
      cases h
      exact .refl
    | some number =>
      rw [propagateUp] at h
      obtain ⟨_, _, hget, h₁⟩ := Action.bind_eq_ok.1 h
      cases hget
      obtain ⟨id, a₁, hid, h₂⟩ := Action.bind_eq_ok.1 h₁
      obtain ⟨-, rfl⟩ := Action.lift_eq_ok.1 hid
      obtain ⟨_, a₂, hpropagate, h₃⟩ := Action.bind_eq_ok.1 h₂
      obtain ⟨n, a₃, hnode, h₄⟩ := Action.bind_eq_ok.1 h₃
      obtain ⟨-, rfl⟩ := node_eq_ok.1 hnode
      exact (revalued_propagate hpropagate).trans (ih h₄)

lemma revalued_backpropagate [Scalar R] {utility : R} (h : backpropagate id utility a = .ok ⟨⟩ a') :
    Revalued a a' := by
  obtain ⟨bound, a₁, hbound, hrest⟩ := Action.bind_eq_ok.1 h
  cases hbound
  obtain ⟨n, a₂, hnode, hrest⟩ := Action.bind_eq_ok.1 hrest
  obtain ⟨-, rfl⟩ := node_eq_ok.1 hnode
  exact revalued_propagateUp hrest

/-- There is nothing above a root. -/
lemma backpropagate_root [Scalar R] {n : Node R} {utility : R} (hn : a.find? id = some n)
    (hroot : n.parent = none) : backpropagate id utility a = .ok ⟨⟩ a := by
  have hbound : heightBound a = .ok (a.slots.size + 1) a := rfl
  rw [backpropagate, Action.bind_of_ok hbound, Action.bind_of_ok (node_of_find? hn), hroot]
  rfl

variable [Dice ε] [Scalar R] {game : Game} {evaluator : Evaluator R ε} {world : Option State}
  {utility : R} {s t : Hosted (Arena R) ε}

/-- What an evaluation brings is taken into the valuation of the node. -/
lemma evaluate_propagates (h : evaluate game evaluator id world s = .ok utility t) :
    propagate id utility s.own = .ok ⟨⟩ t.own := by
  obtain ⟨n, s₁, hn, h₁⟩ := Action.bind_eq_ok.1 h
  obtain ⟨a₁, hnode, rfl⟩ := Hosted.onOwn_eq_ok.1 hn
  obtain ⟨-, rfl⟩ := node_eq_ok.1 hnode
  have hvalue : ∀ (w : State) (s' : Hosted (Arena R) ε), s'.own = s.own →
      (do
        let utility ← Hosted.onHost (evaluator.evaluate game w n.role)
        Hosted.onOwn (propagate id utility)
        pure utility : Action (Hosted (Arena R) ε) R) s' = .ok utility t →
      propagate id utility s.own = .ok ⟨⟩ t.own := by
    intro w s' hs' hrun
    obtain ⟨value, s₂, hevaluate, h₂⟩ := Action.bind_eq_ok.1 hrun
    obtain ⟨host, -, rfl⟩ := Hosted.onHost_eq_ok.1 hevaluate
    obtain ⟨_, s₃, hvalue, h₃⟩ := Action.bind_eq_ok.1 h₂
    obtain ⟨a', hpropagate, rfl⟩ := Hosted.onOwn_eq_ok.1 hvalue
    cases h₃
    rw [← hs']
    exact hpropagate
  cases world with
  | none =>
    obtain ⟨w, s₂, hdraw, h₂⟩ := Action.bind_eq_ok.1 h₁
    obtain ⟨host, -, rfl⟩ := Hosted.onHost_eq_ok.1 hdraw
    exact hvalue w ⟨s.own, host⟩ rfl h₂
  | some w =>
    simp only at h₁
    split at h₁
    · exact hvalue w _ rfl h₁
    · cases h₁

lemma revalued_evaluate (h : evaluate game evaluator id world s = .ok utility t) :
    Revalued s.own t.own := revalued_propagate (evaluate_propagates h)

end Arena

end GameSearch
