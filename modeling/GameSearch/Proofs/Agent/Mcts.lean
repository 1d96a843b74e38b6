import GameSearch.Agent.Mcts
import GameSearch.Proofs.Agent.PresentBelief
import GameSearch.Proofs.Perfect.Following
import GameSearch.Proofs.Tree.Growth

/-!
# The tree of an agent that searches with perfect information

The root of the agent's tree stands for a state in which a play can be.  What is developed from it for the
present ply shows the role what it sees, and once it is expanded its edges are all turns of the state that
it stands for.  So the agent has legal moves to choose from whenever it is to move.
-/

namespace GameSearch

namespace Arena

variable {R : Type} {u : Upkeep} {a a' : Arena R} {id : NodeId} {n : Node R}

/-- A node is still there with another valuation. -/
lemma Revalued.find? (h : Revalued a a') (hn : a.find? id = some n) :
    ∃ v, a'.find? id = some { n with valuation := v } := by
  have hnode := h.nodes id
  rw [hn, Option.map_some] at hnode
  obtain ⟨n', hn', hsame⟩ := Option.map_eq_some_iff.1 hnode
  refine ⟨n'.valuation, hn'.trans (congrArg some ?_)⟩
  exact congrArg (fun m : Node R => { m with valuation := n'.valuation }) hsame

lemma Revalued.symm (h : Revalued a a') (ho : a.Orderly) : Revalued a' a :=
  ⟨fun _ => ho, fun id => (h.nodes id).symm⟩

/-- Valuing nodes keeps them as they should be. -/
lemma Charted.revalued (h : a.Charted u) (hrevalued : Revalued a a') : a'.Charted u := by
  have hback := hrevalued.symm h.orderly
  refine ⟨hrevalued.orderly h.orderly, fun id n' hn' => ?_, fun id n' hn' => ?_⟩ <;>
    obtain ⟨v, hn⟩ := hback.find? hn'
  · have hknown := h.known id _ hn
    exact hknown
  · have hrefound : ∀ e ∈ { n' with valuation := v }.edgeList, ∀ c, a.find? e.child = some c →
        ∃ c', a'.find? e.child = some c' ∧ c.Alike c' := fun e _ c hc => by
      obtain ⟨v, hc'⟩ := hrevalued.find? hc
      exact ⟨_, hc', rfl, rfl, rfl, rfl, rfl⟩
    have hfits := (h.fits id _ hn).congr hrefound
    exact ⟨hfits.out, hfits.key, hfits.nodup, hfits.child⟩

end Arena

namespace Node

variable {R : Type} {u : Upkeep} {role : Role} {n : Nat} {view : View} {r r' m : Node R} {s t : State}

/-- A root of an agent, for the present ply or an earlier one. -/
structure Plausible (u : Upkeep) (role : Role) (n : Nat) (s : State) (r : Node R) : Prop where
  owner : r.role = role
  depth : r.depth ≤ n
  after : u.game.After r.depth u.game.start s
  fresh : r.depth = n → r.move = none

/-- A node for the present ply, which shows its owner a view. -/
structure Current (u : Upkeep) (role : Role) (n : Nat) (view : View) (s : State) (r : Node R) : Prop where
  owner : r.role = role
  depth : r.depth = n
  move : r.move = none
  after : u.game.After n u.game.start s
  view : u.game.viewOf s role = view

lemma Plausible.later (h : r.Plausible u role n s) : r.Plausible u role (n + 1) s :=
  ⟨h.owner, Nat.le_succ_of_le h.depth, h.after, fun heq => absurd h.depth (by omega)⟩

lemma Current.congr (h : r.Current u role n view s) (halike : r.Alike r') : r'.Current u role n view s :=
  ⟨halike.role.trans h.owner, halike.depth.trans h.depth, halike.move.trans h.move, h.after, h.view⟩

/-- What is developed for the present ply from a plausible root. -/
theorem Plausible.current (h : r.Plausible u role n s) (hlater : r.Later ((n : Int) - r.depth).toNat t m)
    (hwanted : (r.asPlace s).wanted u n view t) : m.Current u role n view t := by
  have hsum : r.depth + ((n : Int) - r.depth).toNat = n := by
    have := h.depth
    omega
  refine ⟨hlater.role.trans h.owner, hlater.depth.trans hsum, hlater.move ?_, ?_, h.owner ▸ hwanted.2⟩
  · rcases Nat.eq_or_lt_of_le h.depth with heq | hlt
    · exact .inr (h.fresh heq)
    · exact .inl (by omega)
  · rw [← hsum]
    refine Place.after_ahead (p := r.asPlace s) (fun w hw => ?_) hwanted.1
    rw [StateSet.mem_singleton.1 hw]
    exact h.after

lemma Current.detached (h : r.Current u role n view s) : r.detached.Current u role n view s :=
  ⟨h.owner, h.depth, h.move, h.after, h.view⟩

/-- A root that an agent stays at when it is committed to a move. -/
lemma Current.stays (h : r.Current u role n view s) (hdepth : m.depth = r.depth) (hrole : m.role = r.role) :
    m.Plausible u role (n + 1) s := by
  have hsame : m.depth = n := hdepth.trans h.depth
  exact ⟨hrole.trans h.owner, by omega, hsame.symm ▸ h.after, fun heq => by omega⟩

/-- A child that an agent goes on to when it is committed to a move. -/
lemma Current.goes {turn : Turn} (h : r.Current u role n view s) (hstep : (turn, t) ∈ u.game.transitions s)
    (hdepth : m.depth = r.depth + 1) (hrole : m.role = r.role) (hmove : m.move = none) :
    m.Plausible u role (n + 1) t := by
  have hnext : m.depth = n + 1 := hdepth.trans (congrArg Nat.succ h.depth)
  exact ⟨hrole.trans h.owner, Nat.le_of_eq hnext,
    hnext.symm ▸ Game.after_succ.2 ⟨s, h.after, _, hstep, rfl⟩, fun _ => hmove⟩

/-- An expanded node for the present ply offers legal moves. -/
theorem Current.offers {a : Arena R} {root : NodeId} (h : r.Current u role n view t) (hcharted : a.Charted u)
    (hr : a.find? root = some r) (ht : r.Knows t) (hedges : r.edges ≠ none) (hstart : u.states u.game.start)
    (hdiscerned : u.game.Discerned role) (hmove : u.game.ToMove role s) (hs : u.game.After n u.game.start s)
    (hview : u.game.viewOf s role = view) :
    a.Offers root role fun move => u.game.isLegal? s role move = .ok true := by
  have hstate : u.states t := u.answers.after hstart h.after
  have hmove' : u.game.ToMove role t :=
    hmove.congr u.answers hstart hdiscerned hs h.after (h.view.trans hview.symm)
  have hfits := hcharted.fits root r hr
  obtain ⟨edges, hsome⟩ := Option.ne_none_iff_exists'.1 hedges
  have hedges? : a.edges? root = .ok edges := by
    simp [Arena.edges?, Arena.node?, hr, hsome, bind, Except.bind, pure, Except.pure]
  refine ⟨⟨edges, hedges?⟩, ?_, ?_, ?_⟩ <;> rw [Arena.edgesOf_of_find? hr]
  · obtain ⟨step, hstep⟩ := Game.exists_transition (u.answers.successors? hstate) hmove'.ongoing
    have hin : step ∈ r.edgeList.map fun e => (e.turn, e.next) := by
      rw [hfits.out t ht hedges]
      exact List.mem_filter.2 ⟨hstep, accepts_of_free h.move _⟩
    intro hnil
    rw [hnil] at hin
    cases hin
  · intro e he
    obtain ⟨c, hc, -⟩ := hfits.child e he
    exact ⟨c, hc⟩
  · intro e he
    obtain ⟨move, hfind, hlegal⟩ := hmove'.exists_legal u.answers hstate (hfits.mem_transitions ht he)
    refine ⟨move, by rw [hfits.key e he]; exact hfind, ?_⟩
    rw [← hlegal]
    exact hdiscerned.isLegal n s t move hs h.after (hview.trans h.view.symm)

end Node

namespace Mcts

open TreeAgent

variable {R ε : Type} {u : Upkeep} {role : Role} {n k : Nat} {s t : State} {view : View} {root leaf : NodeId}
  {r m : Node R}

/-! ## Simulations -/

variable [Scalar R]

/-- A simulation ends at a node, or goes on along the edge that is selected there. -/
lemma descend_cases {selector : Selector R ε} {fuel : Nat} {x y : Hosted (Arena R) ε}
    (h : descend selector (fuel + 1) root x = .ok leaf y) : ∃ r, x.own.find? root = some r ∧
      ((r.isExpanded = true → r.isTerminal = true) ∧ leaf = root ∧ y = x ∨
        r.isExpanded = true ∧ ∃ key host e, x.own.select selector root none x.host = .ok key host ∧
          e ∈ r.edgeList ∧ e.key = key ∧ descend selector fuel e.child ⟨x.own, host⟩ = .ok leaf y) := by
  rw [descend] at h
  obtain ⟨a, x₁, hget, h₁⟩ := Action.bind_eq_ok.1 h
  obtain ⟨own, hget, rfl⟩ := Hosted.onOwn_eq_ok.1 hget
  cases hget
  obtain ⟨r, hnode, h₂⟩ := Action.lift_bind_eq_ok.1 h₁
  refine ⟨r, Arena.node?_eq_ok hnode, ?_⟩
  split at h₂
  · rename_i hstop
    cases h₂
    exact .inl ⟨fun hfull => by simpa [hfull] using hstop, rfl, rfl⟩
  · rename_i hgoes
    obtain ⟨key, x₂, hkey, h₃⟩ := Action.bind_eq_ok.1 h₂
    obtain ⟨host, hselect, rfl⟩ := Hosted.onHost_eq_ok.1 hkey
    cases hedge : (r.edges.getD #[]).find? fun e => decide (e.key = key) with
    | none =>
      rw [hedge] at h₃
      cases h₃
    | some e =>
      rw [hedge] at h₃
      exact .inr ⟨by simp_all, key, host, e, hselect, Array.mem_toList_iff.2 (Array.mem_of_find?_eq_some hedge),
        by simpa using Array.find?_some hedge, h₃⟩

/-- The way down from a node goes on only below an expanded one. -/
lemma descend_eq_ok {selector : Selector R ε} {fuel : Nat} {x y : Hosted (Arena R) ε}
    (h : descend selector fuel root x = .ok leaf y) : y.own = x.own ∧ x.own.Leads root leaf ∧
      ∃ r m, x.own.find? root = some r ∧ x.own.find? leaf = some m ∧ (r.isExpanded = true ∨ leaf = root) ∧
        (m.isExpanded = true → m.isTerminal = true) := by
  induction fuel generalizing root x with
  | zero => cases h
  | succ fuel ih =>
    obtain ⟨r, hr, ⟨hstop, rfl, rfl⟩ | ⟨hfull, key, host, e, -, he, -, hrest⟩⟩ := descend_cases h
    · exact ⟨rfl, .refl, r, r, hr, hr, .inr rfl, hstop⟩
    · obtain ⟨hown, hleads, -, m, -, hm, -, hstop⟩ := ih hrest
      exact ⟨hown, .trans (.step .refl (Arena.edgesOf_of_find? hr ▸ he)) hleads, r, m, hr, hm, .inl hfull, hstop⟩

/-- A simulation leaves the root as it is, but expands it. -/
lemma simulate_keeps [Dice ε] {selector : Selector R ε} {evaluator : Evaluator R ε} {x y : Hosted (Arena R) ε}
    (hcharted : x.own.Charted u) (h : simulate u.game selector evaluator root x = .ok ⟨⟩ y) :
    y.own.Charted u ∧ ∀ r, x.own.find? root = some r →
      ∃ r', y.own.find? root = some r' ∧ r.Alike r' ∧ r'.edges ≠ none := by
  obtain ⟨bound, x₁, hbound, h₁⟩ := Action.bind_eq_ok.1 h
  obtain ⟨a₁, hget, rfl⟩ := Hosted.onOwn_eq_ok.1 hbound
  cases hget
  obtain ⟨leaf, x₂, hdescend, h₂⟩ := Action.bind_eq_ok.1 h₁
  obtain ⟨hown, -, r, m, hr, hm, hexpanded, -⟩ := descend_eq_ok hdescend
  obtain ⟨_, x₃, hexpand, h₃⟩ := Action.bind_eq_ok.1 h₂
  obtain ⟨a₃, hgrow, rfl⟩ := Hosted.onOwn_eq_ok.1 hexpand
  obtain ⟨utility, x₄, hevaluate, h₄⟩ := Action.bind_eq_ok.1 h₃
  obtain ⟨a₄, hback, rfl⟩ := Hosted.onOwn_eq_ok.1 h₄
  rw [hown] at hgrow
  obtain ⟨s, hs, -⟩ := hcharted.known leaf m hm
  obtain ⟨a', edges, hrun, hcharted', hself, hother⟩ := Arena.expandPerfect_yields hcharted hm
  rw [Arena.expand_of_knows hm hs, hrun] at hgrow
  cases hgrow
  have hrevalued := (Arena.revalued_evaluate hevaluate).trans (Arena.revalued_backpropagate hback)
  refine ⟨hcharted'.revalued hrevalued, fun r' hr' => ?_⟩
  rw [hr, Option.some.injEq] at hr'
  subst hr'
  by_cases hleaf : leaf = root
  · subst hleaf
    rw [hr, Option.some.injEq] at hm
    subst hm
    obtain ⟨v, hfind⟩ := hrevalued.find? hself
    exact ⟨_, hfind, ⟨rfl, rfl, rfl, rfl, rfl⟩, by simp⟩
  · obtain ⟨v, hfind⟩ := hrevalued.find? (hother root r (Ne.symm hleaf) hr)
    refine ⟨_, hfind, ⟨rfl, rfl, rfl, rfl, rfl⟩, fun hnone => ?_⟩
    have hpristine : r.edges = none := hnone
    have hfull := hexpanded.resolve_right hleaf
    simp [Node.isExpanded, hpristine] at hfull

/-- The first simulation has a result if the state of the root can be evaluated. -/
lemma simulate_pristine [Dice ε] {selector : Selector R ε} {evaluator : Evaluator R ε} {a : Arena R} {host host' : ε}
    {utility : R} (hcharted : a.Charted u) (hr : a.find? root = some r) (hs : r.Knows s) (hroot : r.parent = none)
    (hpristine : r.edges = none) (hvalue : evaluator.evaluate u.game s r.role host = .ok utility host')
    (hunit : Scalar.isUnit utility = true) : ∃ y, simulate u.game selector evaluator root ⟨a, host⟩ = .ok ⟨⟩ y := by
  obtain ⟨a₁, edges, hexpand, hcharted₁, hr₁, -⟩ := Arena.expandPerfect_yields hcharted hr
  obtain ⟨a₂, hpropagate⟩ := Arena.propagate_yields hr₁ hunit
  obtain ⟨v, hr₂⟩ := (Arena.revalued_propagate hpropagate).find? hr₁
  have hback : Arena.backpropagate root utility a₂ = .ok ⟨⟩ a₂ := Arena.backpropagate_root hr₂ hroot
  have hdescend : descend selector (a.slots.size + 1) root ⟨a, host⟩ = .ok root (⟨a, host⟩ : Hosted (Arena R) ε) := by
    have hnode : a.node? root = .ok r := by rw [Arena.node?, hr]
    rw [descend, Action.bind_of_ok (Hosted.onOwn_eq_ok.2 ⟨a, rfl, rfl⟩),
      Action.bind_of_ok (Action.lift_of_ok hnode _), if_pos (by simp [Node.isExpanded, hpristine])]
    rfl
  have hevaluate : Arena.evaluate u.game evaluator root none ⟨a₁, host⟩ =
      .ok utility (⟨a₂, host'⟩ : Hosted (Arena R) ε) := by
    obtain ⟨turn, hs⟩ := hs
    have hdraw : Arena.drawWorld { r with edges := some edges } host = .ok s host := by
      simp only [Arena.drawWorld, hs]
      rfl
    rw [Arena.evaluate, Action.bind_of_ok (Hosted.onOwn_eq_ok.2 ⟨a₁, Arena.node_of_find? hr₁, rfl⟩)]
    refine (Action.bind_of_ok (Hosted.onHost_eq_ok.2 ⟨host, hdraw, rfl⟩)).trans ?_
    refine (Action.bind_of_ok (Hosted.onHost_eq_ok.2 ⟨host', hvalue, rfl⟩)).trans ?_
    exact Action.bind_of_ok (Hosted.onOwn_eq_ok.2 ⟨a₂, hpropagate, rfl⟩)
  refine ⟨⟨a₂, host'⟩, ?_⟩
  unfold simulate
  refine (Action.bind_of_ok (Hosted.onOwn_eq_ok.2 ⟨a, rfl, rfl⟩)).trans ?_
  refine (Action.bind_of_ok hdescend).trans ?_
  refine (Action.bind_of_ok (Hosted.onOwn_eq_ok.2 ⟨a₁, (Arena.expand_of_knows hr hs).trans hexpand, rfl⟩)).trans ?_
  exact (Action.bind_of_ok hevaluate).trans (Hosted.onOwn_eq_ok.2 ⟨a₂, hback, rfl⟩)

/-! ## The tree of an agent -/

/-- An agent that plays a game has a tree with some node at its root, which stands for a state. -/
structure At (u : Upkeep) (x : Hosted (TreeAgent Mcts R ε) ε) (root : NodeId) (r : Node R) (s : State) :
    Prop where
  game : x.own.seat.game = some u.game
  memory : x.own.memory = ⟨⟨some root⟩⟩
  charted : x.own.arena.Charted u
  node : x.own.arena.find? root = some r
  parent : r.parent = none
  knows : r.Knows s

variable {x y z : Hosted (TreeAgent Mcts R ε) ε}

omit [Scalar R] in
lemma At.undisturbed (h : At u x root r s) (hxy : Undisturbed x y) : At u y root r s :=
  ⟨by rw [hxy.seat, h.game], hxy.memory.trans h.memory, by rw [hxy.arena]; exact h.charted,
    by rw [hxy.arena, h.node], h.parent, h.knows⟩

omit [Scalar R] in
lemma At.root_run (h : At u x root r s) : Mcts.root x = .ok root x := by
  unfold Mcts.root
  rw [Action.bind_of_ok memorized_run, h.memory]
  rfl

omit [Scalar R] in
/-- A node is made the root of the tree. -/
lemma reroot_yields (hgame : x.own.seat.game = some u.game) (hcharted : x.own.arena.Charted u)
    (hm : x.own.arena.find? k = some m) (hs : m.Knows s) :
    ∃ y, Mcts.reroot k x = .ok ⟨⟩ y ∧ At u y k m.detached s ∧ y.own.evaluator = x.own.evaluator := by
  obtain ⟨a, hreroot, hcharted', hself⟩ := hcharted.reroot hm
  refine ⟨withTrees (withMemory x ⟨⟨some k⟩⟩) ⟨a, x.host⟩, ?_, ⟨hgame, rfl, hcharted', hself, rfl, hs⟩, rfl⟩
  unfold Mcts.reroot
  rw [Action.bind_of_ok (remember_run _)]
  exact onArena_of_ok (x := withMemory x ⟨⟨some k⟩⟩) hreroot

variable [Host ε]

theorem settled : Settled Mcts R ε where
  plant := (keepsManner_gameAndRole _).bind fun _ => (keepsManner_onArena _).bind fun _ =>
    (keepsManner_remember _).bind fun _ => keepsManner_read.bind fun _ => .ite
      (keepsManner_read.bind fun _ => (keepsManner_onHost _).bind fun _ => (keepsManner_lift _).bind fun _ =>
        keepsManner_change fun _ => ⟨rfl, rfl⟩)
      (keepsManner_pure _)
  develop _ _ := (keepsManner_memorized.bind fun _ => keepsManner_lift _).bind fun _ =>
    (keepsManner_onArena _).bind fun _ => keepsManner_read.bind fun _ => (keepsManner_lift _).bind fun _ =>
    (keepsManner_onTrees _).bind fun _ => (keepsManner_remember _).bind fun _ => keepsManner_onArena _
  step := keepsManner_read.bind fun _ => (keepsManner_lift _).bind fun _ =>
    (keepsManner_read.bind fun _ => keepsManner_pure _).bind fun _ =>
    (keepsManner_read.bind fun _ => keepsManner_pure _).bind fun _ =>
    (keepsManner_memorized.bind fun _ => keepsManner_lift _).bind fun _ => keepsManner_onTrees _
  commit _ := (keepsManner_memorized.bind fun _ => keepsManner_lift _).bind fun _ =>
    (keepsManner_onArena _).bind fun _ => (keepsManner_onArena _).bind fun _ =>
    (keepsManner_onArena _).bind fun _ => (keepsManner_lift _).bind fun _ =>
    (keepsManner_remember _).bind fun _ => keepsManner_onArena _

/-- A simulation leaves the root as it is, but expands it. -/
theorem At.step (h : At u x root r s)
    (hstep : (SearchMethod.step : Deliberation Mcts R ε Unit) x = .ok ⟨⟩ y) :
    ∃ r', At u y root r' s ∧ r.Alike r' ∧ r'.edges ≠ none := by
  obtain ⟨agent, x₁, hread, h₁⟩ := Action.bind_eq_ok.1 hstep
  cases hread
  obtain ⟨game, hgame, h₂⟩ := Action.lift_bind_eq_ok.1 h₁
  rw [Seat.game?, h.game] at hgame
  cases hgame
  obtain ⟨selector, x₃, hselector, h₃⟩ := Action.bind_eq_ok.1 h₂
  cases hselector
  obtain ⟨evaluator, x₄, hevaluator, h₄⟩ := Action.bind_eq_ok.1 h₃
  cases hevaluator
  rw [Action.bind_of_ok h.root_run] at h₄
  obtain ⟨t, hsimulate, rfl⟩ := onTrees_eq_ok.1 h₄
  obtain ⟨hcharted, hkeeps⟩ := simulate_keeps h.charted hsimulate
  obtain ⟨r', hr', halike, hedges⟩ := hkeeps r h.node
  exact ⟨r', ⟨h.game, h.memory, hcharted, hr', halike.parent.trans h.parent, halike.knows h.knows⟩, halike, hedges⟩

lemma At.step_pristine {utility : R} {host : ε} (h : At u x root r s) (hpristine : r.edges = none)
    (hvalue : x.own.evaluator.evaluate u.game s r.role x.host = .ok utility host)
    (hunit : Scalar.isUnit utility = true) :
    ∃ y, (SearchMethod.step : Deliberation Mcts R ε Unit) x = .ok ⟨⟩ y := by
  have hgame : (liftM (x.own.seat.game? "mcts") : Deliberation Mcts R ε Game) x = .ok u.game x := by
    rw [Seat.game?, h.game]
    rfl
  obtain ⟨t, hsimulate⟩ := @simulate_pristine _ _ _ _ _ _ _ _ x.own.selector _ _ _ _ _ h.charted h.node h.knows
    h.parent hpristine hvalue hunit
  have hselector : (theSelector : Deliberation Mcts R ε (Selector R ε)) x = .ok x.own.selector x := rfl
  have hevaluator : (theEvaluator : Deliberation Mcts R ε (Evaluator R ε)) x = .ok x.own.evaluator x := rfl
  refine ⟨withTrees x t, (Action.bind_of_ok Hosted.read_run).trans ((Action.bind_of_ok hgame).trans ?_)⟩
  refine (Action.bind_of_ok hselector).trans ((Action.bind_of_ok hevaluator).trans ?_)
  exact (Action.bind_of_ok h.root_run).trans (onTrees_of_ok hsimulate)

/-- Simulations leave the root as it is, and it is expanded after the first. -/
lemma At.simulates (h : At u x root r s) (hsimulates : Simulates k x y) :
    ∃ r', At u y root r' s ∧ r.Alike r' ∧ (0 < k → r'.edges ≠ none) := by
  induction hsimulates with
  | refl => exact ⟨r, h, .refl r, fun hk => absurd hk (Nat.lt_irrefl 0)⟩
  | step _ hstep ih =>
    obtain ⟨r₁, hr₁, halike, -⟩ := ih h
    obtain ⟨r₂, hr₂, halike', hedges⟩ := hr₁.step hstep
    exact ⟨r₂, hr₂, halike.trans halike', fun _ => hedges⟩
  | elsewhere _ hxy ih =>
    obtain ⟨r₁, hr₁, halike, hedges⟩ := ih h
    exact ⟨r₁, hr₁.undisturbed hxy, halike, hedges⟩

lemma At.develop_run (h : At u x root r s) (ply : Int) (view : View) :
    (SearchMethod.develop ply view : Deliberation Mcts R ε Unit) x =
      (TreeAgent.onArena (Arena.developPerfect u.game root ply view) >>= Mcts.reroot) x := by
  have hgame : (liftM (x.own.seat.game? "mcts") : Deliberation Mcts R ε Game) x = .ok u.game x := by
    rw [Seat.game?, h.game]
    rfl
  have hperfect : Arena.develop u.game root ply view (trees x) =
      Hosted.onOwn (Arena.developPerfect u.game root ply view) (trees x) := by
    obtain ⟨turn, hs⟩ := h.knows
    have hnode : (Hosted.onOwn (Arena.node root) : Action (Hosted (Arena R) ε) (Node R)) (trees x) =
        .ok r (trees x) := Hosted.onOwn_eq_ok.2 ⟨x.own.arena, Arena.node_of_find? h.node, rfl⟩
    rw [Arena.develop, Action.bind_of_ok hnode, hs]
  refine (Action.bind_of_ok h.root_run).trans <|
    (Action.bind_of_ok (onArena_of_ok (Arena.node_of_find? h.node))).trans <|
    (Action.bind_of_ok Hosted.read_run).trans <| (Action.bind_of_ok hgame).trans ?_
  unfold TreeAgent.onArena
  cases hrun : Hosted.onOwn (Arena.developPerfect u.game root ply view) (trees x) with
  | ok k t =>
    rw [Action.bind_of_ok (onTrees_of_ok (hperfect.trans hrun)), Action.bind_of_ok (onTrees_of_ok hrun)]
  | error f t =>
    rw [Action.bind_of_error (onTrees_of_error (hperfect.trans hrun)),
      Action.bind_of_error (onTrees_of_error hrun)]

/-- What is developed becomes the root. -/
lemma At.develop_of_ok {a : Arena R} {ply : Int} (h : At u x root r s)
    (hrun : Arena.developPerfect u.game root ply view x.own.arena = .ok k a) (hcharted : a.Charted u)
    (hm : a.find? k = some m) (ht : m.Knows t) :
    ∃ y, (SearchMethod.develop ply view : Deliberation Mcts R ε Unit) x = .ok ⟨⟩ y ∧ At u y k m.detached t ∧
      y.own.evaluator = x.own.evaluator := by
  obtain ⟨y, hreroot, hat, hevaluator⟩ := reroot_yields (x := withTrees x ⟨a, x.host⟩) h.game hcharted hm ht
  refine ⟨y, ?_, hat, hevaluator⟩
  rw [h.develop_run, Action.bind_of_ok (onArena_of_ok hrun), hreroot]

/-- What developing the tree to the view of the role comes to: a node for the present ply, unless no play from
the root agrees with the view. -/
theorem At.develop_cases (h : At u x root r s) (hr : r.Plausible u role n s) (hle : (n : Int) ≤ 2147483647)
    (view : View) : (∃ y k m t, (SearchMethod.develop n view : Deliberation Mcts R ε Unit) x = .ok ⟨⟩ y ∧
        At u y k m t ∧ m.Current u role n view t) ∨
      ∃ f, (SearchMethod.develop n view : Deliberation Mcts R ε Unit) x = .error f x ∧
        ∀ t, ¬(r.asPlace s).wanted u n view t := by
  rcases Arena.developPerfect_cases view h.charted h.node h.knows (Int.ofNat_le.2 hr.depth) hle with
    ⟨k, a, m, t, hrun, hcharted, hm, hlater, hwanted⟩ | ⟨f, hrun, hunwanted⟩
  · obtain ⟨y, hdevelop, hat, -⟩ := h.develop_of_ok hrun hcharted hm hlater.knows
    exact .inl ⟨y, k, _, t, hdevelop, hat, (hr.current hlater hwanted).detached⟩
  · refine .inr ⟨f, ?_, hunwanted⟩
    have hfails : Hosted.onOwn (Arena.developPerfect u.game root n view) (trees x) = .error f (trees x) := by
      simp only [Hosted.onOwn, hrun, trees]
    rw [h.develop_run]
    exact Action.bind_of_error (onTrees_of_error hfails)

lemma At.develop_current (h : At u x root r s) (hr : r.Plausible u role n s) (hle : (n : Int) ≤ 2147483647)
    (hrun : (SearchMethod.develop n view : Deliberation Mcts R ε Unit) x = .ok ⟨⟩ y) :
    ∃ k m t, At u y k m t ∧ m.Current u role n view t := by
  rcases h.develop_cases hr hle view with ⟨y', k, m, t, hrun', hat, hcurrent⟩ | ⟨f, hrun', -⟩
  · cases hrun.symm.trans hrun'
    exact ⟨k, m, t, hat, hcurrent⟩
  · cases hrun.symm.trans hrun'

/-- Committing an agent to a move makes the only child of the root the new root, if there is one.  Then it is what
all turns with the move lead to. -/
theorem At.commit_cases (h : At u x root r s) (hfree : r.move = none) (move : Move) :
    ∃ y k m t, (SearchMethod.commit move : Deliberation Mcts R ε Unit) x = .ok ⟨⟩ y ∧ At u y k m t ∧
      (m = (r.committed move).trimmed.detached ∧ t = s ∨
        m.depth = r.depth + 1 ∧ m.role = r.role ∧ m.move = none ∧ (∃ turn, (turn, t) ∈ u.game.transitions s) ∧
          ∀ step ∈ u.game.transitions s, step.1.contains r.role move = true → step.2 = t) := by
  obtain ⟨a₁, a₂, hcommit, htrim, hcharted, hself, -⟩ := h.charted.commit h.node h.parent hfree move
  have hgoes : ∃ k m t, a₂.soleChild? root = .ok k ∧ a₂.find? k = some m ∧ m.Knows t ∧
      (m = (r.committed move).trimmed ∧ t = s ∨
        m.depth = r.depth + 1 ∧ m.role = r.role ∧ m.move = none ∧ (∃ turn, (turn, t) ∈ u.game.transitions s) ∧
          ∀ step ∈ u.game.transitions s, step.1.contains r.role move = true → step.2 = t) := by
    rcases Arena.soleChild?_of_find? hself with hstays | ⟨e, he, hchild, hedges, hsole⟩
    · exact ⟨root, _, s, hstays, hself, h.knows, .inl ⟨rfl, rfl⟩⟩
    · have hfits := hcharted.fits root _ hself
      obtain ⟨c, hc, halike⟩ := hfits.child e he
      refine ⟨e.child, c, e.next, hchild, hc, halike.knows ⟨_, rfl⟩, .inr ⟨halike.depth, halike.role, halike.move,
        ⟨e.turn, hfits.mem_transitions h.knows he⟩, fun step hstep hcontains => ?_⟩⟩
      -- each edge has a child of its own, so the only child belongs to the only edge
      have hin : step ∈ (r.committed move).trimmed.edgeList.map fun e => (e.turn, e.next) := by
        rw [hfits.out s h.knows hedges]
        exact List.mem_filter.2 ⟨hstep, by simpa [Node.accepts, Node.trimmed, Node.committed] using hcontains⟩
      obtain ⟨e', he', rfl⟩ := List.mem_map.1 hin
      rw [List.inj_on_of_nodup_map hfits.nodup he' he (hsole e' he')]
  obtain ⟨k, m, t, hsole, hm, ht, hcases⟩ := hgoes
  obtain ⟨y, hreroot, hat, -⟩ := reroot_yields (x := withTrees x ⟨a₂, x.host⟩) h.game hcharted hm ht
  have hrun₁ : (TreeAgent.onArena (Arena.commit root move) : Deliberation Mcts R ε Unit) x =
      .ok ⟨⟩ (withTrees x ⟨a₁, x.host⟩) := onArena_of_ok hcommit
  have hrun₂ : (TreeAgent.onArena (Arena.trim root) : Deliberation Mcts R ε Unit)
      (withTrees x ⟨a₁, x.host⟩) = .ok ⟨⟩ (withTrees x ⟨a₂, x.host⟩) := onArena_of_ok htrim
  have hrun₃ : (TreeAgent.onArena get : Deliberation Mcts R ε (Arena R))
      (withTrees x ⟨a₂, x.host⟩) = .ok a₂ (withTrees x ⟨a₂, x.host⟩) := onArena_of_ok rfl
  refine ⟨y, k, m.detached, t, ?_, hat, ?_⟩
  · exact (Action.bind_of_ok h.root_run).trans <| (Action.bind_of_ok hrun₁).trans <|
      (Action.bind_of_ok hrun₂).trans <| (Action.bind_of_ok hrun₃).trans <|
      (Action.bind_of_ok (Action.lift_of_ok hsole _)).trans hreroot
  · rcases hcases with ⟨rfl, hsame⟩ | hgoes
    · exact .inl ⟨rfl, hsame⟩
    · exact .inr hgoes

/-- A committed agent has a plausible root for the next ply. -/
lemma At.commit (h : At u x root r s) (hr : r.Current u role n view s) (move : Move) :
    ∃ y k m t, (SearchMethod.commit move : Deliberation Mcts R ε Unit) x = .ok ⟨⟩ y ∧ At u y k m t ∧
      m.Plausible u role (n + 1) t := by
  obtain ⟨y, k, m, t, hrun, hat, ⟨rfl, rfl⟩ | ⟨hdepth, howner, hmove, ⟨turn, hstep⟩, -⟩⟩ := h.commit_cases hr.move move
  · exact ⟨y, k, _, t, hrun, hat, hr.stays rfl rfl⟩
  · exact ⟨y, k, m, t, hrun, hat, hr.goes hstep hdepth howner hmove⟩

/-- When a match begins, the root stands for the initial state. -/
theorem At.prepare {ruleset : Ruleset} {startClock playClock : Clock.Settings Binary64}
    (hsource : x.own.seat.source ruleset = .ok (some u.game)) (hstart : u.states u.game.start)
    (hrun : (TreeAgent.prepare role ruleset startClock playClock : Deliberation Mcts R ε Unit) x = .ok ⟨⟩ y) :
    ∃ root r, At u y root r u.game.start ∧ r.Plausible u role 0 u.game.start := by
  rw [prepare_run startClock playClock hsource] at hrun
  obtain ⟨pair, x₁, hpair, h₁⟩ := Action.bind_eq_ok.1 hrun
  cases (gameAndRole_run (x := seated x u.game role startClock playClock) rfl rfl _).symm.trans hpair
  let r : Node R := ⟨none, 0, role, .perfect u.game.start none, none, none, none⟩
  have hr : r.Knows u.game.start := ⟨none, rfl⟩
  obtain ⟨root, a, hadd, -, hcharted, hself, -⟩ := (Arena.charted_empty (R := R)).add hr hstart rfl
  have hadd' : Arena.add (Node.perfect? none 0 role u.game.start none) (∅ : Arena R) = .ok root a := by
    rw [← hadd]
    exact congrArg (fun n => Arena.add n ∅) (Node.perfect?_yields none (Int.le_refl 0) role u.game.start none)
  obtain ⟨root', x₂, hplanted, h₂⟩ := Action.bind_eq_ok.1 h₁
  obtain ⟨a', hadd'', rfl⟩ := onArena_eq_ok.1 hplanted
  cases hadd'.symm.trans hadd''
  obtain ⟨_, x₃, hremember, h₃⟩ := Action.bind_eq_ok.1 h₂
  cases hremember
  obtain ⟨agent, x₄, hread, h₄⟩ := Action.bind_eq_ok.1 h₃
  cases hread
  have hat : At u (withMemory (withTrees (seated x u.game role startClock playClock) ⟨a, x.host⟩)
      ⟨⟨some root⟩⟩) root r u.game.start := ⟨rfl, rfl, hcharted, hself, rfl, hr⟩
  refine ⟨root, r, hat.undisturbed ?_, rfl, Nat.le_refl 0, rfl, fun _ => rfl⟩
  split at h₄
  · obtain ⟨_, x₅, hread, h₅⟩ := Action.bind_eq_ok.1 h₄
    cases hread
    obtain ⟨book, x₆, hbook, h₆⟩ := Action.bind_eq_ok.1 h₅
    obtain ⟨host, -, rfl⟩ := Hosted.onHost_eq_ok.1 hbook
    obtain ⟨playouts, -, h₇⟩ := Action.lift_bind_eq_ok.1 h₆
    cases h₇
    exact ⟨rfl, rfl, rfl⟩
  · cases h₄
    exact ⟨rfl, rfl, rfl⟩

/-- The root is plausible as long as the match goes on. -/
theorem exists_plausible_root (hstart : u.states u.game.start) (hle : (n : Int) ≤ 2147483647)
    (h : Attends u.game role n s x) : ∃ root r t, At u x root r t ∧ r.Plausible u role n t := by
  refine h.keeps (I := fun n x => ∃ root r t, At u x root r t ∧ r.Plausible u role n t) ?_ ?_ ?_ ?_ hle
  · intro ruleset startClock playClock x y _ hsource hprepare
    obtain ⟨root, r, hat, hr⟩ := At.prepare hsource hstart hprepare
    exact ⟨root, r, u.game.start, hat, hr⟩
  · rintro n x y ⟨root, r, t, hat, hr⟩ hxy
    exact ⟨root, r, t, hat.undisturbed hxy, hr⟩
  · rintro n x ⟨root, r, t, hat, hr⟩
    exact ⟨root, r, t, hat, hr.later⟩
  · rintro n k s move x y y' z - hle ⟨root, r, t, hat, hr⟩ view - hdevelop hsimulates hcommit
    obtain ⟨k, m, t, hm, hcurrent⟩ := hat.develop_current hr hle hdevelop
    obtain ⟨m', hm', halike, -⟩ := hm.simulates hsimulates
    obtain ⟨z', k', m'', t', hrun, hat', hnext⟩ := hm'.commit (hcurrent.congr halike) move
    cases hcommit.symm.trans hrun
    exact ⟨k', m'', t', hat', hnext⟩

/-- The agent answers with a legal move whenever its role is to move. -/
theorem dependable (hstart : u.states u.game.start) (hdiscerned : u.game.Discerned role)
    (hmove : u.game.ToMove role s) (hview : u.game.viewOf s role = view) (hle : (n : Int) ≤ 2147483647)
    (h : Attends u.game role n s x) : Dependable u.game role n s view x := by
  obtain ⟨root, r, t, hat, hr⟩ := exists_plausible_root hstart hle h
  have hseated := h.seated settled
  refine dependable_of_deciding hseated (fun move => hview ▸ hdiscerned.view n s move h.after) ?_
  rintro k z ⟨x', y, hx', hdevelop, hsimulates⟩
  obtain ⟨root, m, t, hm, hcurrent⟩ := (hat.undisturbed hx').develop_current hr hle hdevelop
  obtain ⟨m', hm', halike, hedges⟩ := hm.simulates hsimulates
  have hcurrent' := hcurrent.congr halike
  have hy := (hseated.undisturbed hx').keep (settled.develop n view) hdevelop
  refine ⟨root, hsimulates.seated settled.step hy, hm'.root_run, ?_, fun move z' hz' => ?_⟩
  · exact hcurrent'.offers hm'.charted hm'.node hm'.knows (hedges (Nat.succ_pos k)) hstart hdiscerned hmove h.after
      hview
  · obtain ⟨z'', -, -, -, hcommitted, -⟩ := (hm'.undisturbed hz').commit hcurrent' move
    exact ⟨z'', hcommitted⟩

end Mcts

end GameSearch
