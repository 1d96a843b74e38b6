import GameSearch.Proofs.Agent.Mcts
import GameSearch.Proofs.Match.Playthrough
import GameSearch.Proofs.Perfect.Retracing
import GameSearch.Session

/-!
# Keeping track of a play with perfect information

An agent whose role sees the whole state always knows the state of the play.  `Mcts.Run` are the ways in which
the agent and the play can go on; all along the tree mirrors the game, and when the agent is to move, its root
stands for the present state.
-/

namespace GameSearch

/-- A node stands for a state, and if it has been expanded, its edges stand for the transitions out of it that
agree with the committed move, in their order; each has a child of its own. -/
structure Node.Reflects {R : Type} (n : Node R) (game : Game) (a : Arena R) (id : NodeId) (s : State) : Prop where
  knows : n.Knows s
  out : n.edges ≠ none → ∃ next, game.successors? s = .ok next ∧
    n.edgeList.map (fun e => (e.turn, e.next)) = next.filter fun step => n.accepts step.1
  child : ∀ e ∈ n.edgeList, ∃ c, a.find? e.child = some c ∧ c.Knows e.next ∧ c.depth = n.depth + 1 ∧
    c.parent = some (Int.ofNat id)
  distinct : (n.edgeList.map Edge.child).Nodup

/-- Every node of an arena stands for a state. -/
def Arena.Mirrors {R : Type} (a : Arena R) (game : Game) : Prop :=
  ∀ id n, a.find? id = some n → ∃ s, n.Reflects game a id s

lemma Arena.Charted.mirrors {R : Type} {u : Upkeep} {a : Arena R} (h : a.Charted u) : a.Mirrors u.game := by
  intro id n hn
  obtain ⟨s, hs, hstate⟩ := h.known id n hn
  have hfits := h.fits id n hn
  refine ⟨s, hs, fun hedges => ⟨_, u.answers.successors? hstate, hfits.out s hs hedges⟩, fun e he => ?_, hfits.nodup⟩
  obtain ⟨c, hc, halike⟩ := hfits.child e he
  exact ⟨c, hc, halike.knows ⟨_, rfl⟩, halike.depth, halike.parent⟩

namespace Mcts

open TreeAgent

variable {R ε : Type} [Scalar R] [Host ε] {u : Upkeep} {role : Role} {n k : Nat} {s t : State} {move : Move}
  {root : NodeId} {r : Node R} {step : Turn × State} {x y z : Hosted (TreeAgent Mcts R ε) ε}

/-- The ways in which a play of a game and an agent of a role go on.  Whenever the agent is asked, it develops its
tree to the present ply and the view of the role, does some simulations, and is committed to the move that the
role makes. -/
inductive Run (game : Game) (role : Role) : Nat → State → Hosted (TreeAgent Mcts R ε) ε → Prop
  | prepare {ruleset : Ruleset} {startClock playClock : Clock.Settings Binary64}
      {x y : Hosted (TreeAgent Mcts R ε) ε} :
      x.own.seat.source ruleset = .ok (some game) →
      (TreeAgent.prepare role ruleset startClock playClock : Deliberation Mcts R ε Unit) x = .ok ⟨⟩ y →
      Run game role 0 game.start y
  | elsewhere {n : Nat} {s : State} {x y : Hosted (TreeAgent Mcts R ε) ε} :
      Run game role n s x → Undisturbed x y → Run game role n s y
  | watch {n : Nat} {s : State} {step : Turn × State} {x : Hosted (TreeAgent Mcts R ε) ε} :
      Run game role n s x → step ∈ game.transitions s → Run game role (n + 1) step.2 x
  | move {n k : Nat} {s : State} {step : Turn × State} {view : View} {move : Move}
      {x y y' z : Hosted (TreeAgent Mcts R ε) ε} :
      Run game role n s x → game.view? s role = .ok view →
      (SearchMethod.develop n view : Deliberation Mcts R ε Unit) x = .ok ⟨⟩ y → Simulates k y y' →
      (SearchMethod.commit move : Deliberation Mcts R ε Unit) y' = .ok ⟨⟩ z →
      step ∈ game.transitions s → step.1.find? role = some move → Run game role (n + 1) step.2 z

/-- The root of the tree stands for a state at a ply. -/
structure Stands (x : Hosted (TreeAgent Mcts R ε) ε) (n : Nat) (s : State) (root : NodeId) (r : Node R) : Prop where
  memory : x.own.memory.tree.root = some root
  node : x.own.arena.find? root = some r
  knows : r.Knows s
  depth : r.depth = n
  parent : r.parent = none

omit [Scalar R] [Host ε] in
lemma At.stands (h : At u x root r s) (hdepth : r.depth = n) : Stands x n s root r :=
  ⟨by rw [h.memory], h.node, h.knows, hdepth, h.parent⟩

section

variable (hsees : ∀ s, u.states s → u.game.view? s role = .ok s)
include hsees

lemma viewOf_eq (hs : u.states s) : u.game.viewOf s role = s := by
  simp [Game.viewOf, hsees s hs, Except.toOption]

/-- The agent finds the present state. -/
theorem At.develop_tracks (h : At u x root r t) (hr : r.Tracks u role n s t) (hs : u.states s)
    (hle : (n : Int) ≤ 2147483647) :
    ∃ y k m, (SearchMethod.develop n s : Deliberation Mcts R ε Unit) x = .ok ⟨⟩ y ∧ At u y k m s ∧ m.role = role ∧
      m.depth = n ∧ m.move = none := by
  have hwanted := hr.wanted
  rw [viewOf_eq hsees hs] at hwanted
  rcases Arena.developPerfect_cases s h.charted h.node h.knows (Int.ofNat_le.2 hr.depth) hle with
    ⟨k, a, m, s', hrun, hcharted, hm, hlater, -, hview⟩ | ⟨f, -, hunwanted⟩
  · obtain ⟨s'', hm', hstate⟩ := hcharted.known k m hm
    cases hm'.unique hlater.knows
    -- a state that the role sees as the present one is the present one
    obtain rfl : s' = s := by
      rw [← viewOf_eq hsees hstate, ← hr.owner]
      exact hview
    obtain ⟨y, hdevelop, hat, -⟩ := h.develop_of_ok hrun hcharted hm hlater.knows
    have hsum : r.depth + ((n : Int) - r.depth).toNat = n := by
      have := hr.depth
      omega
    refine ⟨y, k, _, hdevelop, hat, hlater.role.trans hr.owner, hlater.depth.trans hsum, hlater.move ?_⟩
    rcases Nat.eq_or_lt_of_le hr.depth with heq | hlt
    · exact .inr (hr.fresh heq)
    · exact .inl (by omega)
  · exact absurd hwanted (hunwanted s)

end

/-- An agent that is committed to the move that its role makes keeps track of the play. -/
theorem At.commit_tracks (h : At u x root r s) (howner : r.role = role) (hdepth : r.depth = n) (hfree : r.move = none)
    (hrun : (SearchMethod.commit move : Deliberation Mcts R ε Unit) x = .ok ⟨⟩ y)
    (hstep : step ∈ u.game.transitions s) (hmove : step.1.find? role = some move) :
    ∃ k m t, At u y k m t ∧ m.Tracks u role (n + 1) step.2 t := by
  have hcontains : step.1.contains r.role move = true := by rw [howner, Turn.contains, hmove]; simp
  obtain ⟨y', k, m, t, hrun', hat, hcases⟩ := h.commit_cases hfree move
  cases hrun.symm.trans hrun'
  rcases hcases with ⟨rfl, rfl⟩ | ⟨hnext, hrole, hnone, -, honly⟩
  · exact ⟨k, _, t, hat, Node.tracks_committed howner hdepth hstep hcontains⟩
  · obtain rfl := honly step hstep hcontains
    exact ⟨k, m, _, hat, Node.tracks_present (hrole.trans howner) (by rw [hnext, hdepth]) hnone⟩

/-- The root keeps track of the play as long as the match goes on. -/
theorem Run.tracks (hstart : u.states u.game.start) (hsees : ∀ s, u.states s → u.game.view? s role = .ok s)
    (hle : (n : Int) ≤ 2147483647) (h : Run u.game role n s x) :
    u.states s ∧ ∃ root r t, At u x root r t ∧ r.Tracks u role n s t := by
  induction h with
  | prepare hsource hprepare =>
    obtain ⟨root, r, hat, hr⟩ := At.prepare hsource hstart hprepare
    have hdepth := Nat.le_zero.1 hr.depth
    exact ⟨hstart, root, r, _, hat, Node.tracks_present hr.owner hdepth (hr.fresh hdepth)⟩
  | elsewhere _ hxy ih =>
    obtain ⟨hs, root, r, t, hat, hr⟩ := ih hle
    exact ⟨hs, root, r, t, hat.undisturbed hxy, hr⟩
  | watch _ hstep ih =>
    obtain ⟨hs, root, r, t, hat, hr⟩ := ih (by omega)
    exact ⟨u.answers.closed _ hs _ hstep, root, r, t, hat, hr.later hstep⟩
  | move _ hview hdevelop hsimulates hcommit hstep hmove ih =>
    obtain ⟨hs, root, r, t, hat, hr⟩ := ih (by omega)
    cases (hsees _ hs).symm.trans hview
    obtain ⟨y, k, m, hrun, hat, howner, hdepth, hfree⟩ := hat.develop_tracks hsees hr hs (by omega)
    cases hdevelop.symm.trans hrun
    obtain ⟨m', hat', halike, -⟩ := hat.simulates hsimulates
    exact ⟨u.answers.closed _ hs _ hstep, hat'.commit_tracks (halike.role.trans howner) (halike.depth.trans hdepth)
      (halike.move.trans hfree) hcommit hstep hmove⟩

/-- In any run of a match of an agent whose role sees the whole state: the tree mirrors the game, and whenever the
agent is asked, it is developed to the present state, whose node is the root then and during all simulations.  If
the root was for the present ply already, it is the same node; and if the first development from the old root leads
through expanded nodes, it is the node to which it leads, with all that is known about it. -/
theorem Run.tracks_state {game : Game} {possible : State → Prop} (hgame : game.AnswersOn possible)
    (hstart : possible game.start) (hsees : ∀ s, possible s → game.view? s role = .ok s)
    (hle : (n : Int) ≤ 2147483647) (h : Run game role n s x) :
    x.own.arena.Mirrors game ∧ ∃ y root r,
      (SearchMethod.develop n s : Deliberation Mcts R ε Unit) x = .ok ⟨⟩ y ∧ Stands y n s root r ∧
      (∀ k z, Simulates k y z → z.own.arena.Mirrors game ∧ ∃ r', Stands z n s root r') ∧
      ∀ root₀ r₀ t, x.own.memory.tree.root = some root₀ → x.own.arena.find? root₀ = some r₀ → r₀.Knows t →
        (r₀.depth = n → root = root₀ ∧ r = r₀.detached) ∧
        ∀ d, r₀.depth < n → Arena.firstDevelopment? game (r₀.outlook t n s) = .ok (some d) →
          x.own.arena.ExpandedAlong root₀ d →
          ∃ m, x.own.arena.Passes root₀ d root ∧ x.own.arena.find? root = some m ∧ r = m.detached := by
  let u : Upkeep := ⟨game, possible, hgame, True, False⟩
  obtain ⟨hs, root₀, r₀, t, hat₀, hr₀⟩ := Run.tracks (u := u) hstart hsees hle h
  obtain ⟨y, root, r, hrun, hat, -, hdepth, -⟩ := hat₀.develop_tracks hsees hr₀ hs hle
  refine ⟨hat₀.charted.mirrors, y, root, r, hrun, hat.stands hdepth, fun k z hsimulates => ?_, ?_⟩
  · obtain ⟨r', hat', halike, -⟩ := hat.simulates hsimulates
    exact ⟨hat'.charted.mirrors, r', hat'.stands (halike.depth.trans hdepth)⟩
  intro root₀' r₀' t' hroot hnode hknows
  obtain rfl : root₀ = root₀' := by simpa [hat₀.memory] using hroot
  obtain rfl := Option.some.inj (hat₀.node.symm.trans hnode)
  obtain rfl := hat₀.knows.unique hknows
  have hfound : ∀ k m a, Arena.developPerfect game root₀ n s x.own.arena = .ok k a → a.Charted u →
      a.find? k = some m → root = k ∧ r = m.detached := by
    intro k m a hdevelop hcharted hm
    obtain ⟨w, hw, -⟩ := hcharted.known k m hm
    obtain ⟨y', hrun', hat', -⟩ := hat₀.develop_of_ok hdevelop hcharted hm hw
    cases hrun.symm.trans hrun'
    obtain rfl : root = k := by simpa [hat.memory] using hat'.memory
    exact ⟨rfl, Option.some.inj (hat.node.symm.trans hat'.node)⟩
  refine ⟨fun hsame => ?_, fun d hlater hfirst hexpanded => ?_⟩
  · obtain rfl := hr₀.present hsame
    rcases Arena.developPerfect_here s hat₀.charted hat₀.node hat₀.knows with
      ⟨a, hdevelop, hcharted, hself, -⟩ | ⟨f, -, hview⟩
    · exact hfound root₀ r₀ a (hsame ▸ hdevelop) hcharted hself
    · rw [hr₀.owner, viewOf_eq (u := u) hsees hs] at hview
      exact absurd rfl hview
  · obtain ⟨k, m, hdevelop, hpasses, hm⟩ := hat₀.charted.developPerfect_retraces hat₀.node hat₀.knows
      (Int.ofNat_lt.2 hlater) hle hfirst hexpanded
    obtain ⟨rfl, hr⟩ := hfound k m _ hdevelop hat₀.charted hm
    exact ⟨m, hpasses, hm, hr⟩

/-- The theorem applies after two roles have bowed to each other, of which the guest sees everything. -/
theorem tracks_state_greeting : ∃ z : Hosted (TreeAgent Mcts Binary64 Session) Session,
    Run Greeting.game Greeting.guest 1 ∅ z ∧ ∃ y root r,
      (SearchMethod.develop 1 ∅ : Deliberation Mcts Binary64 Session Unit) z = .ok ⟨⟩ y ∧ Stands y 1 ∅ root r ∧
        y.own.arena.Mirrors Greeting.game := by
  let own : TreeAgent Mcts Binary64 Session := {
    seat := { source := fun _ => .ok (some Greeting.game) }
    settings := {}
    selector := .mostVisited
    chooser := .mostVisited
    evaluator := .ofTable [] Scalar.half
    memory := {} }
  let u : Upkeep := ⟨Greeting.game, _, Greeting.answers, True, False⟩
  let ruleset : Ruleset := ⟨"greeting"⟩
  let turn : Turn := .ofList [⟨Greeting.guest, Greeting.bow⟩, ⟨Greeting.landlord, Greeting.bow⟩]
  have hsees : ∀ s, u.states s → Greeting.game.view? s Greeting.guest = .ok s := fun _ _ => rfl
  have hsource : own.seat.source ruleset = .ok (some Greeting.game) := rfl
  have hstep : (turn, ∅) ∈ Greeting.game.transitions Greeting.game.start := by
    rw [Game.transitions_of_ok Greeting.successors?_start]
    exact List.mem_singleton_self _
  obtain ⟨x, hprepare⟩ : ∃ x, (TreeAgent.prepare Greeting.guest ruleset ⟨0, 0, 0⟩ ⟨0, 0, 0⟩ :
      Deliberation Mcts Binary64 Session Unit) ⟨own, .ofSeed 0⟩ = .ok ⟨⟩ x := ⟨_, rfl⟩
  have hx : Run Greeting.game Greeting.guest 0 Greeting.game.start x := .prepare hsource hprepare
  obtain ⟨hs, root₀, r₀, t, hat₀, hr₀⟩ := Run.tracks (u := u) (.inl rfl) hsees (by decide) hx
  obtain ⟨y, k, m, hdevelop, hat, -, -, hfree⟩ := hat₀.develop_tracks hsees hr₀ hs (by decide)
  obtain ⟨z, -, -, -, hcommit, -⟩ := hat.commit_cases hfree Greeting.bow
  have hz : Run Greeting.game Greeting.guest 1 ∅ z := hx.move (hsees _ hs) hdevelop .refl hcommit hstep (by decide)
  obtain ⟨-, y', root, r, hdevelop', hy, hmirrors, -⟩ :=
    Run.tracks_state Greeting.answers (.inl rfl) hsees (by decide) hz
  exact ⟨z, hz, y', root, r, hdevelop', hy, (hmirrors 0 y' .refl).1⟩

end Mcts

end GameSearch
