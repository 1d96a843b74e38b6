import GameSearch.Proofs.Agent.Mcts
import GameSearch.Proofs.Agent.SingleObserver
import GameSearch.Proofs.Agent.SingleTree
import GameSearch.Proofs.Perfect.Balance

/-!
# What agents with a single tree count

A simulation of either kind of agent ends at one node below the root, where its utility is taken in and
passed on to all nodes above.
-/

namespace GameSearch

namespace TreeAgent

variable {μ R ε : Type} {x y : Hosted (TreeAgent μ R ε) ε}

lemma gameAndRole_eq_ok {name : String} {pair : Game × Role}
    (h : (gameAndRole name : Deliberation μ R ε (Game × Role)) x = .ok pair y) : y = x := by
  obtain ⟨agent, x₁, hread, h₁⟩ := Action.bind_eq_ok.1 h
  cases hread
  obtain ⟨game, -, h₂⟩ := Action.lift_bind_eq_ok.1 h₁
  obtain ⟨role, -, h₃⟩ := Action.lift_bind_eq_ok.1 h₂
  cases h₃
  rfl

lemma onTrees_discard {α : Type} (action : Action (Hosted (Arena R) ε) α) :
    (onTrees (action >>= fun _ => pure ⟨⟩) : Deliberation μ R ε PUnit) =
      onTrees action >>= fun _ => pure ⟨⟩ := by
  funext x
  rw [onTrees_run]
  cases hrun : action (trees x) with
  | ok r t =>
    rw [Action.bind_of_ok hrun, Action.bind_of_ok (onTrees_of_ok hrun)]
    rfl
  | error f t => rw [Action.bind_of_error hrun, Action.bind_of_error (onTrees_of_error hrun)]

end TreeAgent

open TreeAgent

variable {R ε : Type} [Scalar R]

/-! ## Perfect information -/

namespace Mcts

/-- A simulation that tells at which node it ended, and which utility it found. -/
def simulateTo [Dice ε] (game : Game) (selector : Selector R ε) (evaluator : Evaluator R ε)
    (root : NodeId) : Action (Hosted (Arena R) ε) (List (NodeId × R)) := do
  let leaf ← descend selector (← Hosted.onOwn Arena.heightBound) root
  Hosted.onOwn (Arena.expand game leaf)
  let utility ← Arena.evaluate game evaluator leaf none
  Hosted.onOwn (Arena.backpropagate leaf utility)
  return [(leaf, utility)]

lemma simulate_eq [Dice ε] (game : Game) (selector : Selector R ε) (evaluator : Evaluator R ε)
    (root : NodeId) : simulate game selector evaluator root =
      simulateTo game selector evaluator root >>= fun _ => pure ⟨⟩ := by
  unfold simulate simulateTo
  simp only [bind_assoc, pure_bind, bind_pure_unit]

variable [Host ε]

instance : Recounts Mcts R ε where
  roots memory := memory.tree.root.toList
  recount := recountTree "mcts" simulateTo
  recount_step := by
    simp only [recountTree, bind_assoc, ← onTrees_discard, ← simulate_eq]
    rfl

variable {x y : Hosted (TreeAgent Mcts R ε) ε} {root : NodeId} {ply : Int} {view : View} {move : Move}

omit [Host ε] in
lemma simulateTo_eq_ok [Dice ε] {game : Game} {selector : Selector R ε} {evaluator : Evaluator R ε}
    {finals : List (NodeId × R)} {s t : Hosted (Arena R) ε} (h : s.own.Shaped)
    (hrun : simulateTo game selector evaluator root s = .ok finals t) :
    ∃ leaf utility m b, finals = [(leaf, utility)] ∧ EndsAt s.own root leaf utility b t.own ∧
      s.own.find? leaf = some m ∧ (m.isExpanded = true → m.isTerminal = true) ∧
      Arena.expand game leaf s.own = .ok ⟨⟩ b ∧ ∃ fuel u, descend selector fuel root s = .ok leaf u := by
  obtain ⟨bound, s₁, hbound, h₁⟩ := Action.bind_eq_ok.1 hrun
  obtain ⟨a₁, hget, rfl⟩ := Hosted.onOwn_eq_ok.1 hbound
  cases hget
  obtain ⟨leaf, s₂, hdescend, h₂⟩ := Action.bind_eq_ok.1 h₁
  obtain ⟨hown, hleads, -, m, -, hm, -, hstop⟩ := descend_eq_ok hdescend
  obtain ⟨_, s₃, hexpand, h₃⟩ := Action.bind_eq_ok.1 h₂
  obtain ⟨b, hgrow, rfl⟩ := Hosted.onOwn_eq_ok.1 hexpand
  obtain ⟨utility, s₄, hevaluate, h₄⟩ := Action.bind_eq_ok.1 h₃
  obtain ⟨_, s₅, hback, h₅⟩ := Action.bind_eq_ok.1 h₄
  obtain ⟨a', hup, rfl⟩ := Hosted.onOwn_eq_ok.1 hback
  cases h₅
  rw [hown] at hgrow
  exact ⟨leaf, utility, m, b, rfl, ⟨hleads, Arena.respects_expand _ _ _ hgrow h,
    s₄.own, Arena.evaluate_propagates hevaluate, hup⟩, hm, hstop, hgrow, _, _, hdescend⟩

/-- The tree stands, and its playouts add up. -/
structure Balances (x : Hosted (TreeAgent Mcts R ε) ε) : Prop where
  stands : ∃ root, TreeAgent.Stands x root
  balanced : x.own.arena.Balanced

/-- A simulation ends at a node that is expanded, and counted there and above. -/
lemma Balances.recount_eq_ok {finals : List (NodeId × R)} (h : Balances x)
    (hrun : (Recounts.recount : Deliberation Mcts R ε (List (NodeId × R))) x = .ok finals y) :
    ∃ root leaf utility b, TreeAgent.Stands x root ∧ finals = [(leaf, utility)] ∧
      EndsAt x.own.arena root leaf utility b y.own.arena ∧
      Arena.Credits (b.Leads · leaf) utility b y.own.arena ∧ b.Awaits leaf ∧
      (∃ game, x.own.seat.game = some game ∧ Arena.expandPerfect game leaf x.own.arena = .ok ⟨⟩ b) ∧
      (∃ fuel u, descend x.own.selector fuel root (trees x) = .ok leaf u) ∧ ∃ t, y = withTrees x t := by
  obtain ⟨root, hstands⟩ := h.stands
  obtain ⟨game, hgame, t, hsimulate, rfl⟩ := hstands.recount hrun
  obtain ⟨leaf, utility, m, b, rfl, hends, hm, hstop, hexpand, hdescend⟩ := simulateTo_eq_ok hstands.shaped hsimulate
  obtain ⟨s, hs⟩ := h.balanced.perfect leaf m hm
  rw [Arena.expand_of_knows hm hs] at hexpand
  exact ⟨root, leaf, utility, b, hstands, rfl, hends, hstands.credits hends,
    h.balanced.awaits hstands.shaped hm hstop hexpand, ⟨game, hgame, hexpand⟩, hdescend, t, rfl⟩

lemma Balances.recount {finals : List (NodeId × R)} (h : Balances x)
    (hrun : (Recounts.recount : Deliberation Mcts R ε (List (NodeId × R))) x = .ok finals y) :
    Balances y ∧ Tallies finals x y := by
  obtain ⟨root, leaf, utility, b, hstands, rfl, hends, hcredits, hawaits, -, -, t, rfl⟩ := h.recount_eq_ok hrun
  have honly : Recounts.roots R ε x.own.memory = [root] := congrArg Option.toList hstands.planted
  obtain ⟨hstands', htallies⟩ := hstands.tallies (y := withTrees x t) hends rfl honly
  exact ⟨⟨⟨root, hstands'⟩, hawaits.credited hends.expanded.shaped hcredits⟩, htallies⟩

/-- A tree that is developed passes its nodes on. -/
lemma Balances.develop_eq_ok (h : Balances x)
    (hrun : (SearchMethod.develop ply view : Deliberation Mcts R ε Unit) x = .ok ⟨⟩ y) :
    (∃ root, TreeAgent.Stands y root) ∧ x.own.arena.Inherits y.own.arena ∧ Arena.Renews x.own.arena y.own.arena ∧
      y.own.selector = x.own.selector := by
  obtain ⟨root, hstands⟩ := h.stands
  obtain ⟨game, k, t, hdevelop, hgrows, hrerooted, hstands', hselector⟩ := hstands.develop "mcts" hrun
  have hrenews := h.balanced.develop_renews (s := trees x) hstands.shaped hdevelop
  exact ⟨⟨k, hstands'⟩, hrerooted.inherits.grows hgrows, hrenews.trans hrerooted.renews, hselector⟩

/-- So does a tree whose root is committed to a move. -/
lemma Balances.commit_eq_ok (h : Balances x)
    (hrun : (SearchMethod.commit move : Deliberation Mcts R ε Unit) x = .ok ⟨⟩ y) :
    (∃ root, TreeAgent.Stands y root) ∧ x.own.arena.Inherits y.own.arena ∧ Arena.Renews x.own.arena y.own.arena ∧
      y.own.selector = x.own.selector := by
  obtain ⟨root, hstands⟩ := h.stands
  obtain ⟨a, b, k, hcommit, htrim, hgrows, hrerooted, hstands', hselector⟩ := hstands.commit hrun
  have hcommitted := Arena.commit_renews hcommit
  have htrimmed := Arena.trim_renews (hcommitted.perfect h.balanced.perfect) htrim
  exact ⟨⟨k, hstands'⟩, hrerooted.inherits.grows hgrows, (hcommitted.trans htrimmed).trans hrerooted.renews, hselector⟩

omit [Scalar R] [Host ε] in
lemma Balances.renew (h : Balances x) (hstands : ∃ root, TreeAgent.Stands y root)
    (hinherits : x.own.arena.Inherits y.own.arena) (hrenews : Arena.Renews x.own.arena y.own.arena) : Balances y := by
  obtain ⟨root, hroot⟩ := hstands
  exact ⟨⟨root, hroot⟩, h.balanced.renew hroot.shaped hinherits hrenews⟩

/-- A tree is planted with a root that no simulation has reached. -/
lemma plant_eq_ok {game : Game} {role : Role} (hempty : x.own.arena = ∅)
    (hrun : (Mcts.plant game role : Deliberation Mcts R ε Unit) x = .ok ⟨⟩ y) :
    ∃ root n, Arena.add (.ok n) ∅ = .ok root y.own.arena ∧ n.Bare ∧ n.Pristine ∧ n.parent = none ∧
      y.own.memory = ⟨⟨some root⟩⟩ ∧ y.own.selector = x.own.selector := by
  obtain ⟨root, x₁, hplanted, h₁⟩ := Action.bind_eq_ok.1 hrun
  obtain ⟨a, hadd, rfl⟩ := onArena_eq_ok.1 hplanted
  obtain ⟨_, x₂, hremember, h₂⟩ := Action.bind_eq_ok.1 h₁
  cases hremember
  obtain ⟨agent, x₃, hread, h₃⟩ := Action.bind_eq_ok.1 h₂
  cases hread
  -- making a book changes neither the tree nor the memory
  have hsame : y.own.arena = a ∧ y.own.memory = ⟨⟨some root⟩⟩ ∧ y.own.selector = x.own.selector := by
    split at h₃
    · obtain ⟨_, x₄, hread, h₄⟩ := Action.bind_eq_ok.1 h₃
      cases hread
      obtain ⟨book, x₅, hbook, h₅⟩ := Action.bind_eq_ok.1 h₄
      obtain ⟨host, -, rfl⟩ := Hosted.onHost_eq_ok.1 hbook
      obtain ⟨playouts, -, h₆⟩ := Action.lift_bind_eq_ok.1 h₅
      cases h₆
      exact ⟨rfl, rfl, rfl⟩
    · cases h₃
      exact ⟨rfl, rfl, rfl⟩
  obtain ⟨rfl, hmemory, hselector⟩ := hsame
  rw [hempty] at hadd
  obtain ⟨n, hn, -⟩ := Arena.orderly_empty.add_eq_ok hadd
  exact ⟨root, n, hn ▸ hadd, Node.bare_of_perfect? hn, Arena.pristine_of_perfect? hn,
    by rw [Node.perfect?_eq_ok hn], hmemory, hselector⟩

omit [Scalar R] [Host ε] in
lemma balances_of_added {n : Node R} (hadd : Arena.add (.ok n) ∅ = .ok root y.own.arena) (hbare : n.Bare)
    (hpristine : n.Pristine) (hparent : n.parent = none) (hmemory : y.own.memory = ⟨⟨some root⟩⟩) :
    Balances y ∧ ∀ id, y.own.arena.valuation? id = none := by
  obtain ⟨hstands, hnone⟩ := TreeAgent.Stands.of_added hbare hparent hadd hmemory
  obtain ⟨n', hn', hadded⟩ := Arena.orderly_empty.add_eq_ok hadd
  cases hn'
  exact ⟨⟨⟨root, hstands⟩, hadded.balanced hpristine⟩, hnone⟩

omit [Scalar R] [Host ε] in
lemma Balances.undisturbed (h : Balances x) (hxy : TreeAgent.Undisturbed x y) : Balances y := by
  obtain ⟨root, hstands⟩ := h.stands
  exact ⟨⟨root, hstands.undisturbed hxy⟩, by rw [hxy.arena]; exact h.balanced⟩

/-- An agent with a tree of perfect information accounts for its simulations. -/
theorem audited (clean : Hosted (TreeAgent Mcts R ε) ε → Ruleset → Prop) : Audited clean Balances where
  prepare _ hrun := by
    obtain ⟨game, -, hplant⟩ := prepare_eq_ok hrun
    obtain ⟨⟨game, role⟩, x₁, hread, h₁⟩ := Action.bind_eq_ok.1 hplant
    obtain rfl := gameAndRole_eq_ok hread
    obtain ⟨root, n, hadd, hbare, hpristine, hparent, hmemory, -⟩ := plant_eq_ok rfl h₁
    exact balances_of_added hadd hbare hpristine hparent hmemory
  elsewhere h hxy := h.undisturbed hxy
  develop h hrun := by
    obtain ⟨hstands, hinherits, hrenews, -⟩ := h.develop_eq_ok hrun
    exact ⟨h.renew hstands hinherits hrenews, hinherits⟩
  recount h hrun := h.recount hrun
  commit h hrun := by
    obtain ⟨hstands, hinherits, hrenews, -⟩ := h.commit_eq_ok hrun
    exact ⟨h.renew hstands hinherits hrenews, hinherits⟩

end Mcts

/-! ## One point of view -/

namespace SingleObserver

/-- A simulation that tells at which node it ended, and which utility it found. -/
def simulateTo [Dice ε] (game : Game) (selector : Selector R ε) (evaluator : Evaluator R ε)
    (root : NodeId) : Action (Hosted (Arena R) ε) (List (NodeId × R)) := do
  let world ← Hosted.onHost (Arena.drawWorld (← Hosted.onOwn (Arena.node root)))
  let (leaf, world) ← descend selector (← Hosted.onOwn Arena.heightBound) root world
  Hosted.onOwn (Arena.expandWorld game leaf world)
  let utility ← Arena.evaluate game evaluator leaf (some world)
  Hosted.onOwn (Arena.backpropagate leaf utility)
  return [(leaf, utility)]

lemma simulate_eq [Dice ε] (game : Game) (selector : Selector R ε) (evaluator : Evaluator R ε)
    (root : NodeId) : simulate game selector evaluator root =
      simulateTo game selector evaluator root >>= fun _ => pure ⟨⟩ := by
  unfold simulate simulateTo
  simp only [bind_assoc, pure_bind, bind_pure_unit]

variable [Host ε]

instance : Recounts SingleObserver R ε where
  roots memory := memory.tree.root.toList
  recount := recountTree "sois-mcts" simulateTo
  recount_step := by
    simp only [recountTree, bind_assoc, ← onTrees_discard, ← simulate_eq]
    rfl

variable {x y : Hosted (TreeAgent SingleObserver R ε) ε} {root : NodeId} {ply : Int} {view : View} {move : Move}

omit [Host ε] in
lemma simulateTo_eq_ok [Dice ε] {game : Game} {selector : Selector R ε} {evaluator : Evaluator R ε}
    {finals : List (NodeId × R)} {s t : Hosted (Arena R) ε} (h : s.own.Shaped)
    (hrun : simulateTo game selector evaluator root s = .ok finals t) :
    ∃ leaf utility b, finals = [(leaf, utility)] ∧ EndsAt s.own root leaf utility b t.own := by
  obtain ⟨n, s₁, hn, h₁⟩ := Action.bind_eq_ok.1 hrun
  obtain ⟨a₁, hnode, rfl⟩ := Hosted.onOwn_eq_ok.1 hn
  obtain ⟨-, rfl⟩ := Arena.node_eq_ok.1 hnode
  obtain ⟨w, s₂, hw, h₂⟩ := Action.bind_eq_ok.1 h₁
  obtain ⟨host₁, -, rfl⟩ := Hosted.onHost_eq_ok.1 hw
  obtain ⟨bound, s₃, hbound, h₃⟩ := Action.bind_eq_ok.1 h₂
  obtain ⟨a₂, hget, rfl⟩ := Hosted.onOwn_eq_ok.1 hbound
  cases hget
  obtain ⟨⟨leaf, w'⟩, s₄, hdescend, h₄⟩ := Action.bind_eq_ok.1 h₃
  obtain ⟨hown, hleads⟩ := descend_leads hdescend
  obtain ⟨_, s₅, hexpand, h₅⟩ := Action.bind_eq_ok.1 h₄
  obtain ⟨b, hgrow, rfl⟩ := Hosted.onOwn_eq_ok.1 hexpand
  obtain ⟨utility, s₆, hevaluate, h₆⟩ := Action.bind_eq_ok.1 h₅
  obtain ⟨_, s₇, hback, h₇⟩ := Action.bind_eq_ok.1 h₆
  obtain ⟨a', hup, rfl⟩ := Hosted.onOwn_eq_ok.1 hback
  cases h₇
  rw [hown] at hgrow
  exact ⟨leaf, utility, b, rfl, hleads, Arena.respects_expandWorld _ _ _ hgrow h,
    s₆.own, Arena.evaluate_propagates hevaluate, hup⟩

omit [Scalar R] [Host ε] in
/-- The first belief of a role is a root of its own. -/
lemma firstBelief?_eq_ok {game : Game} {role : Role} {n : Node R} (h : firstBelief? game role = .ok n) :
    n.Bare ∧ n.station = ⟨none, 0, role⟩ := by
  unfold firstBelief? at h
  cases hview : game.view? game.start role with
  | error f =>
    rw [hview] at h
    cases h
  | ok view =>
    rw [hview] at h
    simp only [bind, Except.bind] at h
    obtain ⟨b, -, hnode⟩ := Node.belief?_eq_ok h
    exact ⟨Node.bare_of_belief? h, by rw [hnode]; rfl⟩

omit [Scalar R] [Host ε] in
lemma plant_stands {game : Game} {role : Role} (hempty : x.own.arena = ∅)
    (hrun : (SingleObserver.plant game role : Deliberation SingleObserver R ε Unit) x = .ok ⟨⟩ y) :
    (∃ root, Stands y root) ∧ ∀ id, y.own.arena.valuation? id = none := by
  obtain ⟨n, hn, h₁⟩ := Action.lift_bind_eq_ok.1 hrun
  obtain ⟨hbare, hstation⟩ := firstBelief?_eq_ok hn
  obtain ⟨root, x₁, hplanted, h₂⟩ := Action.bind_eq_ok.1 h₁
  obtain ⟨a, hadd, rfl⟩ := onArena_eq_ok.1 hplanted
  rw [hempty] at hadd
  have hadd' : Arena.add (.ok n) (∅ : Arena R) = .ok root a := hadd
  have hy : y.own.arena = a ∧ y.own.memory = ⟨⟨some root⟩⟩ := by
    cases h₂
    exact ⟨rfl, rfl⟩
  obtain ⟨rfl, hmemory⟩ := hy
  obtain ⟨hstands, hnone⟩ := Stands.of_added hbare (congrArg Station.parent hstation) hadd' hmemory
  exact ⟨⟨root, hstands⟩, hnone⟩

/-- An agent with a tree of beliefs accounts for its simulations. -/
theorem audited (clean : Hosted (TreeAgent SingleObserver R ε) ε → Ruleset → Prop) :
    Audited clean fun x => ∃ root, Stands x root where
  prepare _ hrun := by
    obtain ⟨game, -, hplant⟩ := prepare_eq_ok hrun
    obtain ⟨⟨game, role⟩, x₁, hread, h₁⟩ := Action.bind_eq_ok.1 hplant
    obtain rfl := gameAndRole_eq_ok hread
    exact plant_stands rfl h₁
  elsewhere h hxy := h.imp fun _ hstands => hstands.undisturbed hxy
  develop h hrun := by
    obtain ⟨root, hstands⟩ := h
    obtain ⟨game, k, t, -, hgrows, hrerooted, hstands', -⟩ := hstands.develop "sois-mcts" hrun
    exact ⟨⟨k, hstands'⟩, hrerooted.inherits.grows hgrows⟩
  recount h hrun := by
    obtain ⟨root, hstands⟩ := h
    obtain ⟨game, -, t, hsimulate, rfl⟩ := hstands.recount hrun
    obtain ⟨leaf, utility, b, rfl, hends⟩ := simulateTo_eq_ok hstands.shaped hsimulate
    obtain ⟨hstands', htallies⟩ := hstands.tallies (y := withTrees _ t) hends rfl
      (congrArg Option.toList hstands.planted)
    exact ⟨⟨root, hstands'⟩, htallies⟩
  commit h hrun := by
    obtain ⟨root, hstands⟩ := h
    obtain ⟨a, b, k, -, -, hgrows, hrerooted, hstands', -⟩ := hstands.commit hrun
    exact ⟨⟨k, hstands'⟩, hrerooted.inherits.grows hgrows⟩

end SingleObserver

end GameSearch
