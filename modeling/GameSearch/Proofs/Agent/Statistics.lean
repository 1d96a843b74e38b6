import GameSearch.Proofs.Agent.JointRooting
import GameSearch.Proofs.Agent.PerfectPlay

/-!
# The statistics are the simulations

What is true of the statistics of all three ways of searching, under any calls, with any selectors and
evaluators and whatever chance draws: `TreeAgent.counts_simulations`.
-/

namespace GameSearch

namespace TreeAgent

section Exact

variable {μ ε : Type} [SearchMethod μ ℚ ε] [Recounts μ ℚ ε]
  {clean : Hosted (TreeAgent μ ℚ ε) ε → Ruleset → Prop}

/-- In exact arithmetic the statistics of an agent tell of its simulations, all of them and nothing else. -/
structure Exact (clean : Hosted (TreeAgent μ ℚ ε) ε → Ruleset → Prop) : Prop where
  /-- A node has had a playout for each simulation that ended at it or below it. -/
  playouts : ∀ x L, Calls clean x L → ∀ id, x.own.arena.contains id = true →
    x.own.arena.playouts id = (L id).length
  /-- Its mean is the average of the utilities that they brought. -/
  mean : ∀ x L, Calls clean x L → ∀ id v, x.own.arena.valuation? id = some v →
    v.mean = (L id).sum / (L id).length
  /-- When a match begins, no node has had a playout. -/
  fresh : ∀ role ruleset startClock playClock x y, clean x ruleset →
    (TreeAgent.prepare role ruleset startClock playClock : Deliberation μ ℚ ε Unit) x = .ok ⟨⟩ y →
      ∀ id, y.own.arena.playouts id = 0
  /-- Each simulation is one more playout of each root. -/
  steps : ∀ x L, Calls clean x L → ∀ k y, Simulates k x y →
    Recounts.roots ℚ ε y.own.memory = Recounts.roots ℚ ε x.own.memory ∧
      ∀ root ∈ Recounts.roots ℚ ε x.own.memory, y.own.arena.playouts root = x.own.arena.playouts root + k

theorem Audited.exact {inv : Hosted (TreeAgent μ ℚ ε) ε → Prop} (h : Audited clean inv) : Exact clean where
  playouts x L hcalls id hid := (h.accounts hcalls).2.playouts hid
  mean x L hcalls id v hv := by
    obtain ⟨n, hn, hvaluation⟩ := Option.bind_eq_some_iff.1 hv
    exact Valuation.mean_ofAll (((h.accounts hcalls).2 id n hn).symm.trans hvaluation)
  fresh role ruleset startClock playClock x y hclean hrun id := by
    rw [Arena.playouts, (h.prepare hclean hrun).2]
    rfl
  steps x L hcalls k y hsimulates := (h.simulates (h.accounts hcalls).1 hsimulates).2

end Exact

/-- The statistics of agents with one tree are exactly their simulations, and so are those of an agent with a
tree for each role, unless it begins a match while it still has a tree of a role that does not take part.  With
perfect information a node that has been expanded, is not terminal and whose owner is not committed to a move
has had one playout more than its children together. -/
theorem counts_simulations (ε : Type) [Host ε] :
    Exact (fun (_ : Hosted (TreeAgent Mcts ℚ ε) ε) _ => True) ∧
      Exact (fun (_ : Hosted (TreeAgent SingleObserver ℚ ε) ε) _ => True) ∧
      Exact (MultiObserver.Clean : Hosted (TreeAgent MultiObserver ℚ ε) ε → Ruleset → Prop) ∧
      ∀ (x : Hosted (TreeAgent Mcts ℚ ε) ε) (L : Ledger ℚ), Calls (fun _ _ => True) x L →
        ∀ id n, x.own.arena.find? id = some n → n.isExpanded = true → n.isTerminal = false → n.move = none →
          x.own.arena.playouts id = ∑ k ∈ n.children.toFinset, x.own.arena.playouts k + 1 := by
  refine ⟨(Mcts.audited _).exact, (SingleObserver.audited _).exact, MultiObserver.audited.exact, ?_⟩
  intro x L hcalls id n hn hexpanded hmore hfree
  obtain ⟨hbalances, -⟩ := (Mcts.audited fun _ _ => True).accounts hcalls
  exact hbalances.balanced.sum id n hn hfree hexpanded hmore

/-- An agent that begins a match in which all bow to each other, and does one simulation. -/
theorem counts_simulations_greeting : ∃ (x y : Hosted (TreeAgent Mcts ℚ Session) Session) (L : Ledger ℚ)
    (root : NodeId), Simulates 1 x y ∧ Calls (fun _ _ => True) y L ∧ y.own.memory.tree.root = some root ∧
      y.own.arena.playouts root = 1 ∧ (L root).length = 1 := by
  let own : TreeAgent Mcts ℚ Session := {
    seat := { source := fun _ => .ok (some Greeting.game) }
    settings := {}
    selector := .mostVisited
    chooser := .mostVisited
    evaluator := .ofTable [] Scalar.half
    memory := {} }
  let u : Upkeep := ⟨Greeting.game, _, Greeting.answers, True, False⟩
  let ruleset : Ruleset := ⟨"greeting"⟩
  have hsource : own.seat.source ruleset = .ok (some Greeting.game) := rfl
  obtain ⟨x, hprepare, hevaluator, hpristine⟩ : ∃ x,
      (TreeAgent.prepare Greeting.guest ruleset ⟨0, 0, 0⟩ ⟨0, 0, 0⟩ :
        Deliberation Mcts ℚ Session Unit) ⟨own, .ofSeed 0⟩ = .ok ⟨⟩ x ∧
        x.own.evaluator = .ofTable [] Scalar.half ∧
        ∀ root r, x.own.memory.tree.root = some root → x.own.arena.find? root = some r → r.edges = none := by
    refine ⟨_, rfl, rfl, fun root r hroot hr => ?_⟩
    cases hroot
    cases hr
    rfl
  obtain ⟨root, r, hat, -⟩ := Mcts.At.prepare (u := u) hsource (.inl rfl) hprepare
  have hroot : x.own.memory.tree.root = some root := by rw [hat.memory]
  have hvalue : x.own.evaluator.evaluate Greeting.game Greeting.game.start r.role x.host =
      .ok Scalar.half x.host := by
    rw [hevaluator]
    rfl
  have hunit : Scalar.isUnit (Scalar.half : ℚ) = true := by decide +kernel
  obtain ⟨y, hstep⟩ := hat.step_pristine (hpristine root r hroot hat.node) hvalue hunit
  have hsimulates : Simulates 1 x y := .step .refl hstep
  have hx : Calls (fun _ _ => True) x fun _ => [] := .prepare trivial hprepare
  rw [← Recounts.recount_step] at hstep
  obtain ⟨finals, z, hrecount, hpure⟩ := Action.bind_eq_ok.1 hstep
  cases hpure
  have hy := hx.step hrecount
  obtain ⟨hexact, -⟩ := counts_simulations Session
  obtain ⟨hsame, hcount⟩ := hexact.steps x _ hx 1 y hsimulates
  have hin : root ∈ Recounts.roots ℚ Session x.own.memory := by simp [Recounts.roots, hroot]
  have hone : y.own.arena.playouts root = 1 := by
    rw [hcount root hin, hexact.fresh _ _ _ _ _ _ trivial hprepare]
  have hlive : y.own.arena.contains root = true := by
    cases hfind : y.own.arena.find? root with
    | none => simp [Arena.playouts, Arena.valuation?, hfind] at hone
    | some n => exact Arena.contains_iff.2 ⟨n, hfind⟩
  have hin' : root ∈ Recounts.roots ℚ Session y.own.memory := hsame.symm ▸ hin
  have hroot' : y.own.memory.tree.root = some root := Option.mem_toList.1 hin'
  exact ⟨x, y, _, root, hsimulates, hy, hroot', hone, (hexact.playouts y _ hy root hlive).symm.trans hone⟩

end TreeAgent

end GameSearch
