import GameSearch.Agent.SingleObserver
import GameSearch.Proofs.Agent.Ledger

/-!
# Agents with a single tree

What agents that keep one tree do to it: they make the node that they develop it to, or the only child left
after a commitment, its root.  `TreeAgent.Stands` is kept by all of this, whatever the game answers.
-/

namespace GameSearch

/-- Memories that are no more than the root of a tree. -/
class SingleTree (μ : Type) where
  tree : μ → RootMemory
  ofRoot : NodeId → μ
  tree_ofRoot : ∀ id, tree (ofRoot id) = ⟨some id⟩

instance : SingleTree Mcts := ⟨Mcts.tree, fun id => ⟨⟨some id⟩⟩, fun _ => rfl⟩

instance : SingleTree SingleObserver := ⟨SingleObserver.tree, fun id => ⟨⟨some id⟩⟩, fun _ => rfl⟩

lemma RootMemory.root?_eq_ok {memory : RootMemory} {root : NodeId} (h : memory.root? = .ok root) :
    memory.root = some root := by
  unfold root? at h
  cases hroot : memory.root with
  | none =>
    rw [hroot] at h
    cases h
  | some id =>
    rw [hroot] at h
    cases h
    rfl

lemma Seat.game?_eq_ok {seat : Seat} {name : String} {game : Game} (h : seat.game? name = .ok game) :
    seat.game = some game := by
  unfold game? at h
  split at h
  · next heq =>
    cases h
    exact heq
  · cases h

namespace TreeAgent

variable {μ R ε : Type} [SingleTree μ] {x y : Hosted (TreeAgent μ R ε) ε} {root k leaf : NodeId} {ply : Int}
  {view : View} {move : Move} {a b c : Arena R} {n : Node R}

/-- The tree of an agent has a root, above which there is nothing. -/
structure Stands (x : Hosted (TreeAgent μ R ε) ε) (root : NodeId) : Prop where
  planted : (SingleTree.tree x.own.memory).root = some root
  shaped : x.own.arena.Shaped
  above : ∃ s, x.own.arena.station? root = some s ∧ s.parent = none

lemma Stands.unique (h : Stands x root) (hk : (SingleTree.tree x.own.memory).root = some k) : k = root :=
  Option.some.inj (hk.symm.trans h.planted)

lemma Stands.undisturbed (h : Stands x root) (hxy : Undisturbed x y) : Stands y root :=
  ⟨by rw [hxy.memory, h.planted], by rw [hxy.arena]; exact h.shaped, by rw [hxy.arena]; exact h.above⟩

/-- A node that has been made the only root is the root of the tree. -/
lemma Stands.of_rerooted (h : a.Rerooted k y.own.arena) (hmemory : y.own.memory = SingleTree.ofRoot k) :
    Stands y k := by
  obtain ⟨n, -, hn⟩ := h.root
  exact ⟨by rw [hmemory, SingleTree.tree_ofRoot], h.shaped, _, Arena.station?_of_find? hn, rfl⟩

lemma Stands.of_added (hbare : n.Bare) (hparent : n.parent = none)
    (hadd : Arena.add (.ok n) ∅ = .ok k y.own.arena) (hmemory : y.own.memory = SingleTree.ofRoot k) :
    Stands y k ∧ ∀ id, y.own.arena.valuation? id = none := by
  obtain ⟨n', hn', hadded⟩ := Arena.orderly_empty.add_eq_ok hadd
  cases hn'
  have hexpanded := hadded.expanded Arena.shaped_empty hbare
  refine ⟨⟨by rw [hmemory, SingleTree.tree_ofRoot], hexpanded.shaped,
    _, Arena.station?_of_find? hadded.self, hparent⟩, fun id => ?_⟩
  rw [hexpanded.valuation, Arena.valuation?, Arena.find?_empty]
  rfl

/-! ## What the agents do -/

def theRoot : Deliberation μ R ε NodeId := do (SingleTree.tree (← memorized)).root?

/-- Makes a node the root of the tree, which alone is kept. -/
def rerootTree (id : NodeId) : Deliberation μ R ε Unit := do
  remember fun _ => SingleTree.ofRoot id
  onArena (Arena.reroot id)

def developTree [Dice ε] (name : String) (ply : Int) (view : View) : Deliberation μ R ε Unit := do
  let root ← theRoot
  let _ ← onArena (Arena.node root)
  let game ← (← Hosted.read).seat.game? name
  rerootTree (← onTrees (Arena.develop game root ply view))

/-- Commits the root to a move and goes on to its child if there is only one left. -/
def commitTree (move : Move) : Deliberation μ R ε Unit := do
  let root ← theRoot
  onArena (Arena.commit root move)
  onArena (Arena.trim root)
  let next ← (← onArena get).soleChild? root
  rerootTree next

/-- A simulation in the tree. -/
def recountTree (name : String)
    (simulate : Game → Selector R ε → Evaluator R ε → NodeId → Action (Hosted (Arena R) ε) (List (NodeId × R))) :
    Deliberation μ R ε (List (NodeId × R)) := do
  let game ← (← Hosted.read).seat.game? name
  let selector ← theSelector
  let evaluator ← theEvaluator
  let root ← theRoot
  onTrees (simulate game selector evaluator root)

lemma theRoot_eq_ok (h : (theRoot : Deliberation μ R ε NodeId) x = .ok root y) :
    (SingleTree.tree x.own.memory).root = some root ∧ y = x := by
  obtain ⟨memory, x₁, hmemory, h₁⟩ := Action.bind_eq_ok.1 h
  cases hmemory
  obtain ⟨hroot, rfl⟩ := Action.lift_eq_ok.1 h₁
  exact ⟨RootMemory.root?_eq_ok hroot, rfl⟩

lemma rerootTree_eq_ok (h : (rerootTree k : Deliberation μ R ε Unit) x = .ok ⟨⟩ y) :
    Arena.reroot k x.own.arena = .ok ⟨⟩ y.own.arena ∧ y.own.memory = SingleTree.ofRoot k ∧
      y.own.selector = x.own.selector := by
  obtain ⟨_, x₁, hremember, h₁⟩ := Action.bind_eq_ok.1 h
  cases hremember
  obtain ⟨a, hreroot, rfl⟩ := onArena_eq_ok.1 h₁
  exact ⟨hreroot, rfl, rfl⟩

/-- A tree that has been developed grows to the node that is found, which becomes the root. -/
lemma developTree_eq_ok [Dice ε] {name : String}
    (h : (developTree name ply view : Deliberation μ R ε Unit) x = .ok ⟨⟩ y) :
    ∃ root game k t, (SingleTree.tree x.own.memory).root = some root ∧
      Arena.develop game root ply view (trees x) = .ok k t ∧
      Arena.reroot k t.own = .ok ⟨⟩ y.own.arena ∧ y.own.memory = SingleTree.ofRoot k ∧
      y.own.selector = x.own.selector := by
  obtain ⟨root, x₁, hroot, h₁⟩ := Action.bind_eq_ok.1 h
  obtain ⟨hroot, rfl⟩ := theRoot_eq_ok hroot
  obtain ⟨n, x₂, hnode, h₂⟩ := Action.bind_eq_ok.1 h₁
  obtain ⟨a, hfind, rfl⟩ := onArena_eq_ok.1 hnode
  obtain ⟨-, rfl⟩ := Arena.node_eq_ok.1 hfind
  obtain ⟨agent, x₃, hread, h₃⟩ := Action.bind_eq_ok.1 h₂
  cases hread
  obtain ⟨game, -, h₄⟩ := Action.lift_bind_eq_ok.1 h₃
  obtain ⟨k, x₄, hfound, h₅⟩ := Action.bind_eq_ok.1 h₄
  obtain ⟨t, hdevelop, rfl⟩ := onTrees_eq_ok.1 hfound
  exact ⟨root, game, k, t, hroot, hdevelop, rerootTree_eq_ok h₅⟩

/-- A tree whose root has been committed is trimmed, and the only child left becomes the root. -/
lemma commitTree_eq_ok (h : (commitTree move : Deliberation μ R ε Unit) x = .ok ⟨⟩ y) :
    ∃ root a b k, (SingleTree.tree x.own.memory).root = some root ∧
      Arena.commit root move x.own.arena = .ok ⟨⟩ a ∧ Arena.trim root a = .ok ⟨⟩ b ∧
      b.soleChild? root = .ok k ∧ Arena.reroot k b = .ok ⟨⟩ y.own.arena ∧
      y.own.memory = SingleTree.ofRoot k ∧ y.own.selector = x.own.selector := by
  obtain ⟨root, x₁, hroot, h₁⟩ := Action.bind_eq_ok.1 h
  obtain ⟨hroot, rfl⟩ := theRoot_eq_ok hroot
  obtain ⟨_, x₂, hcommitted, h₂⟩ := Action.bind_eq_ok.1 h₁
  obtain ⟨a, hcommit, rfl⟩ := onArena_eq_ok.1 hcommitted
  obtain ⟨_, x₃, htrimmed, h₃⟩ := Action.bind_eq_ok.1 h₂
  obtain ⟨b, htrim, rfl⟩ := onArena_eq_ok.1 htrimmed
  obtain ⟨arena, x₄, hget, h₄⟩ := Action.bind_eq_ok.1 h₃
  obtain ⟨b', hsame, rfl⟩ := onArena_eq_ok.1 hget
  cases hsame
  obtain ⟨k, hk, h₅⟩ := Action.lift_bind_eq_ok.1 h₄
  exact ⟨root, a, b, k, hroot, hcommit, htrim, hk, rerootTree_eq_ok h₅⟩

lemma Stands.recount {name : String} {finals : List (NodeId × R)}
    {simulate : Game → Selector R ε → Evaluator R ε → NodeId → Action (Hosted (Arena R) ε) (List (NodeId × R))}
    (h : Stands x root) (hrun : (recountTree name simulate : Deliberation μ R ε (List (NodeId × R))) x = .ok finals y) :
    ∃ game, x.own.seat.game = some game ∧ ∃ t,
      simulate game x.own.selector x.own.evaluator root (trees x) = .ok finals t ∧ y = withTrees x t := by
  obtain ⟨agent, x₁, hread, h₁⟩ := Action.bind_eq_ok.1 hrun
  cases hread
  obtain ⟨game, hgame, h₂⟩ := Action.lift_bind_eq_ok.1 h₁
  obtain ⟨selector, x₂, hselector, h₃⟩ := Action.bind_eq_ok.1 h₂
  cases hselector
  obtain ⟨evaluator, x₃, hevaluator, h₄⟩ := Action.bind_eq_ok.1 h₃
  cases hevaluator
  obtain ⟨root', x₄, hfound, h₅⟩ := Action.bind_eq_ok.1 h₄
  obtain ⟨hroot, rfl⟩ := theRoot_eq_ok hfound
  obtain rfl := h.unique hroot
  obtain ⟨t, hsimulate, rfl⟩ := onTrees_eq_ok.1 h₅
  exact ⟨game, Seat.game?_eq_ok hgame, t, hsimulate, rfl⟩

/-- A tree that has been developed grew and has a new root. -/
theorem Stands.develop [Dice ε] (name : String) (h : Stands x root)
    (hrun : (developTree name ply view : Deliberation μ R ε Unit) x = .ok ⟨⟩ y) :
    ∃ game k t, Arena.develop game root ply view (trees x) = .ok k t ∧ x.own.arena.Grows t.own ∧
      t.own.Rerooted k y.own.arena ∧ Stands y k ∧ y.own.selector = x.own.selector := by
  obtain ⟨r, game, k, t, hr, hdevelop, hreroot, hmemory, hselector⟩ := developTree_eq_ok hrun
  obtain rfl := h.unique hr
  obtain ⟨s, hs, -⟩ := h.above
  have hfinds := Arena.develop_eq_ok (s := trees x) h.shaped ⟨s, hs, rfl⟩ hdevelop
  have hrerooted := hfinds.shaped.reroot hreroot
  exact ⟨game, k, t, hdevelop, hfinds.toGrows, hrerooted, .of_rerooted hrerooted hmemory, hselector⟩

/-- So has a tree whose root has been committed. -/
theorem Stands.commit (h : Stands x root)
    (hrun : (commitTree move : Deliberation μ R ε Unit) x = .ok ⟨⟩ y) :
    ∃ a b k, Arena.commit root move x.own.arena = .ok ⟨⟩ a ∧ Arena.trim root a = .ok ⟨⟩ b ∧
      x.own.arena.Grows b ∧ b.Rerooted k y.own.arena ∧ Stands y k ∧ y.own.selector = x.own.selector := by
  obtain ⟨r, a, b, k, hr, hcommit, htrim, -, hreroot, hmemory, hselector⟩ := commitTree_eq_ok hrun
  obtain rfl := h.unique hr
  have hfirst := Arena.respects_commit _ _ _ hcommit h.shaped
  have hsecond := Arena.respects_trim _ _ _ htrim hfirst.shaped
  have hrerooted := hsecond.shaped.reroot hreroot
  exact ⟨a, b, k, hcommit, htrim, hfirst.toGrows.trans hsecond.toGrows, hrerooted,
    .of_rerooted hrerooted hmemory, hselector⟩

/-! ## Simulations -/

/-- A simulation that ends at some node below the root: the node is expanded, and it takes in a utility with
all nodes above it. -/
structure EndsAt [Scalar R] (a : Arena R) (root leaf : NodeId) (utility : R) (b a' : Arena R) : Prop where
  leads : a.Leads root leaf
  expanded : Arena.Expanded a b
  run : ∃ c, Arena.propagate leaf utility b = .ok ⟨⟩ c ∧ Arena.backpropagate leaf utility c = .ok ⟨⟩ a'

section Simulation

variable [Scalar R] {utility : R}

/-- The nodes above the one where a simulation ends take in the utility. -/
lemma Stands.credits (h : Stands x root) (hends : EndsAt x.own.arena root leaf utility b a) :
    Arena.Credits (b.Leads · leaf) utility b a := by
  obtain ⟨s, hs, hparent⟩ := h.above
  obtain ⟨c, hself, hup⟩ := hends.run
  exact Arena.backpropagate_credits hends.expanded.shaped (hends.expanded.station root s hs) hparent
    (hends.expanded.leads hends.leads) hself hup

/-- A simulation that ends at a node below the root is counted. -/
theorem Stands.tallies [SearchMethod μ R ε] [Recounts μ R ε] (h : Stands x root)
    (hends : EndsAt x.own.arena root leaf utility b y.own.arena) (hmemory : y.own.memory = x.own.memory)
    (honly : Recounts.roots R ε x.own.memory = [root]) : Stands y root ∧ Tallies [(leaf, utility)] x y := by
  have hcredits := h.credits hends
  have hexpanded := hends.expanded
  obtain ⟨s, hs, hparent⟩ := h.above
  have hshaped := hcredits.shaped hexpanded.shaped
  have hroot : y.own.arena.station? root = some s :=
    (hcredits.station? root).trans (hexpanded.station root s hs)
  -- what the simulation brings a node
  have hcredit : ∀ id, y.own.arena.contains id = true → y.own.arena.credit [(leaf, utility)] id =
      if leaf ∈ y.own.arena.subtree id then [utility] else [] := by
    intro id hid
    unfold Arena.credit
    by_cases hin : leaf ∈ y.own.arena.subtree id <;> simp [hin]
  have hbelow : ∀ id, y.own.arena.contains id = true →
      (leaf ∈ y.own.arena.subtree id ↔ b.Leads id leaf) := fun id hid =>
    (hshaped.mem_subtree hid).trans hcredits.leads_iff
  obtain ⟨r, hr, -⟩ := Arena.station?_eq_some.1 hroot
  have hlive : y.own.arena.contains root = true := Arena.contains_iff.2 ⟨r, hr⟩
  refine ⟨⟨by rw [hmemory, h.planted], hshaped, s, hroot, hparent⟩, fun id n hn => ?_, by rw [hmemory], ?_⟩
  · have hid : y.own.arena.contains id = true := Arena.contains_iff.2 ⟨n, hn⟩
    rw [hcredit id hid, ← hexpanded.valuation, ← Arena.valuation?_of_find? hn]
    by_cases hin : b.Leads id leaf
    · rw [if_pos ((hbelow id hid).2 hin), hcredits.taken id hin]
      rfl
    · rw [if_neg fun hmem => hin ((hbelow id hid).1 hmem), hcredits.kept id hin]
      rfl
  · rintro r hr
    rw [honly, List.mem_singleton] at hr
    subst hr
    refine ⟨hlive, ?_⟩
    rw [hcredit r hlive, if_pos ((hbelow r hlive).2 (hexpanded.leads hends.leads))]
    rfl

end Simulation

end TreeAgent

end GameSearch
