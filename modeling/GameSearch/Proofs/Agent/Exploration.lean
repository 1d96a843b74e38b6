import GameSearch.Proofs.Agent.Accounting
import GameSearch.Proofs.Perfect.Turns

/-!
# Trying every child first

Selection by upper confidence never passes over an option that has not been visited.  With perfect
information in a game that lists no turn twice, the options of a node are its edges, so each simulation goes on
to the child whose turn it is wherever it comes along.
-/

namespace GameSearch

/-! ## Selection -/

namespace Selector

variable {R ε : Type} [AnalyticScalar R] [Dice ε] {constant : R}

/-- The option that is picked is the first one that has not been visited, or all have been. -/
lemma pick_upperConfidence {s : State} {owner : Role} {options : Array (Candidate R)} {h : 0 < options.size}
    {host host' : ε} {i : Nat} {hi : i < options.size}
    (hrun : (upperConfidence constant).pick s owner options h host = .ok ⟨i, hi⟩ host') :
    options[i].isVisited = false ∧ (∀ j (hj : j < options.size), j < i → options[j].isVisited = true) ∨
      ∀ j (hj : j < options.size), options[j].isVisited = true := by
  cases hfind : (List.finRange options.size).find? fun i => !options[i].isVisited with
  | none =>
    refine .inr fun j hj => ?_
    simpa using List.find?_eq_none.1 hfind ⟨j, hj⟩ (List.mem_finRange _)
  | some first =>
    simp only [upperConfidence, hfind] at hrun
    cases hrun
    obtain ⟨hfirst, k, hk, heq, hbefore⟩ := List.find?_eq_some_iff_getElem.1 hfind
    refine .inl ⟨by simpa using hfirst, fun j hj hji => ?_⟩
    rw [List.getElem_finRange] at heq
    have hjk : j < k := by
      have hval := congrArg Fin.val heq
      simp at hval
      omega
    simpa using hbefore j hjk

end Selector

namespace Arena

variable {R ε : Type} [AnalyticScalar R] [Dice ε] {constant : R} {a : Arena R} {id : NodeId} {n : Node R}
  {host host' : ε} {key : Edge.Key}

omit [Dice ε] in
/-- At a node of perfect information each edge is an option. -/
lemma options?_of_forks (hn : a.find? id = some n) (hperfect : n.IsPerfect) (hsome : n.edges ≠ none)
    (hforks : n.Forks) (hlive : ∀ e ∈ n.edgeList, ∃ m, a.find? e.child = some m) :
    a.options? id none =
      .ok (n.edgeList.map fun e => Candidate.ofChildren a.valuation? e.key [e.child]).toArray := by
  obtain ⟨edges, hedges⟩ := Option.ne_none_iff_exists'.1 hsome
  obtain ⟨s, turn, hknows⟩ := hperfect
  have hlist : n.edgeList = edges.toList := by rw [Node.edgeList, hedges]; rfl
  have hread : a.edges? id = .ok edges := by
    rw [edges?, node?, hn]
    simp [hedges, bind, Except.bind, pure, Except.pure]
  have hkind : n.kind = .perfect := by rw [Node.kind, hknows]
  have hkeys : ((edges.toList.map fun e => (e.key, e.child)).map Prod.fst).Nodup := by
    rw [List.map_map, ← hlist]
    exact hforks.keys
  have hgroup := group?_eq hread (hlist ▸ hlive) none Edge.key
  rw [filter_elsewhere_none, Candidate.gather_of_nodup hkeys, List.map_map, ← hlist] at hgroup
  rw [options?, node?, hn]
  simp only [bind, Except.bind, Option.isSome_none, Bool.false_or, hkind, decide_true, if_true]
  exact hgroup

/-- Selection goes on to the child whose turn it is. -/
theorem select_isTurn (hn : a.find? id = some n) (hperfect : n.IsPerfect) (hsome : n.edges ≠ none)
    (hforks : n.Forks) (hlive : ∀ e ∈ n.edgeList, ∃ m, a.find? e.child = some m)
    (hrun : a.select (.upperConfidence constant) id none host = .ok key host') :
    ∃ e ∈ n.edgeList, e.key = key ∧ IsTurn a.playouts (n.edgeList.map Edge.child) e.child := by
  have hoption := options?_of_forks hn hperfect hsome hforks hlive
  -- each option has the key of its edge, and has been visited if the child has
  obtain ⟨options, hoptions, hsize, hkeys, hvisited⟩ : ∃ options, a.options? id none = .ok options ∧
      options.size = n.edgeList.length ∧
      (∀ j (hj : j < options.size) (hj' : j < n.edgeList.length), options[j].key = n.edgeList[j].key) ∧
      ∀ j (hj : j < options.size) (hj' : j < n.edgeList.length),
        options[j].isVisited = true ↔ 0 < a.playouts n.edgeList[j].child := by
    refine ⟨_, hoption, by simp, fun j _ _ => by simp, fun j _ _ => ?_⟩
    rw [List.getElem_toArray, List.getElem_map, Candidate.isVisited, Candidate.playouts_ofChildren, decide_eq_true_eq]
    simp [List.eraseDups_cons, Candidate.contributed, Arena.playouts]
  rw [select, Action.bind_of_ok (Action.lift_of_ok hoptions host)] at hrun
  obtain ⟨m, -, hrun⟩ := Action.lift_bind_eq_ok.1 hrun
  obtain ⟨c, host₁, hpick, hkey⟩ := Action.bind_eq_ok.1 hrun
  cases hkey
  unfold pickOf at hpick
  split at hpick
  · next hpos =>
    obtain ⟨⟨i, hi⟩, host₂, hindex, hpure⟩ := Action.bind_eq_ok.1 hpick
    cases hpure
    have hlt : i < n.edgeList.length := hsize ▸ hi
    refine ⟨n.edgeList[i], List.getElem_mem hlt, (hkeys i hi hlt).symm, ?_⟩
    rcases Selector.pick_upperConfidence hindex with ⟨hfirst, hbefore⟩ | hall
    · refine .inl ⟨i, by simpa using hlt, by simp, ?_, fun j hj => ?_⟩
      · refine Nat.eq_zero_of_not_pos fun hpos => ?_
        have hyes := (hvisited i hi hlt).2 hpos
        rw [hfirst] at hyes
        cases hyes
      · rw [List.getElem_map]
        exact (hvisited j (by omega) (by omega)).1 (hbefore j (by omega) hj)
    · refine .inr fun y hy => ?_
      obtain ⟨j, hj, rfl⟩ := List.mem_iff_getElem.1 hy
      rw [List.length_map] at hj
      rw [List.getElem_map]
      exact (hvisited j (by omega) hj).1 (hall j (by omega))
  · cases hpick

end Arena

namespace Mcts

variable {R ε : Type} [AnalyticScalar R] {constant : R} {root leaf : NodeId}

/-- A simulation heeds the turns on its way down. -/
theorem descend_heeds [Dice ε] {fuel : Nat} {x y : Hosted (Arena R) ε} (hshaped : x.own.Shaped)
    (hperfect : ∀ id n, x.own.find? id = some n → n.IsPerfect)
    (hforks : ∀ id n, x.own.find? id = some n → n.move = none → n.Forks)
    (h : descend (.upperConfidence constant) fuel root x = .ok leaf y) :
    ∀ id n e, x.own.Leads root id → x.own.find? id = some n → n.move = none → e ∈ n.edgeList →
      x.own.Leads e.child leaf → IsTurn x.own.playouts (n.edgeList.map Edge.child) e.child := by
  induction fuel generalizing root x with
  | zero => cases h
  | succ fuel ih =>
    intro id n e hid hn hfree he hleads
    obtain ⟨r, hr, ⟨-, rfl, -⟩ | ⟨-, key, host, e₀, hselect, he₀, hkey₀, hrest⟩⟩ := descend_cases h
    · -- the way ends here, and nothing leads back
      exact absurd (hleads.trans hid) (hshaped.child_not_leads (Arena.edgesOf_of_find? hn ▸ he))
    · have hway := Arena.edgesOf_of_find? hr ▸ he₀
      obtain ⟨-, hleads₀, -⟩ := descend_eq_ok hrest
      by_cases hroot : id = root
      · subst hroot
        rw [hr, Option.some.injEq] at hn
        subst hn
        have hsome : r.edges ≠ none := by
          intro hnone
          simp [Node.edgeList, hnone] at he
        have hlive : ∀ e ∈ r.edgeList, ∃ m, x.own.find? e.child = some m := fun e he =>
          Arena.contains_iff.1 (hshaped.closed id e (Arena.edgesOf_of_find? hr ▸ he))
        obtain ⟨e₁, he₁, hkey₁, hturn⟩ := Arena.select_isTurn hr (hperfect id r hr) hsome
          (hforks id r hr hfree) hlive hselect
        have hsame : e₁ = e₀ :=
          List.inj_on_of_nodup_map (hforks id r hr hfree).keys he₁ he₀ (hkey₁.trans hkey₀.symm)
        have hchild := hshaped.child_unique (Arena.edgesOf_of_find? hr ▸ he) hway hleads hleads₀
        rw [hchild, ← hsame]
        exact hturn
      · obtain ⟨e₁, he₁, hbelow⟩ := hid.exists_child (Ne.symm hroot)
        have hthrough : x.own.Leads e₁.child leaf :=
          (hbelow.step (Arena.edgesOf_of_find? hn ▸ he)).trans hleads
        have hchild := hshaped.child_unique he₁ hway hthrough hleads₀
        exact ih (x := ⟨x.own, host⟩) hshaped hperfect hforks hrest id n e (hchild ▸ hbelow) hn hfree he hleads

open TreeAgent

variable [Host ε] {game : Game} {x y : Hosted (TreeAgent Mcts R ε) ε} {id : NodeId} {n : Node R}

/-! ## Matches -/

/-- The calls that an agent that selects by upper confidence gets from the beginning of a match of a game on. -/
inductive Explores (constant : R) (game : Game) : Hosted (TreeAgent Mcts R ε) ε → Prop
  | prepare {role : Role} {ruleset : Ruleset} {startClock playClock : Clock.Settings Binary64}
      {x y : Hosted (TreeAgent Mcts R ε) ε} : x.own.selector = .upperConfidence constant →
      x.own.seat.source ruleset = .ok (some game) →
      (TreeAgent.prepare role ruleset startClock playClock : Deliberation Mcts R ε Unit) x = .ok ⟨⟩ y →
      Explores constant game y
  | elsewhere {x y : Hosted (TreeAgent Mcts R ε) ε} : Explores constant game x → Undisturbed x y →
      y.own.selector = x.own.selector → Explores constant game y
  | develop {ply : Int} {view : View} {x y : Hosted (TreeAgent Mcts R ε) ε} : Explores constant game x →
      (SearchMethod.develop ply view : Deliberation Mcts R ε Unit) x = .ok ⟨⟩ y → Explores constant game y
  | step {x y : Hosted (TreeAgent Mcts R ε) ε} : Explores constant game x →
      (SearchMethod.step : Deliberation Mcts R ε Unit) x = .ok ⟨⟩ y → Explores constant game y
  | commit {move : Move} {x y : Hosted (TreeAgent Mcts R ε) ε} : Explores constant game x →
      (SearchMethod.commit move : Deliberation Mcts R ε Unit) x = .ok ⟨⟩ y → Explores constant game y

/-- What is kept by all of this. -/
structure Exploring (constant : R) (game : Game) (x : Hosted (TreeAgent Mcts R ε) ε) : Prop where
  balances : Balances x
  turns : x.own.arena.TakesTurns
  selector : x.own.selector = .upperConfidence constant
  game : x.own.seat.game = some game

lemma exploring_of_prepare {role : Role} {ruleset : Ruleset} {startClock playClock : Clock.Settings Binary64}
    (hselector : x.own.selector = .upperConfidence constant) (hsource : x.own.seat.source ruleset = .ok (some game))
    (hrun : (TreeAgent.prepare role ruleset startClock playClock : Deliberation Mcts R ε Unit) x = .ok ⟨⟩ y) :
    Exploring constant game y := by
  obtain ⟨game', hsource', hplant⟩ := prepare_eq_ok hrun
  rw [hsource, Except.ok.injEq, Option.some.injEq] at hsource'
  subst hsource'
  obtain ⟨hseat, -⟩ := settled.plant _ _ _ hplant
  obtain ⟨⟨game', role'⟩, x₁, hread, h₁⟩ := Action.bind_eq_ok.1 hplant
  obtain rfl := gameAndRole_eq_ok hread
  obtain ⟨root, n, hadd, hbare, hpristine, hparent, hmemory, hkept⟩ := plant_eq_ok rfl h₁
  obtain ⟨n', hn', hadded⟩ := Arena.orderly_empty.add_eq_ok hadd
  cases hn'
  exact ⟨(balances_of_added hadd hbare hpristine hparent hmemory).1, hadded.takesTurns hpristine,
    hkept.trans hselector, by rw [hseat]; rfl⟩

/-- Between simulations no turn is skipped. -/
lemma Exploring.renew (h : Exploring constant game x) (hstands : ∃ root, TreeAgent.Stands y root)
    (hinherits : x.own.arena.Inherits y.own.arena) (hrenews : Arena.Renews x.own.arena y.own.arena)
    (hselector : y.own.selector = x.own.selector) (hseat : y.own.seat = x.own.seat) : Exploring constant game y := by
  have hbalances := h.balances.renew hstands hinherits hrenews
  obtain ⟨root, hroot⟩ := hstands
  exact ⟨hbalances, h.turns.renew hroot.shaped hinherits hrenews, hselector.trans h.selector,
    by rw [hseat, h.game]⟩

/-- A simulation takes the next turn at each node on its way. -/
theorem Exploring.step (h : Exploring constant game x) (hgame : game.ListsOnce)
    (hrun : (SearchMethod.step : Deliberation Mcts R ε Unit) x = .ok ⟨⟩ y) : Exploring constant game y := by
  obtain ⟨hseat, -⟩ := settled.step _ _ _ hrun
  rw [← Recounts.recount_step] at hrun
  obtain ⟨finals, y', hrecount, hpure⟩ := Action.bind_eq_ok.1 hrun
  cases hpure
  obtain ⟨hbalances, -⟩ := h.balances.recount hrecount
  obtain ⟨root, leaf, utility, b, hstands, -, hends, hcredits, -, ⟨game', hgame', hexpand⟩, ⟨fuel, u, hdescend⟩,
    t, rfl⟩ := h.balances.recount_eq_ok hrecount
  rw [h.game, Option.some.injEq] at hgame'
  subst hgame'
  rw [h.selector] at hdescend
  have hshaped := hstands.shaped
  have hbelow := descend_heeds (x := trees x) hshaped h.balances.balanced.perfect h.turns.forks hdescend
  -- a node that is not below the root leads nowhere near it
  have hheeds : x.own.arena.Heeds leaf := by
    intro id n e hn hfree he hleads
    have hway := Arena.edgesOf_of_find? hn ▸ he
    rcases hshaped.leads_total (.trans (.step .refl hway) hleads) hends.leads with hup | hdown
    · obtain ⟨s, hs, hparent⟩ := hstands.above
      obtain rfl := hshaped.eq_of_leads_root hs hparent hup
      exact hbelow id n e .refl hn hfree he hleads
    · exact hbelow id n e hdown hn hfree he hleads
  have hexpanded := h.turns.expanded hshaped hgame h.balances.balanced.pristine hexpand
  exact ⟨hbalances, hexpanded.credited hends.expanded.shaped (hheeds.expanded hshaped hexpand) hcredits,
    h.selector, h.game⟩

theorem Explores.exploring (hgame : game.ListsOnce) (h : Explores constant game x) : Exploring constant game x := by
  induction h with
  | prepare hselector hsource hrun => exact exploring_of_prepare hselector hsource hrun
  | elsewhere _ hxy hselector ih =>
    exact ⟨ih.balances.undisturbed hxy, hxy.arena ▸ ih.turns, hselector.trans ih.selector, hxy.seat ▸ ih.game⟩
  | develop _ hrun ih =>
    obtain ⟨hstands, hinherits, hrenews, hselector⟩ := ih.balances.develop_eq_ok hrun
    exact ih.renew hstands hinherits hrenews hselector (settled.develop _ _ _ _ _ hrun).1
  | step _ hrun ih => exact ih.step hgame hrun
  | commit _ hrun ih =>
    obtain ⟨hstands, hinherits, hrenews, hselector⟩ := ih.balances.commit_eq_ok hrun
    exact ih.renew hstands hinherits hrenews hselector (settled.commit _ _ _ _ hrun).1

/-- In a game that lists no turn twice, every child of a node is tried before any child is tried twice. -/
theorem tries_each_child_first (hgame : game.ListsOnce) (h : Explores constant game x)
    (hn : x.own.arena.find? id = some n) (hfull : n.isExpanded = true) (hmore : n.isTerminal = false)
    (hfree : n.move = none) : ∃ k, x.own.arena.playouts id = k + 1 ∧
      n.children.filter (0 < x.own.arena.playouts ·) = n.children.take (min n.children.length k) ∧
      (k ≤ n.children.length →
        ∀ c ∈ n.children, 0 < x.own.arena.playouts c → x.own.arena.playouts c = 1) := by
  have hexploring := h.exploring hgame
  obtain ⟨k, hk⟩ := hexploring.turns.turns id n hn hfree
  have hforks := hexploring.turns.forks id n hn hfree
  rw [← hforks.children_eq] at hk
  refine ⟨_, hexploring.balances.balanced.sum id n hn hfree hfull hmore, ?_⟩
  rw [List.sum_toFinset _ (hforks.children_eq ▸ hforks.children)]
  exact hk.tally

/-- A match of a few simulations. -/
def rehearse (role : Role) : (simulations : Nat) → Deliberation Mcts R ε Unit
  | 0 => TreeAgent.prepare role ⟨"rehearsal"⟩ ⟨0, 0, 0⟩ ⟨0, 0, 0⟩
  | simulations + 1 => do
    rehearse role simulations
    SearchMethod.step

lemma explores_of_rehearse {role : Role} {simulations : Nat} (hselector : x.own.selector = .upperConfidence constant)
    (hsource : ∀ ruleset, x.own.seat.source ruleset = .ok (some game))
    (hrun : (rehearse role simulations : Deliberation Mcts R ε Unit) x = .ok ⟨⟩ y) : Explores constant game y := by
  induction simulations generalizing y with
  | zero => exact .prepare hselector (hsource _) hrun
  | succ simulations ih =>
    obtain ⟨_, z, hbefore, hstep⟩ := Action.bind_eq_ok.1 hrun
    exact .step (ih hbefore) hstep

end Mcts

/-! ## A single decision -/

namespace Decision

open TreeAgent

def player : Role := .symbol "player"

def start : State := .ofList [controlOf player]

/-- A game that is over after one move of the only player. -/
def game (moves : List Move) : Game where
  roles := [player]
  start := start
  sees _ := .ok ∅
  legal _ := .ok ((∅ : ByRole (List Move)).insert player moves)
  goals _ := .ok ∅
  isTerminal s := .ok (decide (s ≠ start))
  play _ _ := .ok ∅

/-- With the constant zero it does not matter what the roots and logarithms are. -/
local instance : AnalyticScalar ℚ where
  toScalar := inferInstance
  sqrt _ := 0
  log _ := 0
  counts _ := true

/-- An agent to which all states are worth the same. -/
def agent (moves : List Move) : Hosted (TreeAgent Mcts ℚ Session) Session where
  own :=
    { seat := { source := fun _ => .ok (some (game moves)) }
      settings := {}
      selector := .upperConfidence 0
      chooser := .mostVisited
      evaluator := .ofTable [] Scalar.half
      memory := {} }
  host := .ofSeed 0

/-- Whether three simulations leave an arena and a root as expected. -/
def passes (moves : List Move) (test : Arena ℚ → Node ℚ → Bool) : Bool :=
  match Mcts.rehearse player 3 (agent moves) with
  | .ok _ y => (y.own.arena.find? 0).any (test y.own.arena)
  | .error _ _ => false

lemma exists_of_passes {moves : List Move} {test : Arena ℚ → Node ℚ → Bool} (h : passes moves test = true) :
    ∃ (x : Hosted (TreeAgent Mcts ℚ Session) Session) (n : Node ℚ), Mcts.Explores 0 (game moves) x ∧
      x.own.arena.find? 0 = some n ∧ test x.own.arena n = true := by
  unfold passes at h
  split at h
  · next x hrun =>
    obtain ⟨n, hn, htest⟩ := (Option.any_eq_true _ _).1 h
    exact ⟨x, n, Mcts.explores_of_rehearse rfl (fun _ => rfl) hrun, hn, htest⟩
  · cases h

def left : Move := .symbol "go-left"

def right : Move := .symbol "go-right"

lemma listsOnce : (game [left, right]).ListsOnce := by
  intro s next hrun
  by_cases hs : s = start
  · subst hs
    have hdistinct : (match (game [left, right]).successors? start with
        | .ok next => decide (next.map Prod.fst).Nodup
        | .error _ => true) = true := by decide +kernel
    rw [hrun] at hdistinct
    exact of_decide_eq_true hdistinct
  · -- the play is over
    have hover : (game [left, right]).successors? s = .ok [] :=
      Game.successors?_of_isTerminal (by simp [game, hs])
    rw [hover, Except.ok.injEq] at hrun
    subst hrun
    exact List.nodup_nil

set_option maxRecDepth 4000 in
/-- After three simulations both moves have been tried. -/
theorem tries_left_and_right : ∃ (x : Hosted (TreeAgent Mcts ℚ Session) Session) (n : Node ℚ),
    (game [left, right]).ListsOnce ∧ Mcts.Explores 0 (game [left, right]) x ∧ x.own.arena.find? 0 = some n ∧
      n.isExpanded = true ∧ n.isTerminal = false ∧ n.move = none ∧ n.children = [1, 2] ∧
      ∃ k, x.own.arena.playouts 0 = k + 1 ∧
        n.children.filter (0 < x.own.arena.playouts ·) = n.children.take (min n.children.length k) ∧
        (k ≤ n.children.length →
          ∀ c ∈ n.children, 0 < x.own.arena.playouts c → x.own.arena.playouts c = 1) := by
  have hpasses : passes [left, right] (fun _ n =>
      n.isExpanded && !n.isTerminal && n.move.isNone && decide (n.children = [1, 2])) = true := by decide +kernel
  obtain ⟨x, n, hexplores, hn, htest⟩ := exists_of_passes hpasses
  simp only [Bool.and_eq_true, Bool.not_eq_true', Option.isNone_iff_eq_none, decide_eq_true_eq] at htest
  obtain ⟨⟨⟨hfull, hmore⟩, hfree⟩, hchildren⟩ := htest
  exact ⟨x, n, listsOnce, hexplores, hn, hfull, hmore, hfree, hchildren,
    Mcts.tries_each_child_first listsOnce hexplores hn hfull hmore hfree⟩

set_option maxRecDepth 4000 in
/-- In a game that lists a turn twice, the first of its children is tried again and again instead of the second. -/
theorem tries_first_again : ∃ (x : Hosted (TreeAgent Mcts ℚ Session) Session) (n : Node ℚ),
    Mcts.Explores 0 (game [left, left]) x ∧ x.own.arena.find? 0 = some n ∧ n.isExpanded = true ∧
      n.isTerminal = false ∧ n.move = none ∧ n.children = [1, 2] ∧ x.own.arena.playouts 0 = 3 ∧
      x.own.arena.playouts 1 = 2 ∧ x.own.arena.playouts 2 = 0 := by
  have hpasses : passes [left, left] (fun a n =>
      n.isExpanded && !n.isTerminal && n.move.isNone && decide (n.children = [1, 2]) &&
        decide (a.playouts 0 = 3 ∧ a.playouts 1 = 2 ∧ a.playouts 2 = 0)) = true := by decide +kernel
  obtain ⟨x, n, hexplores, hn, htest⟩ := exists_of_passes hpasses
  simp only [Bool.and_eq_true, Bool.not_eq_true', Option.isNone_iff_eq_none, decide_eq_true_eq] at htest
  obtain ⟨⟨⟨⟨hfull, hmore⟩, hfree⟩, hchildren⟩, hplayouts⟩ := htest
  exact ⟨x, n, hexplores, hn, hfull, hmore, hfree, hchildren, hplayouts⟩

end Decision

end GameSearch
