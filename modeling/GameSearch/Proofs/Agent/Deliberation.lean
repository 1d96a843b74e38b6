import GameSearch.Proofs.Agent.Attendance
import GameSearch.Proofs.Options
import GameSearch.Proofs.Playing

/-!
# Being asked for a move

What a searching agent does when it is to move, whatever its method.  If after each simulation the node that
the move is chosen at offers legal moves only, then the agent is `TreeAgent.Dependable`: unless the
development or a simulation fails, it has moves to choose from, it answers with the one that its chooser
picks, and the check at the end never fails.
-/

namespace GameSearch

/-- What a role sees at a ply settles whether the play is over, whether the role is in control and which
moves are legal for it. -/
structure Game.Discerned (game : Game) (role : Role) : Prop where
  isTerminal : ∀ n s t, game.After n game.start s → game.After n game.start t →
    game.viewOf s role = game.viewOf t role → game.isTerminal s = game.isTerminal t
  isInControl : ∀ n s t, game.After n game.start s → game.After n game.start t →
    game.viewOf s role = game.viewOf t role → s.isInControl role = t.isInControl role
  isLegal : ∀ n s t move, game.After n game.start s → game.After n game.start t →
    game.viewOf s role = game.viewOf t role → game.isLegal? s role move = game.isLegal? t role move
  /-- The view can stand in for the state. -/
  view : ∀ n s move, game.After n game.start s →
    game.isLegal? (game.viewOf s role) role move = game.isLegal? s role move

/-- A role is to move in a state in which the play goes on. -/
structure Game.ToMove (game : Game) (role : Role) (s : State) : Prop where
  ongoing : game.isTerminal s = .ok false
  control : ∃ control, s.control? = .ok control ∧ role ∈ control

namespace Repeater

variable {σ α : Type} {r r' : Repeater σ} {a : α} {f : Fault}

lemma lift_eq_ok {action : Action σ α} :
    lift action r = .ok a r' ↔ ∃ inner, action r.inner = .ok a inner ∧ r' = { r with inner := inner } := by
  unfold lift
  cases action r.inner with
  | ok a' inner => simp [eq_comm]
  | error e inner => simp

lemma lift_eq_error {action : Action σ α} :
    lift action r = .error f r' ↔ ∃ inner, action r.inner = .error f inner ∧ r' = { r with inner := inner } := by
  unfold lift
  cases action r.inner with
  | ok a' inner => simp
  | error e inner => simp [eq_comm]

end Repeater

namespace Arena

variable {R ε : Type} [Scalar R] {a : Arena R} {id : NodeId} {role : Role} {legal : Move → Prop}
  {chooser : Selector R ε} {move : Move} {host host' : ε}

/-- A node has edges, and a role makes a legal move on each of them. -/
structure Offers (a : Arena R) (id : NodeId) (role : Role) (legal : Move → Prop) : Prop where
  expanded : ∃ edges, a.edges? id = .ok edges
  nonempty : a.edgesOf id ≠ []
  child : ∀ e ∈ a.edgesOf id, ∃ n, a.find? e.child = some n
  move : ∀ e ∈ a.edgesOf id, ∃ move, e.key.turn.find? role = some move ∧ legal move

/-- The options of a node for a role: there is one, and on each the role makes a legal move. -/
structure Choices (a : Arena R) (id : NodeId) (role : Role) (legal : Move → Prop) (n : Node R)
    (options : Array (Candidate R)) : Prop where
  node : a.find? id = some n
  run : a.moveOptions? id role = .ok options
  nonempty : 0 < options.size
  move : ∀ c ∈ options, ∃ move, c.key.turn.at? role = .ok move ∧ legal move

/-- The options of a node that offers moves are these moves. -/
theorem Offers.exists_choices (h : a.Offers id role legal) : ∃ n options, a.Choices id role legal n options := by
  obtain ⟨edges, hedges⟩ := h.expanded
  have hlist := edgesOf_of_edges? hedges
  obtain ⟨n, hnode⟩ := exists_node_of_edges? hedges
  obtain ⟨options, hrun, hkeys⟩ := group?_yields hedges (fun e he => h.child e (hlist ▸ he)) none
    fun e => ⟨none, e.key.turn.restrict role⟩
  refine ⟨n, options, node?_eq_ok hnode, hrun, ?_, fun c hc => ?_⟩
  · obtain ⟨e, he⟩ := List.exists_mem_of_ne_nil _ h.nonempty
    obtain ⟨c, hc, -⟩ := (hkeys _).2 ⟨e, hlist ▸ he, by simp [Elsewhere], rfl⟩
    exact Array.size_pos_of_mem hc
  · obtain ⟨e, he, -, hkey⟩ := (hkeys c.key).1 ⟨c, hc, rfl⟩
    obtain ⟨move, hmove, hlegal⟩ := h.move e (hlist ▸ he)
    refine ⟨move, ?_, hlegal⟩
    rw [← hkey, Turn.at?, Turn.find?_restrict, hmove]

namespace Choices

variable {n : Node R} {options : Array (Candidate R)} {f : Fault}

lemma chooseMove_run (h : a.Choices id role legal n options) : a.chooseMove chooser id role host =
    (pickOf chooser n none options (.noMoveAt id role.text) >>= fun c => liftM (c.key.turn.at? role)) host := by
  have hnode : a.node? id = .ok n := by rw [node?, h.node]
  rw [chooseMove, Action.bind_of_ok (Action.lift_of_ok h.run host), Action.bind_of_ok (Action.lift_of_ok hnode host)]

/-- The move of the option that the chooser picks is chosen. -/
lemma chooseMove_of_ok (h : a.Choices id role legal n options) {i : Fin options.size}
    (hpick : chooser.pick n.firstWorld n.role options h.nonempty host = .ok i host') :
    ∃ c move, options[i]? = some c ∧ c.key.turn.at? role = .ok move ∧ legal move ∧
      a.chooseMove chooser id role host = .ok move host' := by
  obtain ⟨move, hmove, hlegal⟩ := h.move _ (Array.getElem_mem i.isLt)
  refine ⟨_, move, Array.getElem?_eq_getElem i.isLt, hmove, hlegal, ?_⟩
  rw [h.chooseMove_run, pickOf, dif_pos h.nonempty, bind_assoc]
  exact (Action.bind_of_ok hpick).trans (Action.lift_of_ok hmove host')

lemma chooseMove_of_error (h : a.Choices id role legal n options)
    (hpick : chooser.pick n.firstWorld n.role options h.nonempty host = .error f host') :
    a.chooseMove chooser id role host = .error f host' := by
  rw [h.chooseMove_run, pickOf, dif_pos h.nonempty, bind_assoc]
  exact Action.bind_of_error hpick

/-- Whatever is chosen is the move of some option. -/
lemma legal_of_chooseMove (h : a.Choices id role legal n options)
    (hrun : a.chooseMove chooser id role host = .ok move host') : legal move := by
  cases hpick : chooser.pick n.firstWorld n.role options h.nonempty host with
  | ok i host₁ =>
    obtain ⟨-, move', -, -, hlegal, hchosen⟩ := h.chooseMove_of_ok hpick
    cases hrun.symm.trans hchosen
    exact hlegal
  | error f host₁ => cases hrun.symm.trans (h.chooseMove_of_error hpick)

end Choices

end Arena

namespace TreeAgent

variable {μ R ε α β : Type} {game : Game} {role : Role} {legal : Move → Prop} {n k : Nat} {s : State}
  {view : View} {x y z : Hosted (TreeAgent μ R ε) ε} {id : NodeId} {move : Move}

/-! ## A search -/

section Search

variable [SearchMethod μ R ε]

lemma Seated.theGame_run (h : Seated game role x) : (theGame : Deliberation μ R ε Game) x = .ok game x := by
  refine (Action.bind_of_ok Hosted.read_run).trans ?_
  exact Action.lift_of_ok (by rw [Seat.game?, h.game]) x

lemma Seated.theRole_run (h : Seated game role x) : (theRole : Deliberation μ R ε Role) x = .ok role x := by
  refine (Action.bind_of_ok Hosted.read_run).trans ?_
  exact Action.lift_of_ok (by rw [Seat.role?, h.role]) x

variable [Host ε]

/-- A search that ends has done some simulations, however slow the clock is. -/
lemma exists_simulates_of_runUntil {deadline time : Int} {count made total : Nat}
    {r r' : Repeater (Hosted (TreeAgent μ R ε) ε)} (hsimulates : Simulates k x r.inner)
    (h : Repeater.runUntil (Hosted.onHost Host.readClock) (Repeater.lift SearchMethod.step) deadline count made r =
      .ok (total, time) r') : ∃ i, Simulates (i + 1) x r'.inner := by
  induction count generalizing made k r with
  | zero => cases h
  | succ count ih =>
    obtain ⟨_, r₁, hstep, h₁⟩ := Action.bind_eq_ok.1 h
    obtain ⟨now, r₂, hclock, h₂⟩ := Action.bind_eq_ok.1 h₁
    obtain ⟨_, _, hget, h₃⟩ := Action.bind_eq_ok.1 h₂
    cases hget
    have hmore : Simulates (k + 1) x r₂.inner := by
      obtain ⟨y, hrun, rfl⟩ := Repeater.lift_eq_ok.1 hstep
      obtain ⟨z, hread, rfl⟩ := Repeater.lift_eq_ok.1 hclock
      exact (hsimulates.step hrun).elsewhere (undisturbed_of_onHost hread)
    split at h₃
    · exact ih hmore h₃
    · cases h₃
      exact ⟨k, hmore⟩

/-- What ends a search early: a simulation fails, or the simulations do not come to an end. -/
lemma simulates_of_runUntil_error {deadline : Int} {count made : Nat} {f : Fault}
    {r r' : Repeater (Hosted (TreeAgent μ R ε) ε)} (hsimulates : Simulates k x r.inner)
    (h : Repeater.runUntil (Hosted.onHost Host.readClock) (Repeater.lift SearchMethod.step) deadline count made r =
      .error f r') : (∃ i y, Simulates i x y ∧ (SearchMethod.step : Deliberation μ R ε Unit) y = .error f r'.inner) ∨
        Simulates (k + count) x r'.inner ∧ f = .outOfSteps := by
  induction count generalizing made k r with
  | zero =>
    cases h
    exact .inr ⟨hsimulates, rfl⟩
  | succ count ih =>
    rcases Action.bind_eq_error.1 h with hfails | ⟨_, r₁, hstep, h₁⟩
    · obtain ⟨y, hrun, rfl⟩ := Repeater.lift_eq_error.1 hfails
      exact .inl ⟨k, r.inner, hsimulates, hrun⟩
    obtain ⟨y, hrun, rfl⟩ := Repeater.lift_eq_ok.1 hstep
    rcases Action.bind_eq_error.1 h₁ with hfails | ⟨now, r₂, hclock, h₂⟩
    · cases hfails
    obtain ⟨z, hread, rfl⟩ := Repeater.lift_eq_ok.1 hclock
    have hmore : Simulates (k + 1) x z := (hsimulates.step hrun).elsewhere (undisturbed_of_onHost hread)
    rw [Action.bind_of_ok (Action.get_run _)] at h₂
    split at h₂
    · have hcount : k + 1 + count = k + (count + 1) := by omega
      exact hcount ▸ ih hmore h₂
    · cases h₂

/-- How a search goes: it does some simulations, unless one of them fails. -/
lemma search_cases (timeout : Int) (x : Hosted (TreeAgent μ R ε) ε) :
    (∃ i z, (TreeAgent.search timeout : Deliberation μ R ε Unit) x = .ok ⟨⟩ z ∧ Simulates (i + 1) x z) ∨
      ∃ f z, (TreeAgent.search timeout : Deliberation μ R ε Unit) x = .error f z ∧
        ((∃ i y, Simulates i x y ∧ (SearchMethod.step : Deliberation μ R ε Unit) y = .error f z) ∨
          Simulates maxSteps x z ∧ f = .outOfSteps) := by
  unfold TreeAgent.search
  obtain ⟨start, r₁, hclock, hread⟩ : ∃ start r₁, Repeater.lift (Hosted.onHost Host.readClock)
      ({ inner := x } : Repeater (Hosted (TreeAgent μ R ε) ε)) = .ok start r₁ ∧ Undisturbed x r₁.inner :=
    ⟨_, _, rfl, rfl, rfl, rfl⟩
  have hstart : Simulates 0 x r₁.inner := .elsewhere .refl hread
  simp only [Repeater.run, Action.bind_of_ok hclock]
  cases huntil : Repeater.runUntil (Hosted.onHost Host.readClock) (Repeater.lift SearchMethod.step)
      (start + timeout) maxSteps 0 r₁ with
  | ok outcome r =>
    obtain ⟨i, hi⟩ := exists_simulates_of_runUntil hstart huntil
    let outcome' : Repeater.Outcome := ⟨outcome.1, outcome.2 - start⟩
    refine .inl ⟨i, ⟨{ r.inner.own with lastSearch := outcome' }, r.inner.host⟩, ?_, hi.elsewhere ⟨rfl, rfl, rfl⟩⟩
    rw [Action.bind_of_ok huntil]
    rfl
  | error f r =>
    refine .inr ⟨f, r.inner, by rw [Action.bind_of_error huntil], ?_⟩
    have hends := simulates_of_runUntil_error hstart huntil
    rwa [Nat.zero_add] at hends

/-! ## Thinking -/

/-- What an agent does before it chooses a move. -/
def ponder (ply timeLeft : Int) (view : View) : Deliberation μ R ε Unit := do
  let began ← Hosted.onHost Host.readClock
  SearchMethod.develop ply view
  let used := (← Hosted.onHost Host.readClock) - began
  let playClock := (← Hosted.read).seat.playClock
  search ((← Hosted.read).settings.timeout playClock timeLeft used)

/-- An agent develops its trees to a view and does so many simulations. -/
def Explored (ply : Int) (view : View) (k : Nat) (x z : Hosted (TreeAgent μ R ε) ε) : Prop :=
  ∃ x' y, Undisturbed x x' ∧ (SearchMethod.develop ply view : Deliberation μ R ε Unit) x' = .ok ⟨⟩ y ∧
    Simulates k y z

/-- What ends the thinking of an agent early. -/
inductive Interrupted (ply : Int) (view : View) (x : Hosted (TreeAgent μ R ε) ε) (f : Fault)
    (z : Hosted (TreeAgent μ R ε) ε) : Prop
  | develop {x' : Hosted (TreeAgent μ R ε) ε} : Undisturbed x x' →
      (SearchMethod.develop ply view : Deliberation μ R ε Unit) x' = .error f z → Interrupted ply view x f z
  | step {k : Nat} {y : Hosted (TreeAgent μ R ε) ε} : Explored ply view k x y →
      (SearchMethod.step : Deliberation μ R ε Unit) y = .error f z → Interrupted ply view x f z
  | endless : Explored ply view maxSteps x z → f = .outOfSteps → Interrupted ply view x f z

/-- The thinking of an agent leads to a state in which it has searched, unless a development or a simulation
fails. -/
theorem ponder_cases (ply timeLeft : Int) (view : View) (x : Hosted (TreeAgent μ R ε) ε) :
    (∃ k z, (ponder ply timeLeft view : Deliberation μ R ε Unit) x = .ok ⟨⟩ z ∧ Explored ply view (k + 1) x z) ∨
      ∃ f z, (ponder ply timeLeft view : Deliberation μ R ε Unit) x = .error f z ∧ Interrupted ply view x f z := by
  obtain ⟨began, x₁, hclock, hx₁⟩ : ∃ began x₁,
      (Hosted.onHost Host.readClock : Deliberation μ R ε Int) x = .ok began x₁ ∧ Undisturbed x x₁ :=
    ⟨_, _, rfl, rfl, rfl, rfl⟩
  unfold ponder
  rw [Action.bind_of_ok hclock]
  cases hdevelop : (SearchMethod.develop ply view : Deliberation μ R ε Unit) x₁ with
  | error f z => exact .inr ⟨f, z, Action.bind_of_error hdevelop, .develop hx₁ hdevelop⟩
  | ok _ y =>
    obtain ⟨now, y₁, hclock', hy₁⟩ : ∃ now y₁,
        (Hosted.onHost Host.readClock : Deliberation μ R ε Int) y = .ok now y₁ ∧ Undisturbed y y₁ :=
      ⟨_, _, rfl, rfl, rfl, rfl⟩
    rw [Action.bind_of_ok hdevelop, Action.bind_of_ok hclock', Action.bind_of_ok Hosted.read_run,
      Action.bind_of_ok Hosted.read_run]
    have hexplored : ∀ {k z}, Simulates k y₁ z → Explored ply view k x z := fun hsimulates =>
      ⟨x₁, y, hx₁, hdevelop, hsimulates.after hy₁⟩
    rcases search_cases _ y₁ with
      ⟨i, z, hrun, hsimulates⟩ | ⟨f, z, hrun, ⟨i, y', hsimulates, hfails⟩ | ⟨hsimulates, hf⟩⟩
    · exact .inl ⟨i, z, hrun, hexplored hsimulates⟩
    · exact .inr ⟨f, z, hrun, .step (hexplored hsimulates) hfails⟩
    · exact .inr ⟨f, z, hrun, .endless (hexplored hsimulates) hf⟩

/-! ## The move -/

variable [Scalar R]

/-- What an agent does when it is asked for a move, but for the check of the move at the end. -/
def deliberate (ply timeLeft : Int) (view : View) : Deliberation μ R ε Move := do
  let role ← theRole
  ponder ply timeLeft view
  let id ← SearchMethod.decisionNode
  let _ ← onArena (Arena.node id)
  let move ← choose id
  noteOptions id
  Hosted.onHost (Host.report (.chose (SearchMethod.name μ R ε) role.text move.text ply))
  SearchMethod.commit move
  return move

lemma calculate_run (h : Seated game role x) (ply timeLeft : Int) (view : View) :
    (calculate ply timeLeft view : Deliberation μ R ε Move) x = (do
      let move ← deliberate ply timeLeft view
      if !(← game.isLegal? view role move) then throw (Fault.illegalChoice (SearchMethod.name μ R ε) move.text)
      return move) x := by
  unfold calculate deliberate ponder
  rw [Action.bind_of_ok h.theGame_run, Action.bind_of_ok h.theRole_run]
  simp only [bind_assoc, pure_bind, theName]
  rw [Action.bind_of_ok h.theRole_run]

omit [Host ε] [SearchMethod μ R ε] [Scalar R] in
lemma theArena_run : (onArena get : Deliberation μ R ε (Arena R)) x = .ok x.own.arena x := rfl

omit [Host ε] in
lemma choose_run (h : Seated game role x) (id : NodeId) : (choose id : Deliberation μ R ε Move) x =
    (Hosted.onHost (x.own.arena.chooseMove x.own.chooser id role) : Deliberation μ R ε Move) x := by
  unfold choose
  rw [Action.bind_of_ok Hosted.read_run, Action.bind_of_ok h.theRole_run, Action.bind_of_ok theArena_run]

omit [Host ε] [SearchMethod μ R ε] in
/-- There is a line about each option on which the role moves. -/
lemma exists_optionLines {options : List (Candidate R)} (limit : Int)
    (h : ∀ c ∈ options, ∃ move, c.key.turn.at? role = .ok move) :
    ∃ lines, optionLines role limit options = .ok lines := by
  have hline : ∀ c ∈ options.mergeSort fun a b => decide (b.playouts ≤ a.playouts),
      ∃ line, optionLine role c = .ok line := fun c hc => by
    obtain ⟨move, hmove⟩ := h c (List.mem_mergeSort.1 hc)
    rw [optionLine, hmove]
    exact ⟨_, rfl⟩
  unfold optionLines
  dsimp only
  split
  · obtain ⟨lines, hlines⟩ := exists_mapM_eq_ok fun c hc => hline c (List.mem_of_mem_take hc)
    rw [hlines]
    exact ⟨_, rfl⟩
  · obtain ⟨lines, hlines⟩ := exists_mapM_eq_ok hline
    rw [hlines]
    exact ⟨_, rfl⟩

/-- An agent is about to choose a move at a node that offers legal moves only, and whatever it chooses, it can
be committed to. -/
structure Deciding (game : Game) (role : Role) (legal : Move → Prop) (id : NodeId)
    (z : Hosted (TreeAgent μ R ε) ε) : Prop where
  seated : Seated game role z
  node : (SearchMethod.decisionNode : Deliberation μ R ε NodeId) z = .ok id z
  offers : z.own.arena.Offers id role legal
  commit : ∀ move t, Undisturbed z t → ∃ t', (SearchMethod.commit move : Deliberation μ R ε Unit) t = .ok ⟨⟩ t'

/-- An agent has legal moves of its role to choose from, and chooses the one that its chooser picks. -/
def HasChoice (role : Role) (legal : Move → Prop) (id : NodeId) (z : Hosted (TreeAgent μ R ε) ε) : Prop :=
  ∃ n options, ∃ h : z.own.arena.Choices id role legal n options,
    (∀ i host, z.own.chooser.pick n.firstWorld n.role options h.nonempty z.host = .ok i host →
      ∃ c move, options[i]? = some c ∧ c.key.turn.at? role = .ok move ∧ legal move ∧
        (choose id : Deliberation μ R ε Move) z = .ok move ⟨z.own, host⟩) ∧
    ∀ f host, z.own.chooser.pick n.firstWorld n.role options h.nonempty z.host = .error f host →
      (choose id : Deliberation μ R ε Move) z = .error f ⟨z.own, host⟩

namespace Deciding

omit [Host ε] in
lemma hasChoice (h : Deciding game role legal id z) : HasChoice role legal id z := by
  obtain ⟨n, options, hchoices⟩ := h.offers.exists_choices
  refine ⟨n, options, hchoices, fun i host hpick => ?_, fun f host hpick => ?_⟩
  · obtain ⟨c, move, hc, hmove, hlegal, hchosen⟩ := hchoices.chooseMove_of_ok hpick
    refine ⟨c, move, hc, hmove, hlegal, ?_⟩
    rw [choose_run h.seated]
    exact Hosted.onHost_eq_ok.2 ⟨host, hchosen, rfl⟩
  · rw [choose_run h.seated]
    exact Hosted.onHost_eq_error.2 ⟨host, hchoices.chooseMove_of_error hpick, rfl⟩

omit [Host ε] in
/-- Whatever the agent chooses is a legal move, and choosing it changes nothing in the trees. -/
lemma of_choose (h : Deciding game role legal id z) (hrun : (choose id : Deliberation μ R ε Move) z = .ok move y) :
    legal move ∧ Undisturbed z y := by
  obtain ⟨n, options, hchoices⟩ := h.offers.exists_choices
  rw [choose_run h.seated] at hrun
  obtain ⟨host, hchosen, -⟩ := Hosted.onHost_eq_ok.1 hrun
  exact ⟨hchoices.legal_of_chooseMove hchosen, undisturbed_of_onHost hrun⟩

/-- The options can be noted. -/
lemma noteOptions_run (h : Deciding game role legal id z) (hzy : Undisturbed z y) :
    ∃ t, (noteOptions id : Deliberation μ R ε Unit) y = .ok ⟨⟩ t ∧ Undisturbed y t := by
  obtain ⟨n, options, hchoices⟩ := h.offers.exists_choices
  have hoptions : y.own.arena.moveOptions? id role = .ok options := hzy.arena ▸ hchoices.run
  have hmoves : ∀ c ∈ options.toList, ∃ move, c.key.turn.at? role = .ok move := fun c hc => by
    obtain ⟨move, hmove, -⟩ := hchoices.move c (Array.mem_toList_iff.1 hc)
    exact ⟨move, hmove⟩
  obtain ⟨lines, hlines⟩ := exists_optionLines y.own.settings.maxLoggedOptions hmoves
  unfold noteOptions
  rw [Action.bind_of_ok (h.seated.undisturbed hzy).theRole_run, Action.bind_of_ok theArena_run,
    Action.bind_of_ok (Action.lift_of_ok hoptions _), Action.bind_of_ok Hosted.read_run,
    Action.bind_of_ok (Action.lift_of_ok hlines _)]
  exact ⟨_, rfl, rfl, rfl, rfl⟩

end Deciding

/-- How an agent deliberates: it thinks, and then answers with what it chooses, unless its thinking ends early. -/
theorem deliberate_cases (hseated : Seated game role x)
    (hdeciding : ∀ k z, Explored n view (k + 1) x z → ∃ id, Deciding game role legal id z) (timeLeft : Int) :
    (∃ k id z, (ponder n timeLeft view : Deliberation μ R ε Unit) x = .ok ⟨⟩ z ∧ Explored n view (k + 1) x z ∧
      Deciding game role legal id z ∧
      (∀ move t, (choose id : Deliberation μ R ε Move) z = .ok move t →
        ∃ y, (deliberate n timeLeft view : Deliberation μ R ε Move) x = .ok move y) ∧
      ∀ f t, (choose id : Deliberation μ R ε Move) z = .error f t →
        (deliberate n timeLeft view : Deliberation μ R ε Move) x = .error f t) ∨
    ∃ f z, (ponder n timeLeft view : Deliberation μ R ε Unit) x = .error f z ∧ Interrupted n view x f z ∧
      (deliberate n timeLeft view : Deliberation μ R ε Move) x = .error f z := by
  unfold deliberate
  rw [Action.bind_of_ok hseated.theRole_run]
  rcases ponder_cases n timeLeft view x with ⟨k, z, hpondered, hexplored⟩ | ⟨f, z, hpondered, hinterrupted⟩
  · obtain ⟨id, h⟩ := hdeciding k z hexplored
    obtain ⟨m, options, hchoices⟩ := h.offers.exists_choices
    have hlive : (onArena (Arena.node id) : Deliberation μ R ε (Node R)) z = .ok m z :=
      onArena_of_ok (Arena.node_of_find? hchoices.node)
    rw [Action.bind_of_ok hpondered, Action.bind_of_ok h.node, Action.bind_of_ok hlive]
    refine .inl ⟨k, id, z, hpondered, hexplored, h, fun move t hchosen => ?_, fun f t hchosen => ?_⟩
    · obtain ⟨-, ht⟩ := h.of_choose hchosen
      obtain ⟨t₁, hnoted, ht₁⟩ := h.noteOptions_run ht
      obtain ⟨t₂, hreported, ht₂⟩ : ∃ t₂, (Hosted.onHost (Host.report
          (.chose (SearchMethod.name μ R ε) role.text move.text n)) : Deliberation μ R ε Unit) t₁ = .ok ⟨⟩ t₂ ∧
          Undisturbed t₁ t₂ := ⟨_, rfl, rfl, rfl, rfl⟩
      obtain ⟨y, hcommitted⟩ := h.commit move t₂ ((ht.trans ht₁).trans ht₂)
      refine ⟨y, ?_⟩
      rw [Action.bind_of_ok hchosen, Action.bind_of_ok hnoted, Action.bind_of_ok hreported,
        Action.bind_of_ok hcommitted]
      rfl
    · exact Action.bind_of_error hchosen
  · exact .inr ⟨f, z, hpondered, hinterrupted, Action.bind_of_error hpondered⟩

/-- An agent that is to move in a state, with a view of it.  Once its trees are developed and some simulations
done, it has legal moves to choose from and no others, and chooses the one that its chooser picks.  Asked for
a move, it answers with what it chooses after its thinking, unless a development or a simulation fails; so
its answer is a legal move, and the check of the move changes nothing. -/
structure Dependable (game : Game) (role : Role) (n : Nat) (s : State) (view : View)
    (x : Hosted (TreeAgent μ R ε) ε) : Prop where
  chooses : ∀ k z, Explored n view (k + 1) x z → ∃ id,
    (SearchMethod.decisionNode : Deliberation μ R ε NodeId) z = .ok id z ∧
      HasChoice role (fun move => game.isLegal? s role move = .ok true) id z
  answers : ∀ timeLeft,
    (∃ k id z, (ponder n timeLeft view : Deliberation μ R ε Unit) x = .ok ⟨⟩ z ∧ Explored n view (k + 1) x z ∧
      (SearchMethod.decisionNode : Deliberation μ R ε NodeId) z = .ok id z ∧
      (∀ move t, (choose id : Deliberation μ R ε Move) z = .ok move t →
        ∃ y, (calculate n timeLeft view : Deliberation μ R ε Move) x = .ok move y) ∧
      ∀ f t, (choose id : Deliberation μ R ε Move) z = .error f t →
        (calculate n timeLeft view : Deliberation μ R ε Move) x = .error f t) ∨
    ∃ f z, (ponder n timeLeft view : Deliberation μ R ε Unit) x = .error f z ∧ Interrupted n view x f z ∧
      (calculate n timeLeft view : Deliberation μ R ε Move) x = .error f z
  legal : ∀ timeLeft move y, (calculate n timeLeft view : Deliberation μ R ε Move) x = .ok move y →
    game.isLegal? s role move = .ok true
  unchecked : ∀ timeLeft, (calculate n timeLeft view : Deliberation μ R ε Move) x =
    deliberate n timeLeft view x

/-- An agent whose thinking comes to an end, and whose chooser picks something then, has an answer. -/
theorem Dependable.exists_answer {timeLeft : Int} (h : Dependable game role n s view x)
    (hpondered : (ponder n timeLeft view : Deliberation μ R ε Unit) x = .ok ⟨⟩ z)
    (hpicks : ∀ (m : Node R) options (hoptions : 0 < options.size), ∃ i host,
      z.own.chooser.pick m.firstWorld m.role options hoptions z.host = .ok i host) :
    ∃ id move t y, (SearchMethod.decisionNode : Deliberation μ R ε NodeId) z = .ok id z ∧
      (choose id : Deliberation μ R ε Move) z = .ok move t ∧ game.isLegal? s role move = .ok true ∧
      (calculate n timeLeft view : Deliberation μ R ε Move) x = .ok move y := by
  rcases h.answers timeLeft with ⟨k, id, z', hpondered', hexplored, hnode, hok, -⟩ | ⟨f, z', hfails, -⟩
  · cases hpondered.symm.trans hpondered'
    obtain ⟨id', hnode', m, options, hchoices, hpick, -⟩ := h.chooses k z hexplored
    cases hnode.symm.trans hnode'
    obtain ⟨i, host, hpicked⟩ := hpicks m options hchoices.nonempty
    obtain ⟨-, move, -, -, hlegal, hchosen⟩ := hpick i host hpicked
    obtain ⟨y, hrun⟩ := hok move _ hchosen
    exact ⟨id, move, _, y, hnode, hchosen, hlegal, hrun⟩
  · cases hpondered.symm.trans hfails

/-- An agent is dependable if after each simulation its node offers legal moves. -/
theorem dependable_of_deciding (hseated : Seated game role x)
    (hview : ∀ move, game.isLegal? view role move = game.isLegal? s role move)
    (hdeciding : ∀ k z, Explored n view (k + 1) x z →
      ∃ id, Deciding game role (fun move => game.isLegal? s role move = .ok true) id z) :
    Dependable game role n s view x := by
  have hdeliberate : ∀ timeLeft move y, (deliberate n timeLeft view : Deliberation μ R ε Move) x = .ok move y →
      game.isLegal? s role move = .ok true := by
    intro timeLeft move y hrun
    rcases deliberate_cases hseated hdeciding timeLeft with ⟨k, id, z, -, -, h, hok, herror⟩ | ⟨f, z, -, -, hfails⟩
    · cases hchosen : (choose id : Deliberation μ R ε Move) z with
      | ok move' t =>
        obtain ⟨y', hrun'⟩ := hok move' t hchosen
        cases hrun.symm.trans hrun'
        exact (h.of_choose hchosen).1
      | error f t => cases hrun.symm.trans (herror f t hchosen)
    · cases hrun.symm.trans hfails
  have hunchecked : ∀ timeLeft, (calculate n timeLeft view : Deliberation μ R ε Move) x =
      deliberate n timeLeft view x := by
    intro timeLeft
    rw [calculate_run hseated]
    cases hrun : (deliberate n timeLeft view : Deliberation μ R ε Move) x with
    | ok move y =>
      have hlegal : game.isLegal? view role move = .ok true :=
        (hview move).trans (hdeliberate timeLeft move y hrun)
      exact (Action.bind_of_ok hrun).trans (Action.bind_of_ok (Action.lift_of_ok hlegal y))
    | error f y => exact Action.bind_of_error hrun
  refine ⟨fun k z hexplored => ?_, fun timeLeft => ?_, fun timeLeft move y hrun => ?_, hunchecked⟩
  · obtain ⟨id, h⟩ := hdeciding k z hexplored
    exact ⟨id, h.node, h.hasChoice⟩
  · rw [hunchecked]
    rcases deliberate_cases hseated hdeciding timeLeft with ⟨k, id, z, hpondered, hexplored, h, hrest⟩ | hfails
    · exact .inl ⟨k, id, z, hpondered, hexplored, h.node, hrest⟩
    · exact .inr hfails
  · exact hdeliberate timeLeft move y (hunchecked timeLeft ▸ hrun)

end Search

end TreeAgent

end GameSearch
