import GameSearch.Proofs.Agent.Trees

/-!
# An agent in the course of a match

What goes on between the calls that an agent gets does not touch what it knows of the match.
`TreeAgent.Attends` are the ways in which a play and an agent go on together, whatever the agent's method of
searching is, and `Attends.keeps` says what is kept as long as the match goes on.
-/

namespace GameSearch.TreeAgent

variable {μ R ε α β : Type} {game : Game} {role : Role} {n k : Nat} {s : State} {x y z : Hosted (TreeAgent μ R ε) ε}

/-- What goes on elsewhere does not touch what an agent knows of a match. -/
structure Undisturbed (x y : Hosted (TreeAgent μ R ε) ε) : Prop where
  seat : y.own.seat = x.own.seat
  memory : y.own.memory = x.own.memory
  arena : y.own.arena = x.own.arena

lemma Undisturbed.refl : Undisturbed x x := ⟨rfl, rfl, rfl⟩

lemma Undisturbed.trans (h : Undisturbed x y) (h' : Undisturbed y z) : Undisturbed x z :=
  ⟨h'.seat.trans h.seat, h'.memory.trans h.memory, h'.arena.trans h.arena⟩

/-- An agent has a seat in a match. -/
structure Seated (game : Game) (role : Role) (x : Hosted (TreeAgent μ R ε) ε) : Prop where
  game : x.own.seat.game = some game
  role : x.own.seat.role = some role

/-! ## Actions that leave the seat alone -/

/-- An action after which an agent has the same seat and chooses in the same way. -/
def KeepsManner (action : Deliberation μ R ε α) : Prop :=
  ∀ x r y, action x = .ok r y → y.own.seat = x.own.seat ∧ y.own.chooser = x.own.chooser

lemma Seated.keep {action : Deliberation μ R ε α} {r : α} (h : Seated game role x) (hkeeps : KeepsManner action)
    (hrun : action x = .ok r y) : Seated game role y := by
  obtain ⟨hseat, -⟩ := hkeeps x r y hrun
  exact ⟨by rw [hseat, h.game], by rw [hseat, h.role]⟩

lemma Seated.undisturbed (h : Seated game role x) (hxy : Undisturbed x y) : Seated game role y :=
  ⟨by rw [hxy.seat, h.game], by rw [hxy.seat, h.role]⟩

lemma KeepsManner.bind {action : Deliberation μ R ε α} {f : α → Deliberation μ R ε β} (h : KeepsManner action)
    (hf : ∀ a, KeepsManner (f a)) : KeepsManner (action >>= f) := by
  intro x r y hrun
  obtain ⟨a, u, ha, hr⟩ := Action.bind_eq_ok.1 hrun
  obtain ⟨hseat, hchooser⟩ := h x a u ha
  obtain ⟨hseat', hchooser'⟩ := hf a u r y hr
  exact ⟨hseat'.trans hseat, hchooser'.trans hchooser⟩

lemma keepsManner_pure (a : α) : KeepsManner (pure a : Deliberation μ R ε α) := by
  intro x r y hrun
  cases hrun
  exact ⟨rfl, rfl⟩

lemma KeepsManner.ite {c : Prop} [Decidable c] {action other : Deliberation μ R ε α} (h : KeepsManner action)
    (h' : KeepsManner other) : KeepsManner (if c then action else other) := by
  split
  · exact h
  · exact h'

lemma keepsManner_lift (q : Except Fault α) : KeepsManner (liftM q : Deliberation μ R ε α) := by
  intro x r y hrun
  obtain ⟨-, rfl⟩ := Action.lift_eq_ok.1 hrun
  exact ⟨rfl, rfl⟩

lemma keepsManner_read : KeepsManner (Hosted.read : Deliberation μ R ε (TreeAgent μ R ε)) := by
  intro x r y hrun
  cases hrun
  exact ⟨rfl, rfl⟩

lemma keepsManner_memorized : KeepsManner (memorized : Deliberation μ R ε μ) := by
  intro x r y hrun
  cases hrun
  exact ⟨rfl, rfl⟩

lemma keepsManner_remember (f : μ → μ) : KeepsManner (remember f : Deliberation μ R ε Unit) := by
  intro x r y hrun
  cases hrun
  exact ⟨rfl, rfl⟩

lemma keepsManner_onHost (action : Action ε α) : KeepsManner (Hosted.onHost action : Deliberation μ R ε α) := by
  intro x r y hrun
  obtain ⟨host, -, rfl⟩ := Hosted.onHost_eq_ok.1 hrun
  exact ⟨rfl, rfl⟩

lemma keepsManner_onTrees (action : Action (Hosted (Arena R) ε) α) :
    KeepsManner (onTrees action : Deliberation μ R ε α) := by
  intro x r y hrun
  obtain ⟨t, -, rfl⟩ := onTrees_eq_ok.1 hrun
  exact ⟨rfl, rfl⟩

lemma keepsManner_onArena (action : Action (Arena R) α) : KeepsManner (onArena action : Deliberation μ R ε α) :=
  keepsManner_onTrees _

lemma keepsManner_change {f : TreeAgent μ R ε → TreeAgent μ R ε}
    (hf : ∀ agent, (f agent).seat = agent.seat ∧ (f agent).chooser = agent.chooser) :
    KeepsManner (Hosted.change f : Deliberation μ R ε Unit) := by
  intro x r y hrun
  cases hrun
  exact hf x.own

lemma keepsManner_gameAndRole (name : String) : KeepsManner (gameAndRole name : Deliberation μ R ε (Game × Role)) :=
  keepsManner_read.bind fun _ => (keepsManner_lift _).bind fun _ => (keepsManner_lift _).bind fun _ =>
    keepsManner_pure _

lemma undisturbed_of_onHost {action : Action ε α} {r : α}
    (h : (Hosted.onHost action : Deliberation μ R ε α) x = .ok r y) : Undisturbed x y := by
  obtain ⟨host, -, rfl⟩ := Hosted.onHost_eq_ok.1 h
  exact ⟨rfl, rfl, rfl⟩

lemma onArena_eq_ok {action : Action (Arena R) α} {r : α} :
    (onArena action : Deliberation μ R ε α) x = .ok r y ↔
      ∃ a, action x.own.arena = .ok r a ∧ y = withTrees x ⟨a, x.host⟩ := by
  unfold onArena
  rw [onTrees_eq_ok]
  constructor
  · rintro ⟨t, h, rfl⟩
    obtain ⟨a, ha, rfl⟩ := Hosted.onOwn_eq_ok.1 h
    exact ⟨a, ha, rfl⟩
  · rintro ⟨a, ha, rfl⟩
    exact ⟨_, Hosted.onOwn_eq_ok.2 ⟨a, ha, rfl⟩, rfl⟩

/-! ## Matches -/

section Matches

variable [SearchMethod μ R ε]

/-- So many simulations, whatever else goes on in between. -/
inductive Simulates : Nat → Hosted (TreeAgent μ R ε) ε → Hosted (TreeAgent μ R ε) ε → Prop
  | refl {x : Hosted (TreeAgent μ R ε) ε} : Simulates 0 x x
  | step {k : Nat} {x y z : Hosted (TreeAgent μ R ε) ε} : Simulates k x y →
      (SearchMethod.step : Deliberation μ R ε Unit) y = .ok ⟨⟩ z → Simulates (k + 1) x z
  | elsewhere {k : Nat} {x y z : Hosted (TreeAgent μ R ε) ε} : Simulates k x y → Undisturbed y z →
      Simulates k x z

/-- The ways in which a play and an agent of a role go on.  At a ply the agent may develop its trees to
the view of the role, do some simulations and be committed to a move, which need not be the one that is
played. -/
inductive Attends (game : Game) (role : Role) : Nat → State → Hosted (TreeAgent μ R ε) ε → Prop
  | prepare {ruleset : Ruleset} {startClock playClock : Clock.Settings Binary64}
      {x y : Hosted (TreeAgent μ R ε) ε} :
      x.own.memory = SearchMethod.fresh R ε → x.own.seat.source ruleset = .ok (some game) →
      (TreeAgent.prepare role ruleset startClock playClock : Deliberation μ R ε Unit) x = .ok ⟨⟩ y →
      Attends game role 0 game.start y
  | elsewhere {n : Nat} {s : State} {x y : Hosted (TreeAgent μ R ε) ε} :
      Attends game role n s x → Undisturbed x y → Attends game role n s y
  | watch {n : Nat} {s : State} {step : Turn × State} {x : Hosted (TreeAgent μ R ε) ε} :
      Attends game role n s x → step ∈ game.transitions s → Attends game role (n + 1) step.2 x
  | move {n k : Nat} {s : State} {step : Turn × State} {view : View} {move : Move}
      {x y y' z : Hosted (TreeAgent μ R ε) ε} :
      Attends game role n s x → game.view? s role = .ok view →
      (SearchMethod.develop n view : Deliberation μ R ε Unit) x = .ok ⟨⟩ y → Simulates k y y' →
      (SearchMethod.commit move : Deliberation μ R ε Unit) y' = .ok ⟨⟩ z → step ∈ game.transitions s →
      Attends game role (n + 1) step.2 z

lemma Attends.after (h : Attends game role n s x) : game.After n game.start s := by
  induction h with
  | prepare => rfl
  | elsewhere _ _ ih => exact ih
  | watch _ hstep ih => exact Game.after_succ.2 ⟨_, ih, _, hstep, rfl⟩
  | move _ _ _ _ _ hstep ih => exact Game.after_succ.2 ⟨_, ih, _, hstep, rfl⟩

/-- What goes on before the first simulation does not matter either. -/
lemma Simulates.after (h : Simulates k y z) (hxy : Undisturbed x y) : Simulates k x z := by
  induction h with
  | refl => exact .elsewhere .refl hxy
  | step _ hstep ih => exact (ih hxy).step hstep
  | elsewhere _ hyz ih => exact (ih hxy).elsewhere hyz

lemma Simulates.seated (hstep : KeepsManner (SearchMethod.step : Deliberation μ R ε Unit))
    (h : Simulates k x y) (hx : Seated game role x) : Seated game role y := by
  induction h with
  | refl => exact hx
  | step _ hrun ih => exact (ih hx).keep hstep hrun
  | elsewhere _ hyz ih => exact (ih hx).undisturbed hyz

/-- A method of searching leaves alone the seat of the agent and the way in which it chooses. -/
structure Settled (μ R ε : Type) [SearchMethod μ R ε] : Prop where
  plant : KeepsManner (SearchMethod.plant : Deliberation μ R ε Unit)
  develop : ∀ ply view, KeepsManner (SearchMethod.develop ply view : Deliberation μ R ε Unit)
  step : KeepsManner (SearchMethod.step : Deliberation μ R ε Unit)
  commit : ∀ move, KeepsManner (SearchMethod.commit move : Deliberation μ R ε Unit)

/-- An agent has the same seat as long as the match goes on. -/
theorem Attends.seated (hsettled : Settled μ R ε) (h : Attends game role n s x) : Seated game role x := by
  induction h with
  | prepare _ hsource hprepare =>
    rw [prepare_run _ _ hsource] at hprepare
    exact Seated.keep ⟨rfl, rfl⟩ hsettled.plant hprepare
  | elsewhere _ hxy ih => exact ih.undisturbed hxy
  | watch _ _ ih => exact ih
  | move _ _ hdevelop hsimulates hcommit _ ih =>
    have hdeveloped := ih.keep (hsettled.develop _ _) hdevelop
    exact (hsimulates.seated hsettled.step hdeveloped).keep (hsettled.commit _) hcommit

/-- What an agent keeps as long as the match goes on. -/
theorem Attends.keeps {I : Nat → Hosted (TreeAgent μ R ε) ε → Prop}
    (prepare : ∀ {ruleset : Ruleset} {startClock playClock : Clock.Settings Binary64}
      {x y : Hosted (TreeAgent μ R ε) ε}, x.own.memory = SearchMethod.fresh R ε →
      x.own.seat.source ruleset = .ok (some game) →
      (TreeAgent.prepare role ruleset startClock playClock : Deliberation μ R ε Unit) x = .ok ⟨⟩ y → I 0 y)
    (elsewhere : ∀ {n x y}, I n x → Undisturbed x y → I n y) (watch : ∀ {n x}, I n x → I (n + 1) x)
    (move : ∀ {n : Nat} {k s move x y y' z}, game.After n game.start s → (n : Int) ≤ 2147483647 → I n x →
      ∀ {view}, game.view? s role = .ok view →
      (SearchMethod.develop n view : Deliberation μ R ε Unit) x = .ok ⟨⟩ y → Simulates k y y' →
      (SearchMethod.commit move : Deliberation μ R ε Unit) y' = .ok ⟨⟩ z → I (n + 1) z)
    (hle : (n : Int) ≤ 2147483647) (h : Attends game role n s x) : I n x := by
  induction h with
  | prepare hmemory hsource hprepare => exact prepare hmemory hsource hprepare
  | elsewhere _ hxy ih => exact elsewhere (ih hle) hxy
  | watch _ _ ih => exact watch (ih (by omega))
  | move hattends hview hdevelop hsimulates hcommit _ ih =>
    exact move hattends.after (by omega) (ih (by omega)) hview hdevelop hsimulates hcommit

end Matches

end GameSearch.TreeAgent
