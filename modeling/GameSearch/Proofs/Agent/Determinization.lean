import GameSearch.Proofs.Agent.Descent

/-!
# Every simulation keeps to a world

However an agent that searches from its own point of view has come to be as it is, a step of its search keeps
to one world of its root all the way down, and nothing but its selector and its evaluator can make it fail:
`SingleObserver.Reachable.determinizes`.
-/

namespace GameSearch

namespace SingleObserver

open TreeAgent

variable {R ε : Type} [Scalar R] [Host ε] {u : Upkeep} {game : Game} {possible : State → Prop} {role : Role}
  {root : NodeId} {p : Place} {x y : Hosted (TreeAgent SingleObserver R ε) ε}

/-- A step of the search that tells what happened. -/
def stepBy : Deliberation SingleObserver R ε (Simulation R) := do
  let game ← (← Hosted.read).seat.game? "sois-mcts"
  let selector ← theSelector
  let evaluator ← theEvaluator
  let root ← SingleObserver.root
  onTrees (simulateBy game selector evaluator root)

lemma step_eq_stepBy : (SearchMethod.step : Deliberation SingleObserver R ε Unit) = stepBy >>= fun _ => pure ⟨⟩ := by
  simp only [stepBy, bind_assoc, ← onTrees_discard, ← simulate_eq_simulateBy]
  rfl

/-- The ways in which an agent of a role comes to be as it is.  Plies are numbers of 32 bits. -/
inductive Reachable (game : Game) (role : Role) : Hosted (TreeAgent SingleObserver R ε) ε → Prop
  | prepare {ruleset : Ruleset} {startClock playClock : Clock.Settings Binary64}
      {x y : Hosted (TreeAgent SingleObserver R ε) ε} :
      x.own.seat.source ruleset = .ok (some game) →
      (TreeAgent.prepare role ruleset startClock playClock : Deliberation SingleObserver R ε Unit) x =
        .ok ⟨⟩ y → Reachable game role y
  | elsewhere {x y : Hosted (TreeAgent SingleObserver R ε) ε} :
      Reachable game role x → Undisturbed x y → Reachable game role y
  | develop {ply : Int} {view : View} {x y : Hosted (TreeAgent SingleObserver R ε) ε} :
      Reachable game role x → ply ≤ 2147483647 →
      (SearchMethod.develop ply view : Deliberation SingleObserver R ε Unit) x = .ok ⟨⟩ y → Reachable game role y
  | step {x y : Hosted (TreeAgent SingleObserver R ε) ε} :
      Reachable game role x → (SearchMethod.step : Deliberation SingleObserver R ε Unit) x = .ok ⟨⟩ y →
      Reachable game role y
  | commit {move : Move} {x y : Hosted (TreeAgent SingleObserver R ε) ε} :
      Reachable game role x → (SearchMethod.commit move : Deliberation SingleObserver R ε Unit) x = .ok ⟨⟩ y →
      Reachable game role y

/-- An agent that develops its tree does so for a ply that is not in the past of its root. -/
lemma At.depth_le {ply : Int} {view : View} (h : At u x root p)
    (hrun : (SearchMethod.develop ply view : Deliberation SingleObserver R ε Unit) x = .ok ⟨⟩ y) :
    (p.depth : Int) ≤ ply := by
  rw [h.develop_run] at hrun
  obtain ⟨k, x₁, htrees, -⟩ := Action.bind_eq_ok.1 hrun
  obtain ⟨⟨a, host⟩, hdevelop, -⟩ := onTrees_eq_ok.1 htrees
  exact Arena.depth_le_of_develop h.rooted.place hdevelop

/-- The tree is sound at every moment of a match. -/
theorem Reachable.exists_at (hstart : u.states u.game.start) (hsteady : ¬u.steady) (hforgets : ¬u.recalls)
    (h : Reachable u.game role x) : ∃ root p, At u x root p := by
  induction h with
  | prepare hsource hprepare =>
    obtain ⟨y, root, hrun, hat⟩ := At.prepare role _ _ hsource hstart
    cases hprepare.symm.trans hrun
    exact ⟨root, _, hat⟩
  | elsewhere _ hxy ih =>
    obtain ⟨root, p, hat⟩ := ih
    exact ⟨root, p, hat.undisturbed hxy⟩
  | develop _ hle hdevelop ih =>
    obtain ⟨root, p, hat⟩ := ih
    rcases hat.develop_cases hstart (hat.depth_le hdevelop) hle _ fun hr => absurd hr hforgets with
      ⟨y, k, q, q', hrun, hat', -⟩ | ⟨y, f, hrun, -⟩
    · cases hdevelop.symm.trans hrun
      exact ⟨k, _, hat'⟩
    · cases hdevelop.symm.trans hrun
  | step _ hstep ih =>
    obtain ⟨root, p, hat⟩ := ih
    obtain ⟨q, hat', -⟩ := hat.step hstep
    exact ⟨root, q, hat'⟩
  | commit _ hcommit ih =>
    obtain ⟨root, p, hat⟩ := ih
    obtain ⟨y, q, k, r, T, hrun, hat', -⟩ := hat.commit _ (.inr (.inr hsteady))
    cases hcommit.symm.trans hrun
    exact ⟨k, _, hat'⟩

/-- A step of the search keeps to a world, and fails only if the selector or the evaluator does. -/
theorem At.stepBy_ensures (h : At u x root p) :
    Action.Ensures (fun f => ¬Refuses u.game x.own.selector x.own.evaluator x.own.arena root f) stepBy x
      fun sim y => Determinized u.game x.own.arena root sim y.own.arena := by
  have hgame : x.own.seat.game? "sois-mcts" = .ok u.game := by rw [Seat.game?, h.game]
  unfold stepBy
  refine Action.ensures_bind_of_ok Hosted.read_run ?_
  refine Action.ensures_bind_of_ok (Action.lift_of_ok hgame x) ?_
  refine Action.ensures_bind_of_ok (a := x.own.selector) (t := x) rfl ?_
  refine Action.ensures_bind_of_ok (a := x.own.evaluator) (t := x) rfl ?_
  refine Action.ensures_bind_of_ok h.root_run ?_
  exact ensures_onTrees (simulateBy_ensures (s := trees x) h.rooted)

omit [Host ε] in
/-- A selector that prefers what was visited most often never refuses, nor does a table of utilities. -/
lemma not_refuses_ofTable {a : Arena R} {otherwise : R} {f : Fault} (hunit : Scalar.isUnit otherwise = true) :
    ¬Refuses (ε := ε) game .mostVisited (.ofTable [] otherwise) a root f := by
  intro h
  cases h with
  | selector _ _ _ _ hpick => cases hpick
  | evaluator _ _ _ hevaluate => cases hevaluate
  | utility _ _ _ hevaluate hvalue =>
    cases hevaluate
    rw [Valuation.ofUtility?, Valuation.ofMean?, List.reverse_nil, List.lookup_nil, Option.getD_none, hunit] at hvalue
    cases hvalue

/-- A step of the search has a result if neither the selector nor the evaluator refuses. -/
lemma At.step_yields (h : At u x root p)
    (hwilling : ∀ f, ¬Refuses u.game x.own.selector x.own.evaluator x.own.arena root f) :
    ∃ y, (SearchMethod.step : Deliberation SingleObserver R ε Unit) x = .ok ⟨⟩ y := by
  obtain ⟨sim, y, hrun, -⟩ := (h.stepBy_ensures.sparing fun f _ => hwilling f).yields
  exact ⟨y, by rw [step_eq_stepBy, Action.bind_of_ok hrun]; rfl⟩

/-- A simulation of an agent follows one world down its tree, with edges that stand for transitions of that
world only, to a leaf where at most that world is newly expanded, and credits the leaf and what is above it.
It fails only if the selector fails over the options that it is asked about, or the evaluator does. -/
theorem Reachable.determinizes (hgame : game.AnswersOn possible) (hstart : possible game.start)
    (h : Reachable game role x) : ∃ root, x.own.memory.tree.root = some root ∧
      (∀ y, (SearchMethod.step : Deliberation SingleObserver R ε Unit) x = .ok ⟨⟩ y →
        ∃ sim, stepBy x = .ok sim y ∧ Determinized game x.own.arena root sim y.own.arena) ∧
      ∀ f y, (SearchMethod.step : Deliberation SingleObserver R ε Unit) x = .error f y →
        Refuses game x.own.selector x.own.evaluator x.own.arena root f := by
  obtain ⟨root, p, hat⟩ := h.exists_at (u := ⟨game, possible, hgame, False, False⟩) hstart not_false not_false
  have hensures := hat.stepBy_ensures
  refine ⟨root, by rw [hat.memory], fun y hstep => ?_, fun f y hstep => ?_⟩
  · rw [step_eq_stepBy] at hstep
    obtain ⟨sim, y', hrun, hpure⟩ := Action.bind_eq_ok.1 hstep
    cases hpure
    exact ⟨sim, hrun, hensures.of_ok hrun⟩
  · rw [step_eq_stepBy] at hstep
    rcases Action.bind_eq_error.1 hstep with hrun | ⟨sim, y', hrun, hpure⟩
    · exact not_not.1 (hensures.of_error hrun)
    · cases hpure

/-- The theorem applies to the pulling of a lever, the second simulation of which follows an edge out of the
idle lever. -/
theorem determinizes_lever : ∃ (x y : Hosted (TreeAgent SingleObserver ℚ Session) Session) (root : NodeId)
    (sim : Simulation ℚ), Reachable Lever.game Lever.puller x ∧
      (SearchMethod.step : Deliberation SingleObserver ℚ Session Unit) x = .ok ⟨⟩ y ∧
      x.own.memory.tree.root = some root ∧ Determinized Lever.game x.own.arena root sim y.own.arena ∧
      sim.world = Lever.idle ∧ sim.way ≠ [] := by
  let own : TreeAgent SingleObserver ℚ Session := {
    seat := { source := fun _ => .ok (some Lever.game) }
    settings := {}
    selector := .mostVisited
    chooser := .mostVisited
    evaluator := .ofTable [] 0
    memory := {} }
  let u : Upkeep := ⟨Lever.game, fun _ => True, Lever.answers, False, False⟩
  have hsource : own.seat.source ⟨"lever"⟩ = .ok (some u.game) := rfl
  have hunit : Scalar.isUnit (0 : ℚ) = true := by decide +kernel
  obtain ⟨x, hprepare, hselector, hevaluator⟩ : ∃ x,
      (TreeAgent.prepare Lever.puller ⟨"lever"⟩ ⟨0, 0, 0⟩ ⟨0, 0, 0⟩ : Deliberation SingleObserver ℚ Session Unit)
        ⟨own, .ofSeed 0⟩ = .ok ⟨⟩ x ∧ x.own.selector = .mostVisited ∧ x.own.evaluator = .ofTable [] 0 :=
    ⟨_, rfl, rfl, rfl⟩
  obtain ⟨x', root, hprepare', hat⟩ :=
    At.prepare (u := u) (x := ⟨own, .ofSeed 0⟩) Lever.puller ⟨0, 0, 0⟩ ⟨0, 0, 0⟩ hsource trivial
  cases hprepare.symm.trans hprepare'
  obtain ⟨y, hstep⟩ := hat.step_yields fun _ => by
    rw [hselector, hevaluator]
    exact not_refuses_ofTable hunit
  obtain ⟨p, hat', halike, hbegun⟩ := hat.step hstep
  obtain ⟨t, -, rfl⟩ := hat.step_eq_ok hstep
  obtain ⟨z, hstep'⟩ := hat'.step_yields fun _ => by
    rw [show (withTrees x t).own.selector = .mostVisited from hselector,
      show (withTrees x t).own.evaluator = .ofTable [] 0 from hevaluator]
    exact not_refuses_ofTable hunit
  have hreachable : Reachable Lever.game Lever.puller (withTrees x t) := .step (.prepare hsource hprepare) hstep
  obtain ⟨root', hroot, hok, -⟩ := hreachable.determinizes Lever.answers trivial
  obtain ⟨sim, -, hdeterminized⟩ := hok z hstep'
  obtain rfl : root' = root := by
    rw [hat'.memory] at hroot
    exact (Option.some.inj hroot).symm
  -- the root holds the idle lever only, which the first simulation has expanded
  have honly : ∀ w ∈ p.belief.worlds, w = Lever.idle := fun w hw => by
    rw [halike.worlds] at hw
    exact StateSet.mem_singleton.1 hw
  have hsound := hat'.rooted.sound.kept root' p hat'.rooted.place not_false
  obtain ⟨w, hw⟩ := hbegun
  obtain rfl := honly w (hsound.expanded w hw)
  have hup : (Turn.single Lever.puller Lever.up, Lever.raised) ∈ u.game.transitions Lever.idle := by
    rw [show u.game.transitions Lever.idle = _ from Lever.transitions_idle]
    exact List.mem_cons_self
  obtain ⟨e, he, hkey, -⟩ := Place.mem_out.1 (hsound.out_of_free halike.move hw hup)
  obtain ⟨b, hb, hworld⟩ := hdeterminized.follows.begins
  cases hb.symm.trans (Arena.belief?_of_place? hat'.rooted.place)
  refine ⟨_, z, root', sim, hreachable, hstep', hroot, hdeterminized, honly _ hworld, ?_⟩
  refine hdeterminized.follows.way_ne_nil ⟨_, hb, (honly _ hworld).symm ▸ hw⟩
    (Arena.edgesOf_of_place? hat'.rooted.place ▸ he) (hkey.trans ?_)
  rw [honly _ hworld]

end SingleObserver

end GameSearch
