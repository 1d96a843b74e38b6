import GameSearch.Proofs.Agent.BeliefMoves
import GameSearch.Proofs.Agent.Determinization
import GameSearch.Proofs.Agent.Mcts
import GameSearch.Proofs.Exact

/-!
# Legal moves of searching agents

Every searching agent answers with a legal move if what its role sees settles which moves are legal.
-/

namespace GameSearch.TreeAgent

variable {R ε : Type} [Scalar R] [Host ε]

/-- Whenever its role is to move, a searching agent has legal moves to choose from once its trees are developed
to what the role sees and a simulation is done, and it answers with one of them.  No query of the game fails,
so a role in control of a state in which the play goes on has a legal move.  An agent that searches with
perfect information need not see the whole state for this, as long as developing its tree succeeds. -/
theorem moves_legally {game : Game} {possible : State → Prop} {role : Role} {n : Nat} {s : State} {view : View}
    (hgame : game.AnswersOn possible) (hstart : possible game.start) (hdiscerned : game.Discerned role)
    (hmove : game.ToMove role s) (hview : game.view? s role = .ok view) (hle : (n : Int) ≤ 2147483647) :
    (∀ x : Hosted (TreeAgent SingleObserver R ε) ε, Attends game role n s x → Dependable game role n s view x) ∧
      (∀ x : Hosted (TreeAgent MultiObserver R ε) ε, Attends game role n s x →
        Dependable game role n s view x) ∧
      ∀ x : Hosted (TreeAgent Mcts R ε) ε, Attends game role n s x → Dependable game role n s view x := by
  let u : Upkeep := ⟨game, possible, hgame, True, False⟩
  have hsees : game.viewOf s role = view := by simp [Game.viewOf, hview, Except.toOption]
  refine ⟨fun x h => ?_, fun x h => ?_, fun x h => ?_⟩
  · exact SingleObserver.dependable (u := u) hstart trivial not_false hdiscerned hmove hsees hle h
  · exact MultiObserver.dependable (u := u) hstart trivial not_false hdiscerned hmove hsees hle h
  · exact Mcts.dependable (u := u) hstart hdiscerned hmove hsees hle h

/-- The one who pulls a lever knows whether it has been pulled, as that takes one ply. -/
lemma discerned_lever : Lever.game.Discerned Lever.puller := by
  refine ⟨fun n s t hs ht _ => ?_, fun n s t hs ht _ => ?_, fun _ _ _ _ _ _ _ => rfl, fun _ _ _ _ => rfl⟩ <;>
    cases n with
    | zero =>
      cases hs
      cases ht
      rfl
    | succ n =>
      rcases Lever.pulled_of_after hs with rfl | rfl <;> rcases Lever.pulled_of_after ht with rfl | rfl <;> rfl

/-- A host whose clock stands still and whose dice show the least number. -/
structure Standstill where

instance : Host Standstill where
  roll _ h e := (⟨0, h⟩, e)
  now e := (0, e)
  pause _ e := e
  note _ e := e

namespace Standstill

/-- An agent before a match about the lever.  Its reserve is so large that it does one simulation only. -/
def novice (μ : Type) [SearchMethod μ ℚ Standstill] : Hosted (TreeAgent μ ℚ Standstill) Standstill where
  own := {
    seat := { source := fun _ => .ok (some Lever.game) }
    settings := { minBufferMs := 10 ^ 13 }
    selector := .mostVisited
    chooser := .mostVisited
    evaluator := .ofTable [] 0
    memory := SearchMethod.fresh ℚ Standstill }
  host := {}

lemma timeout_le {settings : SearchSettings} {playClock : Clock.Settings Binary64} {left used : Int}
    (hreserve : settings.minBufferMs = 10 ^ 13) : settings.timeout playClock left used ≤ 0 := by
  have hword : ∀ b : Binary64, b.toWord < 2 ^ 63 := fun b => by
    unfold Binary64.toWord
    split
    · exact Int64.toInt_lt _
    · exact Int64.toInt_lt _
  have hmost := hword (Binary64.ofInt (left + playClock.times.delay - used) * settings.timeScale)
  simp only [SearchSettings.timeout, SearchSettings.budget, SearchSettings.part, SearchSettings.ofMilliseconds,
    hreserve]
  omega

variable {μ : Type} [SearchMethod μ ℚ Standstill] {x y z : Hosted (TreeAgent μ ℚ Standstill) Standstill}
  {ply : Int} {view : View}

/-- Where the clock stands still, a search without any time is one simulation. -/
lemma ponder_run (timeLeft : Int) (hreserve : y.own.settings.minBufferMs = 10 ^ 13)
    (hdevelop : (SearchMethod.develop ply view : Deliberation μ ℚ Standstill Unit) x = .ok ⟨⟩ y)
    (hstep : (SearchMethod.step : Deliberation μ ℚ Standstill Unit) y = .ok ⟨⟩ z) :
    ∃ t, (ponder ply timeLeft view : Deliberation μ ℚ Standstill Unit) x = .ok ⟨⟩ t ∧
      t.own.chooser = z.own.chooser := by
  have hclock : ∀ x : Hosted (TreeAgent μ ℚ Standstill) Standstill,
      (Hosted.onHost Host.readClock : Deliberation μ ℚ Standstill Int) x = .ok 0 x := fun _ => rfl
  have htimeout : y.own.settings.timeout y.own.seat.playClock timeLeft (0 - 0) ≤ 0 := timeout_le hreserve
  unfold ponder
  rw [Action.bind_of_ok (hclock x), Action.bind_of_ok hdevelop, Action.bind_of_ok (hclock y),
    Action.bind_of_ok Hosted.read_run, Action.bind_of_ok Hosted.read_run]
  obtain ⟨more, hmore⟩ : ∃ more, maxSteps = more + 1 := ⟨maxSteps - 1, by decide⟩
  have hlift : ∀ r : Repeater (Hosted (TreeAgent μ ℚ Standstill) Standstill),
      Repeater.lift (Hosted.onHost Host.readClock) r = .ok 0 r := fun _ => rfl
  have hlifted : Repeater.lift (SearchMethod.step : Deliberation μ ℚ Standstill Unit)
      ({ inner := y } : Repeater (Hosted (TreeAgent μ ℚ Standstill) Standstill)) = .ok ⟨⟩ { inner := z } := by
    simp only [Repeater.lift, hstep]
  unfold search Repeater.run
  rw [hmore]
  simp only [Action.bind_of_ok (hlift _), Repeater.runUntil, bind_assoc, Action.bind_of_ok hlifted,
    Action.bind_of_ok (Action.get_run _)]
  rw [if_neg (by simp only [Bool.and_eq_true, decide_eq_true_eq]; omega)]
  exact ⟨_, rfl, rfl⟩

/-- The agent is dependable, and when it is asked for a move it has one. -/
def Answers (x : Hosted (TreeAgent μ ℚ Standstill) Standstill) : Prop :=
  Attends Lever.game Lever.puller 0 Lever.idle x ∧ Dependable Lever.game Lever.puller 0 Lever.idle ∅ x ∧
    ∃ z id move t y, (ponder 0 0 ∅ : Deliberation μ ℚ Standstill Unit) x = .ok ⟨⟩ z ∧
      (choose id : Deliberation μ ℚ Standstill Move) z = .ok move t ∧
      Lever.game.isLegal? Lever.idle Lever.puller move = .ok true ∧
      (calculate 0 0 ∅ : Deliberation μ ℚ Standstill Move) x = .ok move y

lemma answers_of_step (hattends : Attends Lever.game Lever.puller 0 Lever.idle x)
    (hdependable : Dependable Lever.game Lever.puller 0 Lever.idle ∅ x)
    (hreserve : y.own.settings.minBufferMs = 10 ^ 13) (hchooser : z.own.chooser = .mostVisited)
    (hdevelop : (SearchMethod.develop 0 ∅ : Deliberation μ ℚ Standstill Unit) x = .ok ⟨⟩ y)
    (hstep : (SearchMethod.step : Deliberation μ ℚ Standstill Unit) y = .ok ⟨⟩ z) : Answers x := by
  obtain ⟨t, hpondered, hsame⟩ := ponder_run 0 hreserve hdevelop hstep
  obtain ⟨id, move, t', y', -, hchosen, hlegal, hrun⟩ := hdependable.exists_answer hpondered fun m options h => by
    rw [hsame, hchooser]
    exact ⟨_, _, rfl⟩
  exact ⟨hattends, hdependable, t, id, move, t', y', hpondered, hchosen, hlegal, hrun⟩

/-- What is true of the pulling of a lever, which all take to be known. -/
def upkeep : Upkeep := ⟨Lever.game, fun _ => True, Lever.answers, True, False⟩

lemma exists_answers_single
    (h : ∀ x : Hosted (TreeAgent SingleObserver ℚ Standstill) Standstill,
      Attends Lever.game Lever.puller 0 Lever.idle x → Dependable Lever.game Lever.puller 0 Lever.idle ∅ x) :
    ∃ x : Hosted (TreeAgent SingleObserver ℚ Standstill) Standstill, Answers x := by
  have hsource : (novice SingleObserver).own.seat.source ⟨"lever"⟩ = .ok (some upkeep.game) := rfl
  obtain ⟨x, y, hprepare, hdevelop, hreserve, hchooser, hselector, hevaluator⟩ : ∃ x y,
      (TreeAgent.prepare Lever.puller ⟨"lever"⟩ ⟨0, 0, 0⟩ ⟨0, 0, 0⟩ : Deliberation SingleObserver ℚ Standstill Unit)
        (novice SingleObserver) = .ok ⟨⟩ x ∧
      (SearchMethod.develop 0 ∅ : Deliberation SingleObserver ℚ Standstill Unit) x = .ok ⟨⟩ y ∧
      y.own.settings.minBufferMs = 10 ^ 13 ∧ y.own.chooser = .mostVisited ∧ y.own.selector = .mostVisited ∧
      y.own.evaluator = .ofTable [] 0 := ⟨_, _, rfl, rfl, rfl, rfl, rfl, rfl⟩
  have hattends : Attends Lever.game Lever.puller 0 Lever.idle x := .prepare rfl hsource hprepare
  obtain ⟨x', root, hprepare', hat⟩ :=
    SingleObserver.At.prepare (u := upkeep) Lever.puller ⟨0, 0, 0⟩ ⟨0, 0, 0⟩ hsource trivial
  cases hprepare.symm.trans hprepare'
  obtain ⟨k, q, hat', -⟩ :=
    hat.develop_current (n := 0) Place.plausible_firstPlace trivial not_false (by decide) hdevelop
  obtain ⟨z, hstep⟩ := hat'.step_yields fun _ => by
    rw [hselector, hevaluator]
    exact SingleObserver.not_refuses_ofTable (by decide +kernel)
  have hsame := (SingleObserver.settled.step y _ z hstep).2
  exact ⟨x, answers_of_step hattends (h x hattends) hreserve (hsame.trans hchooser) hdevelop hstep⟩

lemma exists_answers_multi
    (h : ∀ x : Hosted (TreeAgent MultiObserver ℚ Standstill) Standstill,
      Attends Lever.game Lever.puller 0 Lever.idle x → Dependable Lever.game Lever.puller 0 Lever.idle ∅ x) :
    ∃ x : Hosted (TreeAgent MultiObserver ℚ Standstill) Standstill, Answers x := by
  have hsource : (novice MultiObserver).own.seat.source ⟨"lever"⟩ = .ok (some upkeep.game) := rfl
  obtain ⟨x, y, hprepare, hdevelop, hreserve, hchooser, hevaluator, htrees, hedges⟩ : ∃ x y,
      (TreeAgent.prepare Lever.puller ⟨"lever"⟩ ⟨0, 0, 0⟩ ⟨0, 0, 0⟩ : Deliberation MultiObserver ℚ Standstill Unit)
        (novice MultiObserver) = .ok ⟨⟩ x ∧
      (SearchMethod.develop 0 ∅ : Deliberation MultiObserver ℚ Standstill Unit) x = .ok ⟨⟩ y ∧
      y.own.settings.minBufferMs = 10 ^ 13 ∧ y.own.chooser = .mostVisited ∧ y.own.evaluator = .ofTable [] 0 ∧
      y.own.memory.trees.toList = [(Lever.puller, 0)] ∧ (y.own.arena.place? 0).map (·.edges.isNone) = some true :=
    ⟨_, _, rfl, rfl, rfl, rfl, rfl, rfl, by decide +kernel⟩
  have hattends : Attends Lever.game Lever.puller 0 Lever.idle x := .prepare rfl hsource hprepare
  obtain ⟨root, hat, -, -⟩ :=
    MultiObserver.At.prepare (u := upkeep) rfl hsource trivial (fun _ _ => False) (fun _ => False.elim) hprepare
  obtain ⟨k, q, hat', -⟩ :=
    hat.develop_current (n := 0) Place.plausible_firstPlace trivial not_false (by decide) hdevelop
  have honly : ∀ (role : Role) r, y.own.memory.trees[role]? = some r → r = 0 := fun role r hr => by
    have hin := Std.ExtTreeMap.mem_toList_iff_getElem?_eq_some.2 hr
    rw [htrees, List.mem_singleton] at hin
    exact (Prod.mk.inj hin).2
  obtain rfl := honly _ k hat'.planted
  rw [hat'.place, Option.map_some, Option.some.injEq, Option.isNone_iff_eq_none] at hedges
  obtain ⟨z, hstep, hdeeper⟩ := hat'.step_first hedges
    (fun w hw role r q' hr hq' => by
      obtain rfl := honly role r hr
      cases hat'.place.symm.trans hq'
      exact ⟨rfl, hw⟩)
    fun w host => by
      obtain ⟨utilities, hrun, hall⟩ := Evaluator.evaluateAll_ofTable upkeep.game w y.own.memory.trees (0 : ℚ) host
      exact ⟨utilities, host, hevaluator ▸ hrun, fun role hrole => ⟨0, hall role hrole, by decide +kernel⟩⟩
  exact ⟨x, answers_of_step hattends (h x hattends) hreserve (hdeeper.chooser.trans hchooser) hdevelop hstep⟩

lemma exists_answers_mcts
    (h : ∀ x : Hosted (TreeAgent Mcts ℚ Standstill) Standstill,
      Attends Lever.game Lever.puller 0 Lever.idle x → Dependable Lever.game Lever.puller 0 Lever.idle ∅ x) :
    ∃ x : Hosted (TreeAgent Mcts ℚ Standstill) Standstill, Answers x := by
  have hsource : (novice Mcts).own.seat.source ⟨"lever"⟩ = .ok (some upkeep.game) := rfl
  obtain ⟨x, y, hprepare, hdevelop, hreserve, hchooser, hevaluator, hmemory, hedges⟩ : ∃ x y,
      (TreeAgent.prepare Lever.puller ⟨"lever"⟩ ⟨0, 0, 0⟩ ⟨0, 0, 0⟩ : Deliberation Mcts ℚ Standstill Unit)
        (novice Mcts) = .ok ⟨⟩ x ∧
      (SearchMethod.develop 0 ∅ : Deliberation Mcts ℚ Standstill Unit) x = .ok ⟨⟩ y ∧
      y.own.settings.minBufferMs = 10 ^ 13 ∧ y.own.chooser = .mostVisited ∧ y.own.evaluator = .ofTable [] 0 ∧
      y.own.memory = ⟨⟨some 0⟩⟩ ∧ (y.own.arena.find? 0).map (·.edges.isNone) = some true :=
    ⟨_, _, rfl, rfl, rfl, rfl, rfl, rfl, by decide +kernel⟩
  have hattends : Attends Lever.game Lever.puller 0 Lever.idle x := .prepare rfl hsource hprepare
  obtain ⟨root, r, hat, hr⟩ := Mcts.At.prepare (u := upkeep) hsource trivial hprepare
  obtain ⟨k, m, t, hat', -⟩ := hat.develop_current (n := 0) hr (by decide) hdevelop
  obtain rfl : k = 0 := by
    have hsame := hat'.memory.symm.trans hmemory
    cases hsame
    rfl
  rw [hat'.node, Option.map_some, Option.some.injEq, Option.isNone_iff_eq_none] at hedges
  have hvalue : y.own.evaluator.evaluate upkeep.game t m.role y.host = .ok 0 y.host := by
    rw [hevaluator]
    rfl
  obtain ⟨z, hstep⟩ := hat'.step_pristine hedges hvalue (by decide +kernel)
  have hsame := (Mcts.settled.step y _ z hstep).2
  exact ⟨x, answers_of_step hattends (h x hattends) hreserve (hsame.trans hchooser) hdevelop hstep⟩

end Standstill

open Standstill in
/-- The theorem applies to agents that are to pull a lever, and each of them answers with a move. -/
theorem moves_legally_lever : Lever.game.Discerned Lever.puller ∧ Lever.game.ToMove Lever.puller Lever.idle ∧
    (∃ x : Hosted (TreeAgent SingleObserver ℚ Standstill) Standstill, Answers x) ∧
    (∃ x : Hosted (TreeAgent MultiObserver ℚ Standstill) Standstill, Answers x) ∧
    ∃ x : Hosted (TreeAgent Mcts ℚ Standstill) Standstill, Answers x := by
  have hmove : Lever.game.ToMove Lever.puller Lever.idle := ⟨rfl, _, rfl, by decide⟩
  have hplies : ((0 : Nat) : Int) ≤ 2147483647 := by decide
  obtain ⟨hsingle, hmulti, hmcts⟩ :=
    moves_legally (R := ℚ) (ε := Standstill) Lever.answers trivial discerned_lever hmove rfl hplies
  exact ⟨discerned_lever, hmove, exists_answers_single hsingle, exists_answers_multi hmulti,
    exists_answers_mcts hmcts⟩

end GameSearch.TreeAgent
