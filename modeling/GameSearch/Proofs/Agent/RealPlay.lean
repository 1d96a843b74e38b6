import GameSearch.Proofs.Agent.SharedWorlds

/-!
# The trees of the other roles in a real play

A root of another role's tree holds the state of the play at its ply, as long as the agent's own belief
holds the state of the play whenever the agent is to move.  An own belief that is complete always does.
`Run.exists_trail` is what a run keeps, and `Run.holds_play` is about the moments at which the agent is to move.
-/

namespace GameSearch

namespace MultiObserver

open Arena TreeAgent

variable {R ε : Type} [Scalar R] [Host ε] {game : Game} {u : Upkeep} {possible : State → Prop} {own role : Role}
  {x y z : Hosted (TreeAgent MultiObserver R ε) ε} {root r id : NodeId} {p : Place} {n : Nat} {view : View}
  {move : Move} {c : Course u.game}

/-! ## Runs -/

/-- The ways in which a play and an agent of a role go on.  Whenever the role is to move, the agent develops
its trees to the present ply and the view of the role, does some simulations, and is committed to the move
that the role makes.  A belief that is a sample is to hold the state of the play. -/
inductive Run (game : Game) (own : Role) (c : Course game) :
    Nat → Hosted (TreeAgent MultiObserver R ε) ε → Prop
  | prepare {ruleset : Ruleset} {startClock playClock : Clock.Settings Binary64}
      {x y : Hosted (TreeAgent MultiObserver R ε) ε} :
      x.own.memory = {} → x.own.seat.source ruleset = .ok (some game) →
      (TreeAgent.prepare own ruleset startClock playClock : Deliberation MultiObserver R ε Unit) x =
        .ok ⟨⟩ y → Run game own c 0 y
  | elsewhere {n : Nat} {x y : Hosted (TreeAgent MultiObserver R ε) ε} :
      Run game own c n x → Undisturbed x y → Run game own c n y
  | watch {n : Nat} {x : Hosted (TreeAgent MultiObserver R ε) ε} :
      Run game own c n x → (c.state n).isInControl own = false →
      (c.turn n, c.state (n + 1)) ∈ game.transitions (c.state n) → Run game own c (n + 1) x
  | move {n : Nat} {view : View} {move : Move} {x y y' z : Hosted (TreeAgent MultiObserver R ε) ε} :
      Run game own c n x → (c.state n).isInControl own = true → game.view? (c.state n) own = .ok view →
      (SearchMethod.develop n view : Deliberation MultiObserver R ε Unit) x = .ok ⟨⟩ y →
      Covers own (c.state n) y → Searches y y' →
      (SearchMethod.commit move : Deliberation MultiObserver R ε Unit) y' = .ok ⟨⟩ z →
      (c.turn n, c.state (n + 1)) ∈ game.transitions (c.state n) → (c.turn n).find? own = some move →
      Run game own c (n + 1) z

lemma Ready.searches (h : Ready u own c n x) (hle : n ≤ 2147483647)
    (harguments : (controlOf own).arguments? = .ok [own]) (hsearches : Searches x y) : Ready u own c n y := by
  obtain ⟨root, p, hat, hdepth, hmove, hin⟩ := h.trees
  obtain ⟨q, hq, halike, hviews, hmoves⟩ := hat.searches (hdepth ▸ hle) harguments hsearches
  exact ⟨⟨root, q, hq, halike.depth.trans hdepth, halike.move.trans hmove, by rw [halike.worlds]; exact hin⟩,
    h.remembers.congr hviews hmoves⟩

/-- An agent that is committed to the move that is made can go on. -/
theorem Ready.commit (h : Ready u own c n x) (hsteady : u.steady) (hcontrol : (c.state n).isInControl own = true)
    (hcommit : (SearchMethod.commit move : Deliberation MultiObserver R ε Unit) x = .ok ⟨⟩ y)
    (hstep : (c.turn n, c.state (n + 1)) ∈ u.game.transitions (c.state n))
    (hmove : (c.turn n).find? own = some move) : Trail u own c (n + 1) y := by
  obtain ⟨root, p, hat, rfl, hfree, hin⟩ := h.trees
  obtain ⟨y', q, k, r, T, hrun, hat', htrimmed, hsound, hr, hcases, -, hviews, hmoves⟩ :=
    hat.commit (.inl hfree)
  cases hcommit.symm.trans hrun
  have hvisible : p.belief.isVisible = true := by
    rw [← hat.inCharge _ hin, hat.owner]
    exact hcontrol
  rw [← hat.owner] at hmove
  refine ⟨⟨k, r.detached, hat', ?_⟩, h.remembers.made (hat.owner ▸ hmove) hviews hmoves⟩
  have htrails : r.Trails u (p.depth + 1) (c.state (p.depth + 1)) := by
    rcases hcases with rfl | hsole
    · exact Place.trails_committed htrimmed hin hvisible hstep hmove
    · exact Place.trails_child hsteady htrimmed hsound hsole hr hin hstep hmove
  exact htrails.detached

/-- The agent's trees are as they should be as long as the play goes on. -/
theorem Run.exists_trail (hstart : u.states u.game.start) (hsteady : u.steady) (hforgets : ¬u.recalls)
    (harguments : (controlOf own).arguments? = .ok [own]) (hle : n ≤ 2147483647) (h : Run u.game own c n x) :
    Trail u own c n x ∧ ∀ m < n, (c.turn m, c.state (m + 1)) ∈ u.game.transitions (c.state m) := by
  induction h with
  | prepare hmemory hsource hprepare =>
    obtain ⟨root, hat, hviews, hmoves⟩ := At.prepare hmemory hsource hstart (fun m s => s = c.state m)
      (fun s hs => hs.trans c.start) hprepare
    refine ⟨⟨⟨root, _, hat, Place.trails_of_mem rfl (StateSet.mem_singleton.2 c.start) rfl⟩, ?_, ?_⟩,
      fun m hm => absurd hm (Nat.not_lt_zero m)⟩
    · simp [hviews]
    · simp [hmoves]
  | elsewhere _ hxy ih =>
    obtain ⟨⟨⟨root, p, hat, htrails⟩, hremembers⟩, hplayed⟩ := ih hle
    exact ⟨⟨⟨root, p, hat.undisturbed hxy, htrails⟩, hxy.memory ▸ hremembers⟩, hplayed⟩
  | watch _ hcontrol hstep ih =>
    obtain ⟨⟨⟨root, p, hat, htrails⟩, hremembers⟩, hplayed⟩ := ih (by omega)
    exact ⟨⟨⟨root, p, hat, htrails.step hstep⟩, hremembers⟩, Nat.forall_lt_succ_right.2 ⟨hplayed, hstep⟩⟩
  | move _ hcontrol hview hdevelop hcovers hsearches hcommit hstep hmove ih =>
    obtain ⟨htrail, hplayed⟩ := ih (by omega)
    rw [u.answers.view? htrail.states, Except.ok.injEq] at hview
    have hready := (htrail.develop hstart hsteady hforgets (by omega) hview hdevelop hcovers).searches
      (by omega) harguments hsearches
    exact ⟨hready.commit hsteady hcontrol hcommit hstep hmove, Nat.forall_lt_succ_right.2 ⟨hplayed, hstep⟩⟩

/-! ## The real state in the other trees -/

/-- Whenever the agent is to move and its own belief, if it is a sample, has held the state of the play so
far: the root of each other role holds the state of the play at its ply, the present state is located in
all trees, and no simulation that draws it ends for want of a development. -/
theorem Run.holds_play {c : Course game} (hgame : game.AnswersOn possible) (hstart : possible game.start)
    (harguments : (controlOf own).arguments? = .ok [own]) (h : Run game own c n x)
    (hview : game.view? (c.state n) own = .ok view) (hle : n ≤ 2147483647)
    (hdevelop : (SearchMethod.develop n view : Deliberation MultiObserver R ε Unit) x = .ok ⟨⟩ y)
    (hcovers : Covers own (c.state n) y) (hsearches : Searches y z) :
    (∀ role root n' b, role ≠ own → z.own.memory.trees[role]? = some root →
        z.own.arena.find? root = some n' → n'.knowledge = .belief b →
        ∃ ply : Nat, n'.depth = ply ∧ ply ≤ n ∧ c.state ply ∈ b.worlds) ∧
      (∃ nodes t, (locateAll game own (c.state n) : Deliberation MultiObserver R ε (ByRole NodeId)) z =
          .ok nodes t ∧ (∀ role : Role, role ∈ nodes ↔ role ∈ game.roles ∧ role ≠ chance) ∧
        ∀ (role : Role) id, nodes[role]? = some id → Holds t role n (c.state n) id) ∧
      (z.own.selector.Spares (fun f => f.kind = .mismatch) →
        z.own.evaluator.Spares game possible (fun f => f.kind = .mismatch) → ∀ root b host,
          z.own.memory.trees[own]? = some root → z.own.arena.belief? root = .ok b →
          Dice.choose b.worlds.toList z.host = .ok (c.state n) host → ∀ f t,
            (SearchMethod.step : Deliberation MultiObserver R ε Unit) z = .error f t → f.kind ≠ .mismatch) := by
  -- The agent commits a root to one move at most, and its children need not keep histories.
  let u : Upkeep := ⟨game, possible, hgame, True, False⟩
  obtain ⟨htrail, hplayed⟩ := Run.exists_trail (u := u) hstart trivial not_false harguments hle h
  have hsees : game.viewOf (c.state n) own = view := by
    rw [hgame.view? htrail.states, Except.ok.injEq] at hview
    exact hview
  have hready := (htrail.develop hstart trivial not_false (by omega) hsees hdevelop hcovers).searches hle
    harguments hsearches
  have hlocatable := hready.locatable hplayed
  obtain ⟨root, p, hat, hdepth, -, hin⟩ := hready.trees
  refine ⟨fun role r n' b hne hr hn hb => ?_, ?_, fun hselects hevaluates root' b host hroot' hb hdraw f t hrun => ?_⟩
  · obtain ⟨q, hroot⟩ := hat.grove.root role r hr
    obtain ⟨v, hq⟩ := find?_of_place? hroot.place
    cases hn.symm.trans hq
    cases hb
    exact ⟨q.depth, rfl, hdepth ▸ hroot.le, hroot.holds hne _ rfl⟩
  · obtain ⟨nodes, t, hrun, q, hq, -, hdeeper, hstep⟩ :=
      Action.Ensures.yields (locateAll_ensures hat (hdepth ▸ hle) hin fun _ => hdepth ▸ hlocatable)
    refine ⟨nodes, t, hrun, fun role => (hstep.roles role).trans (hat.roles role), fun role id hid => ?_⟩
    obtain ⟨r, hr⟩ : ∃ r, z.own.memory.trees[role]? = some r := by
      rw [← Option.isSome_iff_exists, ← Std.ExtTreeMap.mem_iff_isSome_getElem?, ← hstep.roles,
        Std.ExtTreeMap.mem_iff_isSome_getElem?, hid]
      rfl
    have hdescribes := hstep.node role r id hr hid
    rw [hdepth] at hdescribes
    exact Holds.of_describes (hdeeper.trees ▸ hr) hdescribes
  · rw [hat.planted, Option.some.injEq] at hroot'
    subst hroot'
    cases hb.symm.trans (belief?_of_place? hat.place)
    refine (simulate_ensures hat (hdepth ▸ hle) harguments hselects hevaluates fun w host' hw _ => ?_).of_error hrun
    cases hdraw.symm.trans hw
    exact hdepth ▸ hlocatable

/-- The theorem applies when a flag was raised that the receiver has not seen. -/
theorem holds_play_signal : ∃ x y : Hosted (TreeAgent MultiObserver Binary64 Session) Session,
    Run Signal.game Signal.receiver Signal.course 1 x ∧
      (SearchMethod.develop 1 ∅ : Deliberation MultiObserver Binary64 Session Unit) x = .ok ⟨⟩ y ∧
      Covers Signal.receiver (Signal.given Signal.flag) y ∧
      ∃ nodes t, (locateAll Signal.game Signal.receiver (Signal.given Signal.flag) :
          Deliberation MultiObserver Binary64 Session (ByRole NodeId)) y = .ok nodes t ∧
        (∀ role : Role, role ∈ nodes ↔ role ∈ Signal.game.roles ∧ role ≠ chance) ∧
        ∀ (role : Role) id, nodes[role]? = some id → Holds t role 1 (Signal.given Signal.flag) id := by
  let u : Upkeep := ⟨Signal.game, fun _ => True, Signal.answers, True, False⟩
  let before : Hosted (TreeAgent MultiObserver Binary64 Session) Session := ⟨Signal.replier Binary64, .ofSeed 0⟩
  have hsource : before.own.seat.source ⟨"signal"⟩ = .ok (some u.game) := rfl
  obtain ⟨x, hprepare⟩ := @prepare_yields Binary64 _ u Signal.receiver before _ _ rfl _ ⟨0, 0, 0⟩ ⟨0, 0, 0⟩
    hsource trivial (by decide) (by decide)
  have hstep := Signal.played 0 (by decide)
  have hrun : Run Signal.game Signal.receiver Signal.course 1 x := .watch (.prepare rfl hsource hprepare) rfl hstep
  have hview : Signal.game.view? (Signal.given Signal.flag) Signal.receiver = .ok ∅ := rfl
  obtain ⟨root, hat, -, -⟩ :=
    At.prepare rfl hsource trivial (fun m s => s = Signal.course.state m) (fun _ hs => hs) hprepare
  let p := firstPlace u.game Signal.receiver
  have hbegins : p.Trails u 0 Signal.silent := Place.trails_of_mem rfl (StateSet.mem_singleton.2 rfl) rfl
  have htrails : p.Trails u 1 (Signal.course.state 1) := hbegins.step hstep
  have hfew : ∀ t, p.ahead u 1 t → t ∈ [Signal.given Signal.flag, Signal.given Signal.lamp] := by
    rintro t ⟨s, hs, step, hstep, rfl, -⟩
    cases StateSet.mem_singleton.1 hs
    exact List.mem_pair.2 (Signal.cases_of_silent hstep)
  have hcontrol : ∀ t ∈ [Signal.given Signal.flag, Signal.given Signal.lamp], u.game.viewOf t Signal.receiver = ∅ →
      t.isInControl Signal.receiver = true := by
    intro t ht _
    rcases List.mem_pair.1 ht with rfl | rfl <;> rfl
  obtain ⟨y, k, q, hdevelop, hat', hcomplete, -⟩ :=
    hat.develop_complete htrails trivial trivial not_false (by decide) rfl rfl hfew (by decide) hcontrol
  have hcovers := hat'.covers hcomplete (Signal.course.state 1)
  obtain ⟨-, hlocates, -⟩ :=
    Run.holds_play Signal.answers trivial rfl hrun hview (by decide) hdevelop hcovers (.simulates .refl)
  exact ⟨x, y, hrun, hdevelop, hcovers, hlocates⟩

end MultiObserver

end GameSearch
