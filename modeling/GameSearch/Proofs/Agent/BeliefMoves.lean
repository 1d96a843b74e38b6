import GameSearch.Proofs.Agent.PresentBelief
import GameSearch.Proofs.Agent.SharedWorlds
import GameSearch.Proofs.Agent.SingleObserver

/-!
# The moves of agents with beliefs

Both agents that search in trees of beliefs keep a plausible root, and the first simulation expands a world
of it.  So they have legal moves to choose from whenever they are to move.
-/

namespace GameSearch

open TreeAgent

variable {R ε : Type} [Scalar R] [Host ε] {u : Upkeep} {role : Role} {n k : Nat} {s : State} {view : View}
  {root : NodeId} {p : Place}

/-! ## From one point of view -/

namespace SingleObserver

variable {x y z : Hosted (TreeAgent SingleObserver R ε) ε}

theorem settled : Settled SingleObserver R ε where
  plant := (keepsManner_gameAndRole _).bind fun _ => (keepsManner_lift _).bind fun _ =>
    (keepsManner_onArena _).bind fun _ => keepsManner_remember _
  develop _ _ := (keepsManner_memorized.bind fun _ => keepsManner_lift _).bind fun _ =>
    (keepsManner_onArena _).bind fun _ => keepsManner_read.bind fun _ => (keepsManner_lift _).bind fun _ =>
    (keepsManner_onTrees _).bind fun _ => (keepsManner_remember _).bind fun _ => keepsManner_onArena _
  step := keepsManner_read.bind fun _ => (keepsManner_lift _).bind fun _ =>
    (keepsManner_read.bind fun _ => keepsManner_pure _).bind fun _ =>
    (keepsManner_read.bind fun _ => keepsManner_pure _).bind fun _ =>
    (keepsManner_memorized.bind fun _ => keepsManner_lift _).bind fun _ => keepsManner_onTrees _
  commit _ := (keepsManner_memorized.bind fun _ => keepsManner_lift _).bind fun _ =>
    (keepsManner_onArena _).bind fun _ => (keepsManner_onArena _).bind fun _ =>
    (keepsManner_onArena _).bind fun _ => (keepsManner_lift _).bind fun _ =>
    (keepsManner_remember _).bind fun _ => keepsManner_onArena _

/-- Developing the tree to the view of the role leads to a node for the present ply. -/
lemma At.develop_current (h : At u x root p) (hp : p.Plausible u role n) (hstart : u.states u.game.start)
    (hforgets : ¬u.recalls) (hle : (n : Int) ≤ 2147483647)
    (hrun : (SearchMethod.develop n view : Deliberation SingleObserver R ε Unit) x = .ok ⟨⟩ y) :
    ∃ k q, At u y k q ∧ q.Current u role n view := by
  rcases h.develop_cases hstart (Int.ofNat_le.2 hp.depth) hle view fun hr => absurd hr hforgets with
    ⟨y', k, q, q', hrun', hat, hmeets, hlimited, howner, hdepth⟩ | ⟨y', f, hrun', -⟩
  · cases hrun.symm.trans hrun'
    exact ⟨k, _, hat, hp.current (h.rooted.sound.known root p h.rooted.place) hmeets hlimited howner hdepth⟩
  · cases hrun.symm.trans hrun'

/-- The root is plausible as long as the match goes on. -/
theorem exists_plausible_root (hstart : u.states u.game.start) (hforgets : ¬u.recalls)
    (hle : (n : Int) ≤ 2147483647) (h : Attends u.game role n s x) :
    ∃ root p, At u x root p ∧ p.Plausible u role n := by
  refine h.keeps (I := fun n x => ∃ root p, At u x root p ∧ p.Plausible u role n) ?_ ?_ ?_ ?_ hle
  · intro ruleset startClock playClock x y _ hsource hprepare
    obtain ⟨y', root, hrun, hat⟩ := At.prepare role _ _ hsource hstart
    cases hprepare.symm.trans hrun
    exact ⟨root, _, hat, Place.plausible_firstPlace⟩
  · rintro n x y ⟨root, p, hat, hp⟩ hxy
    exact ⟨root, p, hat.undisturbed hxy, hp⟩
  · rintro n x ⟨root, p, hat, hp⟩
    exact ⟨root, p, hat, hp.later⟩
  · rintro n k s move x y y' z - hle ⟨root, p, hat, hp⟩ view - hdevelop hsimulates hcommit
    obtain ⟨k, q, hq, hcurrent⟩ := hat.develop_current hp hstart hforgets hle hdevelop
    obtain ⟨q', hq', halike, -⟩ := hq.simulates hsimulates
    have hcurrent' := hcurrent.congr halike
    obtain ⟨z', r, k', c, T, hrun, hat', htrimmed, hsound, hc, hcases⟩ := hq'.commit move (.inl hcurrent'.move)
    cases hcommit.symm.trans hrun
    exact ⟨k', _, hat', (hcurrent'.committed htrimmed hsound hc hcases).detached⟩

/-- Simulations at a ply at which the role is to move leave legal moves to choose from. -/
lemma At.deciding (h : At u x root p) (hcurrent : p.Current u role n view) (hstart : u.states u.game.start)
    (hsteady : u.steady) (hdiscerned : u.game.Discerned role) (hmove : u.game.ToMove role s)
    (hs : u.game.After n u.game.start s) (hview : u.game.viewOf s role = view) (hx : Seated u.game role x)
    (hsimulates : Simulates (k + 1) x y) :
    ∃ id, Deciding u.game role (fun move => u.game.isLegal? s role move = .ok true) id y := by
  obtain ⟨q, hq, halike, hbegun⟩ := h.simulates hsimulates
  have hcurrent' := hcurrent.congr halike
  refine ⟨root, hsimulates.seated settled.step hx, hq.root_run, ?_, fun move y' hy' => ?_⟩
  · exact hcurrent'.offers hstart hsteady hdiscerned hmove hs hview hq.rooted.place
      (hq.rooted.sound.kept root q hq.rooted.place (by simp)) (hbegun (Nat.succ_pos k))
  · obtain ⟨z, -, -, -, -, hcommitted, -⟩ := (hq.undisturbed hy').commit move (.inl hcurrent'.move)
    exact ⟨z, hcommitted⟩

/-- The agent answers with a legal move whenever its role is to move. -/
theorem dependable (hstart : u.states u.game.start) (hsteady : u.steady) (hforgets : ¬u.recalls)
    (hdiscerned : u.game.Discerned role) (hmove : u.game.ToMove role s)
    (hview : u.game.viewOf s role = view) (hle : (n : Int) ≤ 2147483647) (h : Attends u.game role n s x) :
    Dependable u.game role n s view x := by
  obtain ⟨root, p, hat, hp⟩ := exists_plausible_root hstart hforgets hle h
  have hseated := h.seated settled
  refine dependable_of_deciding hseated (fun move => hview ▸ hdiscerned.view n s move h.after) ?_
  rintro k z ⟨x', y, hx', hdevelop, hsimulates⟩
  obtain ⟨k', q, hq, hcurrent⟩ := (hat.undisturbed hx').develop_current hp hstart hforgets hle hdevelop
  have hy := (hseated.undisturbed hx').keep (settled.develop n view) hdevelop
  exact hq.deciding hcurrent hstart hsteady hdiscerned hmove h.after hview hy hsimulates

end SingleObserver

/-! ## From every point of view -/

namespace MultiObserver

variable {x y z : Hosted (TreeAgent MultiObserver R ε) ε}

/-- Developing the trees to the view of the role leads to a node for the present ply. -/
lemma At.develop_current (h : At u role (fun _ _ => False) x root p) (hp : p.Plausible u role n)
    (hstart : u.states u.game.start) (hforgets : ¬u.recalls) (hle : (n : Int) ≤ 2147483647)
    (hrun : (SearchMethod.develop n view : Deliberation MultiObserver R ε Unit) x = .ok ⟨⟩ y) :
    ∃ k q, At u role (fun _ _ => False) y k q ∧ q.Current u role n view := by
  obtain ⟨k, q, q', -, hdeveloped⟩ := h.develop hstart hle hforgets hrun
  have hat : At u role (fun _ _ => False) y k q'.detached :=
    hdeveloped.keeps root _ h fun _ hfalse => hfalse.elim
  obtain ⟨q'', hroot⟩ := hat.grove.root role k hat.planted
  cases hat.place.symm.trans hroot.place
  exact ⟨k, _, hat, hp.current (h.grove.sound.known root p h.place) hdeveloped.meets hdeveloped.limited
    (hroot.owner.trans hp.owner.symm) hdeveloped.level⟩

/-- The agent's own root is plausible as long as the match goes on. -/
theorem exists_plausible_root (hstart : u.states u.game.start) (hforgets : ¬u.recalls)
    (harguments : (controlOf role).arguments? = .ok [role]) (hle : (n : Int) ≤ 2147483647)
    (h : Attends u.game role n s x) :
    ∃ root p, At u role (fun _ _ => False) x root p ∧ p.Plausible u role n := by
  refine h.keeps (I := fun n x => ∃ root p, At u role (fun _ _ => False) x root p ∧ p.Plausible u role n)
    ?_ ?_ ?_ ?_ hle
  · intro ruleset startClock playClock x y hmemory hsource hprepare
    obtain ⟨root, hat, -, -⟩ :=
      At.prepare hmemory hsource hstart (fun _ _ => False) (fun _ => False.elim) hprepare
    exact ⟨root, _, hat, Place.plausible_firstPlace⟩
  · rintro n x y ⟨root, p, hat, hp⟩ hxy
    exact ⟨root, p, hat.undisturbed hxy, hp⟩
  · rintro n x ⟨root, p, hat, hp⟩
    exact ⟨root, p, hat, hp.later⟩
  · rintro n k s move x y y' z - hle ⟨root, p, hat, hp⟩ view - hdevelop hsimulates hcommit
    obtain ⟨k, q, hq, hcurrent⟩ := hat.develop_current hp hstart hforgets hle hdevelop
    have hdepth : q.depth ≤ 2147483647 := by
      rw [hcurrent.depth]
      omega
    obtain ⟨q', hq', halike, -, -⟩ := hq.simulates hdepth harguments hsimulates
    have hcurrent' := hcurrent.congr halike
    have hpermitted : q'.move = none ∨ q'.move = some move ∨ ¬u.steady := .inl hcurrent'.move
    obtain ⟨z', r, k', c, T, hrun, hat', htrimmed, hsound, hc, hcases, -⟩ := hq'.commit hpermitted
    cases hcommit.symm.trans hrun
    exact ⟨k', _, hat', (hcurrent'.committed htrimmed hsound hc hcases).detached⟩

/-- Simulations at a ply at which the role is to move leave legal moves to choose from. -/
lemma At.deciding (h : At u role (fun _ _ => False) x root p) (hcurrent : p.Current u role n view)
    (hstart : u.states u.game.start) (hsteady : u.steady) (hdiscerned : u.game.Discerned role)
    (hmove : u.game.ToMove role s) (hs : u.game.After n u.game.start s)
    (hview : u.game.viewOf s role = view) (hle : (n : Int) ≤ 2147483647) (hsimulates : Simulates (k + 1) x y) :
    ∃ id, Deciding u.game role (fun move => u.game.isLegal? s role move = .ok true) id y := by
  have hdepth : p.depth ≤ 2147483647 := by
    rw [hcurrent.depth]
    omega
  obtain ⟨q, hq, halike, hbegun, -⟩ := h.simulates hdepth hmove.arguments hsimulates
  have hcurrent' := hcurrent.congr halike
  have hnode : (ownRoot : Deliberation MultiObserver R ε NodeId) y = .ok root y := by
    unfold ownRoot
    rw [Action.bind_of_ok Hosted.read_run, Action.bind_of_ok (Action.lift_of_ok hq.role? y),
      Action.bind_of_ok memorized_run, Action.lift_of_ok hq.root? y]
  refine ⟨root, ⟨hq.game, hq.seated⟩, hnode, ?_, fun move y' hy' => ?_⟩
  · exact hcurrent'.offers hstart hsteady hdiscerned hmove hs hview hq.place
      (hq.grove.sound.kept root q hq.place (by simp)) (hbegun (Nat.succ_pos k))
  · have hpermitted : q.move = none ∨ q.move = some move ∨ ¬u.steady := .inl hcurrent'.move
    obtain ⟨z, -, -, -, -, hcommitted, -⟩ := (hq.undisturbed hy').commit hpermitted
    exact ⟨z, hcommitted⟩

/-- The agent answers with a legal move whenever its role is to move. -/
theorem dependable (hstart : u.states u.game.start) (hsteady : u.steady) (hforgets : ¬u.recalls)
    (hdiscerned : u.game.Discerned role) (hmove : u.game.ToMove role s)
    (hview : u.game.viewOf s role = view) (hle : (n : Int) ≤ 2147483647) (h : Attends u.game role n s x) :
    Dependable u.game role n s view x := by
  obtain ⟨root, p, hat, hp⟩ := exists_plausible_root hstart hforgets hmove.arguments hle h
  refine dependable_of_deciding ⟨hat.game, hat.seated⟩ (fun move => hview ▸ hdiscerned.view n s move h.after) ?_
  rintro k z ⟨x', y, hx', hdevelop, hsimulates⟩
  obtain ⟨k', q, hq, hcurrent⟩ := (hat.undisturbed hx').develop_current hp hstart hforgets hle hdevelop
  exact hq.deciding hcurrent hstart hsteady hdiscerned hmove h.after hview hle hsimulates

end MultiObserver

end GameSearch
