import GameSearch.Proofs.Agent.Deliberation
import GameSearch.Proofs.Agent.Lockstep
import GameSearch.Proofs.Belief.Tracking

/-!
# A belief about the present ply

`Place.Plausible` says of a root that its worlds are states in which a play can be; that is all that an
agent needs of it to find a node for the present ply.  The worlds of such a node are `Place.Current`: they
cannot be told from the state of the play.  So the turns out of any world of it are made of moves that are
legal in that state, and there is one as soon as a world is expanded.
-/

namespace GameSearch

namespace Game

variable {game : Game} {states : State → Prop} {role : Role} {s t : State} {n : Nat}

lemma ToMove.arguments (h : game.ToMove role s) : (controlOf role).arguments? = .ok [role] := by
  obtain ⟨control, hcontrol, hrole⟩ := h.control
  obtain ⟨fact, hfact, harguments⟩ := (State.mem_control?_iff hcontrol).1 hrole
  rwa [Term.eq_controlOf (of_decide_eq_true (List.mem_filter.1 hfact).2) harguments] at harguments

lemma ToMove.isInControl (h : game.ToMove role s) : s.isInControl role = true := by
  obtain ⟨control, hcontrol, hrole⟩ := h.control
  exact State.isInControl_of_mem_control? hcontrol hrole

/-- A role that is to move knows that it is. -/
lemma ToMove.congr (h : game.ToMove role s) (hgame : game.AnswersOn states) (hstart : states game.start)
    (hdiscerned : game.Discerned role) (hs : game.After n game.start s) (ht : game.After n game.start t)
    (hview : game.viewOf t role = game.viewOf s role) : game.ToMove role t := by
  have hterminal : game.isTerminal t = .ok false := (hdiscerned.isTerminal n t s ht hs hview).trans h.ongoing
  obtain ⟨control, -, hcontrol, -⟩ :=
    exists_legal_of_successors? (hgame.successors? (hgame.after hstart ht)) hterminal
  refine ⟨hterminal, control, hcontrol, State.mem_control?_of_isInControl hcontrol ?_ h.arguments⟩
  exact (hdiscerned.isInControl n t s ht hs hview).trans h.isInControl

/-- The move that a role makes in a transition is legal. -/
theorem ToMove.exists_legal (h : game.ToMove role s) (hgame : game.AnswersOn states) (hs : states s)
    {step : Turn × State} (hstep : step ∈ game.transitions s) :
    ∃ move, step.1.find? role = some move ∧ game.isLegal? s role move = .ok true := by
  obtain ⟨control, hcontrol, hrole⟩ := h.control
  obtain ⟨control', legal, hreferee⟩ :=
    @MultiObserver.exists_refereed ⟨game, states, hgame, True, False⟩ s hs h.ongoing
  rw [hreferee.asked, Except.ok.injEq] at hcontrol
  subst hcontrol
  obtain ⟨move, hmove, hfind⟩ := hreferee.find? hstep hrole
  have hmoves : game.legal s = .ok legal := hreferee.moves
  refine ⟨move, hfind, ?_⟩
  simp [isLegal?, moves?, hmoves, hmove, bind, Except.bind, pure, Except.pure]

end Game

namespace Place

variable {u : Upkeep} {role : Role} {n : Nat} {view : View} {p p' q q' c : Place} {s t : State}

/-- A root of an agent, for the present ply or an earlier one. -/
structure Plausible (u : Upkeep) (role : Role) (n : Nat) (p : Place) : Prop where
  owner : p.role = role
  depth : p.depth ≤ n
  worlds : ∀ s ∈ p.belief.worlds, u.game.After p.depth u.game.start s
  fresh : p.depth = n → p.move = none ∧ p.Shows u

/-- A place for the present ply, at which its owner has a view. -/
structure Current (u : Upkeep) (role : Role) (n : Nat) (view : View) (q : Place) : Prop where
  owner : q.role = role
  depth : q.depth = n
  move : q.move = none
  worlds : ∀ s ∈ q.belief.worlds, u.game.After n u.game.start s ∧ u.game.viewOf s role = view

lemma plausible_firstPlace : (Arena.firstPlace u.game role).Plausible u role 0 := by
  have hmem : ∀ s ∈ (Arena.firstPlace u.game role).belief.worlds, s = u.game.start :=
    fun s hs => StateSet.mem_singleton.1 hs
  refine ⟨rfl, Nat.le_refl 0, fun s hs => (hmem s hs).symm, fun _ => ⟨rfl, fun s hs => ?_⟩⟩
  rw [hmem s hs]
  rfl

lemma Plausible.later (h : p.Plausible u role n) : p.Plausible u role (n + 1) :=
  ⟨h.owner, Nat.le_succ_of_le h.depth, h.worlds, fun heq => absurd h.depth (by omega)⟩

lemma Plausible.detached (h : p.Plausible u role n) : p.detached.Plausible u role n :=
  ⟨h.owner, h.depth, h.worlds, h.fresh⟩

/-- The worlds of a node that was found cannot be told from the state of the play. -/
theorem Plausible.current (h : p.Plausible u role n) (hknown : p.Known u)
    (hmeets : p.Meets u n view (p.observedUpTo n view) q)
    (hlimited : (q.recording (p.observedUpTo n view)).Limited q') (howner : q'.role = p.role)
    (hdepth : (q'.depth : Int) = n) : q'.detached.Current u role n view := by
  refine ⟨howner.trans h.owner, Int.ofNat.inj hdepth, hlimited.move.trans
    (hmeets.move fun hsame => (h.fresh (Int.ofNat.inj hsame)).1),
    fun s hs => ?_⟩
  have hin : s ∈ q.belief.worlds := hlimited.worlds s hs
  rcases hmeets.found with hfound | hfound | ⟨hsame, hview, rfl⟩
  · obtain ⟨hahead, hsees⟩ := hfound.wanted s hin
    have hafter := after_ahead h.worlds hahead
    rw [show p.depth + ((n : Int) - p.depth).toNat = n by have := h.depth; omega] at hafter
    exact ⟨hafter, h.owner ▸ hsees⟩
  · exact after_of_recalled hknown h.depth h.owner (hfound.recalled s hin)
  · have hsame : q.depth = n := Int.ofNat.inj hsame
    refine ⟨hsame ▸ h.worlds s hin, ?_⟩
    have hstanding := (h.fresh hsame).2 s hin
    rw [Belief.view?, hstanding, Node.standingOf, h.owner] at hview
    cases hcontrol : s.isInControl role with
    | false => simp [hcontrol] at hview
    | true => simpa [hcontrol] using hview

lemma Current.congr (h : p.Current u role n view) (halike : p.Alike q) : q.Current u role n view :=
  ⟨halike.role.trans h.owner, halike.depth.trans h.depth, halike.move.trans h.move, by
    rw [halike.worlds]
    exact h.worlds⟩

/-- The root of an agent after it was committed to a move. -/
theorem Current.committed {T : Forest} {id k : NodeId} {move : Move} (h : p.Current u role n view)
    (htrimmed : (p.committed move).Trimmed q) (hsound : q.Sound u T id) (hc : T k = some c)
    (hcases : c = q ∨ q.SoleChild k) : c.Plausible u role (n + 1) := by
  have hworlds : ∀ s ∈ q.belief.worlds, u.game.After n u.game.start s := fun s hs =>
    (h.worlds s (htrimmed.alike.worlds ▸ hs)).1
  have hrole : q.role = role := htrimmed.alike.role.trans h.owner
  have hdepth : q.depth = n := htrimmed.alike.depth.trans h.depth
  rcases hcases with rfl | hsole
  · exact ⟨hrole, by omega, hdepth.symm ▸ hworlds, fun heq => by omega⟩
  · obtain ⟨e, he⟩ := List.exists_mem_of_ne_nil _ hsole.nonempty
    obtain ⟨c', hc', hof⟩ := hsound.child e he
    rw [hsole.child e he, hc, Option.some.injEq] at hc'
    subst hc'
    have hnext : c.depth = n + 1 := by rw [hof.depth, hdepth]
    refine ⟨hof.role.trans hrole, by omega, fun s hs => ?_, fun _ => ⟨hof.move, hsound.shows he hof⟩⟩
    obtain ⟨x, hx, -, rfl⟩ := (hof.worlds s).1 hs
    obtain ⟨w, hw, -, hstep, -⟩ := hsound.edge hx
    rw [hnext]
    exact Game.after_succ.2 ⟨w, hworlds w (hsound.expanded w hw), _, hstep, rfl⟩

/-! ## Moves -/

/-- A world cannot be told from the state of the play, and so the role is to move there. -/
lemma Current.toMove (h : q.Current u role n view) (hstart : u.states u.game.start)
    (hdiscerned : u.game.Discerned role) (hmove : u.game.ToMove role s) (hs : u.game.After n u.game.start s)
    (hview : u.game.viewOf s role = view) {w : State} (hw : w ∈ q.belief.worlds) : u.game.ToMove role w :=
  hmove.congr u.answers hstart hdiscerned hs (h.worlds w hw).1 ((h.worlds w hw).2.trans hview.symm)

/-- A node for the present ply, a world of which is expanded, offers legal moves. -/
theorem Current.offers {R : Type} {a : Arena R} {root : NodeId} (h : q.Current u role n view)
    (hstart : u.states u.game.start) (hsteady : u.steady) (hdiscerned : u.game.Discerned role)
    (hmove : u.game.ToMove role s) (hs : u.game.After n u.game.start s)
    (hview : u.game.viewOf s role = view) (hq : a.place? root = some q)
    (hsound : q.Sound u a.place? root) (hbegun : q.Begun) :
    a.Offers root role fun move => u.game.isLegal? s role move = .ok true := by
  have hstates : ∀ {w}, w ∈ q.belief.worlds → u.states w := fun hw =>
    u.answers.after hstart (h.worlds _ hw).1
  obtain ⟨w, hexpanded⟩ := hbegun
  have hw : w ∈ q.belief.worlds := hsound.expanded w hexpanded
  have hout : ∀ step ∈ u.game.transitions w, step ∈ q.out w := fun step hstep => by
    rw [(hsound.out w).resolve_right fun hwavers => hwavers.1.1 hsteady, List.mem_filter, mem_done]
    exact ⟨⟨hexpanded, hstep⟩, by rw [accepts, h.move]⟩
  obtain ⟨edges, hedges⟩ : ∃ edges, q.edges = some edges := by
    rw [← Option.ne_none_iff_exists']
    exact fun hnone => hsound.pristine hnone w hexpanded
  refine ⟨⟨edges, Arena.edges?_of_place? hq hedges⟩, ?_, ?_, ?_⟩ <;> rw [Arena.edgesOf_of_place? hq]
  · obtain ⟨step, hstep⟩ := Game.exists_transition (u.answers.successors? (hstates hw))
      (h.toMove hstart hdiscerned hmove hs hview hw).ongoing
    obtain ⟨e, he, -⟩ := mem_out.1 (hout step hstep)
    exact List.ne_nil_of_mem he
  · intro e he
    obtain ⟨c, hc, -⟩ := hsound.child e he
    obtain ⟨v, hv⟩ := Arena.find?_of_place? hc
    exact ⟨_, hv⟩
  · intro e he
    obtain ⟨w, hexpanded, hkey, hstep, -⟩ := hsound.edge he
    have hw : w ∈ q.belief.worlds := hsound.expanded w hexpanded
    obtain ⟨move, hfind, hlegal⟩ := (h.toMove hstart hdiscerned hmove hs hview hw).exists_legal u.answers
      (hstates hw) hstep
    refine ⟨move, ?_, ?_⟩
    · rw [hkey, keyOf, h.owner]
      split
      · rw [Turn.find?_restrict]
        exact hfind
      · exact hfind
    · rw [← hlegal]
      exact hdiscerned.isLegal n s w move hs (h.worlds w hw).1 (hview.trans (h.worlds w hw).2.symm)

end Place

end GameSearch
