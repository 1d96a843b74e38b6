import GameSearch.Proofs.Enumeration
import GameSearch.Proofs.Perfect.Chart

/-!
# Following a play with perfect information

For a later ply a node of perfect information is developed along the first development that agrees with
what is known at it: through its subtree as far as that goes, and then through new nodes.  The node that is
found stands for the state in which the development ends.
-/

namespace GameSearch

namespace Node

variable {R : Type} {n m c : Node R} {s t : State} {plies : Nat}

/-- A belief in the state alone, with the same commitment. -/
def asPlace (n : Node R) (s : State) : Place where
  parent := n.parent
  depth := n.depth
  role := n.role
  belief := {
    worlds := {s}
    isComplete := true
    standing := .visible none
    nonempty := StateSet.isEmpty_singleton s }
  move := n.move

/-- A node of the same owner, for a state some plies later. -/
structure Later (n : Node R) (plies : Nat) (t : State) (m : Node R) : Prop where
  role : m.role = n.role
  depth : m.depth = n.depth + plies
  knows : m.Knows t
  move : 0 < plies ∨ n.move = none → m.move = none

lemma Later.above (h : c.Later plies t m) (hdepth : c.depth = n.depth + 1) (hrole : c.role = n.role)
    (hmove : c.move = none) : n.Later (plies + 1) t m :=
  ⟨h.role.trans hrole, by rw [h.depth, hdepth, Nat.add_assoc, Nat.add_comm 1], h.knows,
    fun _ => h.move (.inr hmove)⟩

end Node

namespace Arena

variable {R : Type} {u : Upkeep} {a a' : Arena R} {id : NodeId} {n : Node R} {s t : State} {turn : Turn}
  {e : Edge} {evidence : Evidence} {origins : List State} {ply : Int} {view : View} {step : Step}
  {rest : Development}

/-- The first development heads the list of them. -/
lemma firstDevelopment?_eq (horigins : u.game.origins? evidence = .ok origins)
    (hstates : ∀ s ∈ origins, u.states s) :
    firstDevelopment? u.game evidence = .ok (developments u evidence origins).head? := by
  refine (u.answers.foldDevelopments horigins hstates _ _).trans ?_
  change Except.ok (Game.visitEach _ (developments u evidence origins) none).value = _
  cases developments u evidence origins <;> rfl

lemma mem_of_edgeFor? (hn : a.find? id = some n) (h : a.edgeFor? id turn = some e) :
    e ∈ n.edgeList ∧ e.turn = turn := by
  rw [edgeFor?, hn, Option.bind_some] at h
  cases hedges : n.edges with
  | none => simp [hedges] at h
  | some edges =>
    rw [hedges, Option.bind_some, turnIndex?, ← Array.find?_eq_bind_findIdx?_getElem?] at h
    refine ⟨?_, by simpa using Array.find?_some h⟩
    rw [Node.edgeList, hedges]
    exact Array.mem_toList_iff.2 (Array.mem_of_find?_eq_some h)

/-- Following a development leads to a node for the state in which it ends. -/
theorem followPerfect_yields (h : a.Charted u) (hn : a.find? id = some n) (hs : n.Knows step.state)
    (hfollows : u.game.Follows evidence ply (step :: rest)) (inTree : Bool) :
    ∃ k a' m t, followPerfect n.role id inTree n.depth (step :: rest) a = .ok k a' ∧ a'.Charted u ∧
      a'.find? k = some m ∧ n.Later rest.length t m ∧ (step :: rest).getLast?.map Step.state = some t := by
  induction rest generalizing a id n step ply inTree with
  | nil =>
    obtain ⟨-, hlast⟩ := Game.follows_singleton.1 hfollows
    obtain ⟨s, turn⟩ := step
    cases hlast
    exact ⟨id, a, n, s, rfl, h, hn, ⟨rfl, rfl, hs, fun hmove => hmove.resolve_left (Nat.lt_irrefl 0)⟩, rfl⟩
  | cons next rest ih =>
    obtain ⟨-, ⟨turn, hturn, hstep, -⟩, hfollows'⟩ := Game.follows_cons_cons.1 hfollows
    obtain ⟨s, _⟩ := step
    cases hturn
    obtain ⟨s', hs', hstate⟩ := h.known id n hn
    cases hs.unique hs'
    rw [followPerfect, Action.bind_of_ok (Action.get_run a)]
    cases hedge : if inTree then a.edgeFor? id turn else none with
    | some e =>
      obtain ⟨he, rfl⟩ := mem_of_edgeFor? hn (Option.ite_none_right_eq_some.1 hedge).2
      have hfits := h.fits id n hn
      obtain ⟨c, hc, halike⟩ := hfits.child e he
      have hnext : e.next = next.state :=
        u.answers.next_unique hstate (hfits.mem_transitions hs he) hstep
      obtain ⟨k, a', m, t, hrun, hcharted, hm, hm', hlast⟩ :=
        ih h hc (halike.knows ⟨some e.turn, by rw [hnext]; rfl⟩) hfollows' true
      refine ⟨k, a', m, t, ?_, hcharted, hm, hm'.above halike.depth halike.role halike.move, hlast⟩
      rw [halike.role, halike.depth] at hrun
      exact hrun
    | none =>
      -- The play has left the tree, so the rest of its nodes are new.
      let c : Node R := ⟨none, n.depth + 1, n.role, .perfect next.state (some turn), none, none, none⟩
      have hc : c.Knows next.state := ⟨some turn, rfl⟩
      obtain ⟨k₁, a₁, hadd, -, hcharted₁, hc₁, -⟩ := h.add hc (u.answers.closed s hstate _ hstep) rfl
      obtain ⟨k, a', m, t, hrun, hcharted, hm, hm', hlast⟩ := ih hcharted₁ hc₁ hc hfollows' false
      have hnode := Node.perfect?_yields (R := R) none (Int.natCast_nonneg (n.depth + 1)) n.role next.state
        (some turn)
      have hadd' : add (Node.perfect? none ((n.depth : Int) + 1) n.role next.state (some turn)) a =
          .ok k₁ a₁ := by
        rw [← hadd]
        exact congrArg (fun n => add n a) hnode
      exact ⟨k, a', m, t, (Action.bind_of_ok hadd').trans hrun, hcharted, hm, hm'.above rfl rfl rfl, hlast⟩

/-- What developing a node for its own ply comes to. -/
lemma developPerfect_here (view : View) (h : a.Charted u) (hn : a.find? id = some n) (hs : n.Knows s) :
    (∃ a', developPerfect u.game id n.depth view a = .ok id a' ∧ a'.Charted u ∧ a'.find? id = some n ∧
        u.game.viewOf s n.role = view) ∨
      ∃ f, developPerfect u.game id n.depth view a = .error f a ∧ u.game.viewOf s n.role ≠ view := by
  obtain ⟨s', hs', hstate⟩ := h.known id n hn
  cases hs.unique hs'
  unfold developPerfect
  rw [Action.bind_of_ok (Action.get_run a), Action.bind_of_ok (Action.lift_of_ok (state?_of_knows hn hs) a),
    Action.bind_of_ok (node_of_find? hn), if_neg (Int.lt_irrefl _), if_pos rfl]
  have hview? := Action.lift_of_ok (u.answers.view? hstate n.role) a
  by_cases hview : u.game.viewOf s n.role = view
  · obtain ⟨a', hrun, hcharted, hfind⟩ := h.trimPerfect hn
    refine .inl ⟨a', (Action.bind_of_ok hview?).trans ?_, hcharted, (hfind id).trans hn, hview⟩
    rw [if_neg (not_not.2 hview)]
    exact Action.bind_of_ok hrun
  · refine .inr ⟨.viewContradictsState view.text s.text n.depth, (Action.bind_of_ok hview?).trans ?_, hview⟩
    rw [if_pos hview]
    rfl

/-- A node is developed for a later ply by following the first development. -/
lemma developPerfect_later {found : Option Development} (hn : a.find? id = some n) (hs : n.Knows s)
    (hply : (n.depth : Int) < ply)
    (hfound : firstDevelopment? u.game ((n.asPlace s).evidence ply view) = .ok found) :
    developPerfect u.game id ply view a = found.elim (throw (.noDevelopmentFromPly n.depth view.text ply))
      (followPerfect n.role id true n.depth) a := by
  unfold developPerfect
  rw [Action.bind_of_ok (Action.get_run a), Action.bind_of_ok (Action.lift_of_ok (state?_of_knows hn hs) a),
    Action.bind_of_ok (node_of_find? hn), if_neg (by omega), if_neg (by omega)]
  refine (Action.bind_of_ok (Action.lift_of_ok hfound a)).trans ?_
  cases found <;> rfl

section

variable (hply : (n.depth : Int) < ply) (hle : ply ≤ 2147483647)
include hply hle

/-- The first development from a node for a later ply heads the list of them. -/
lemma firstDevelopment?_asPlace (hstate : u.states s) :
    firstDevelopment? u.game ((n.asPlace s).evidence ply view) =
      .ok (developments u ((n.asPlace s).evidence ply view) (n.asPlace s).belief.worlds.toList).head? := by
  have hdepth : ((n.asPlace s).depth : Int) ≠ 2147483647 := by
    change (n.depth : Int) ≠ _
    omega
  refine firstDevelopment?_eq (Place.evidence_origins hply hdepth) fun w hw => ?_
  rw [StateSet.mem_singleton.1 (Std.ExtTreeSet.mem_toList.1 hw)]
  exact hstate

/-- The developments from a node for a later ply begin in its state. -/
lemma follows_of_mem_developments {d : Development}
    (hd : d ∈ developments u ((n.asPlace s).evidence ply view) (n.asPlace s).belief.worlds.toList) :
    ∃ step rest, d = step :: rest ∧ rest.length = (ply - n.depth).toNat ∧ step.state = s ∧
      u.game.Follows ((n.asPlace s).evidence ply view) n.depth (step :: rest) := by
  have hdepth : ((n.asPlace s).depth : Int) ≠ 2147483647 := by
    change (n.depth : Int) ≠ _
    omega
  obtain ⟨w, hw, hfrom⟩ := List.mem_flatMap.1 hd
  obtain ⟨step, rest, rfl, hlength, hstep, hfollows⟩ := Game.mem_developmentsFrom.1 hfrom
  rw [StateSet.mem_singleton.1 (Std.ExtTreeSet.mem_toList.1 hw)] at hstep
  rw [Place.evidence_horizon hply, Place.evidence_offset hply hdepth] at hlength
  rw [Place.evidence_offset hply hdepth] at hfollows
  exact ⟨step, rest, rfl, hlength, hstep, hfollows⟩

/-- What developing a node for a later ply comes to. -/
lemma developPerfect_ahead (view : View) (h : a.Charted u) (hn : a.find? id = some n) (hs : n.Knows s) :
    (∃ k a' m t, developPerfect u.game id ply view a = .ok k a' ∧ a'.Charted u ∧ a'.find? k = some m ∧
        n.Later (ply - n.depth).toNat t m ∧ (n.asPlace s).wanted u ply view t) ∨
      ∃ f, developPerfect u.game id ply view a = .error f a ∧ ∀ t, ¬(n.asPlace s).wanted u ply view t := by
  obtain ⟨s', hs', hstate⟩ := h.known id n hn
  cases hs.unique hs'
  have hwanted : ∀ t, (n.asPlace s).wanted u ply view t ↔ ∃ d ∈ developments u ((n.asPlace s).evidence ply view)
      (n.asPlace s).belief.worlds.toList, d.getLast?.map Step.state = some t := fun t => by
    rw [← Place.ends_evidence hply (by change (n.depth : Int) ≠ _; omega) (.inr rfl), ends_iff]
  rw [developPerfect_later hn hs hply (firstDevelopment?_asPlace hply hle hstate)]
  cases hdevelopments : developments u ((n.asPlace s).evidence ply view) (n.asPlace s).belief.worlds.toList with
  | nil =>
    refine .inr ⟨_, rfl, fun t ht => ?_⟩
    obtain ⟨d, hd, -⟩ := (hwanted t).1 ht
    rw [hdevelopments] at hd
    cases hd
  | cons d ds =>
    have hd : d ∈ developments u ((n.asPlace s).evidence ply view) (n.asPlace s).belief.worlds.toList := by
      rw [hdevelopments]
      exact List.mem_cons_self
    obtain ⟨step, rest, rfl, hlength, hstep, hfollows⟩ := follows_of_mem_developments hply hle hd
    obtain ⟨k, a', m, t, hfollow, hcharted, hm, hlater', hlast⟩ :=
      followPerfect_yields h hn (hstep ▸ hs) hfollows true
    rw [hlength] at hlater'
    exact .inl ⟨k, a', m, t, hfollow, hcharted, hm, hlater', (hwanted t).2 ⟨_, hd, hlast⟩⟩

end

/-- What developing a node of perfect information comes to. -/
theorem developPerfect_cases (view : View) (h : a.Charted u) (hn : a.find? id = some n) (hs : n.Knows s)
    (hply : (n.depth : Int) ≤ ply) (hle : ply ≤ 2147483647) :
    (∃ k a' m t, developPerfect u.game id ply view a = .ok k a' ∧ a'.Charted u ∧ a'.find? k = some m ∧
        n.Later (ply - n.depth).toNat t m ∧ (n.asPlace s).wanted u ply view t) ∨
      ∃ f, developPerfect u.game id ply view a = .error f a ∧ ∀ t, ¬(n.asPlace s).wanted u ply view t := by
  rcases eq_or_lt_of_le hply with rfl | hlater
  · have hwanted : ∀ t, (n.asPlace s).wanted u n.depth view t ↔ s = t ∧ u.game.viewOf t n.role = view := by
      intro t
      simp [Place.wanted, Node.asPlace, Place.ahead]
    rcases developPerfect_here view h hn hs with ⟨a', hrun, hcharted, hself, hview⟩ | ⟨f, hrun, hview⟩
    · refine .inl ⟨id, a', n, s, hrun, hcharted, hself, ⟨rfl, by simp, hs, fun hmove => ?_⟩,
        (hwanted s).2 ⟨rfl, hview⟩⟩
      exact hmove.resolve_left (by simp)
    · refine .inr ⟨f, hrun, fun t ht => ?_⟩
      obtain ⟨rfl, hsees⟩ := (hwanted t).1 ht
      exact hview hsees
  · exact developPerfect_ahead hlater hle view h hn hs

end Arena

end GameSearch
