import GameSearch.Proofs.Perfect.Following

/-!
# Retracing a play in a tree of perfect information

A node keeps track of a play if the play can have gone on from its state, by the committed move first.  Then
it can be developed for the present ply, and if the owner sees the whole state, what is found stands for the
present state.  A development whose nodes have all been expanded is retraced without a new node.
-/

namespace GameSearch

namespace Node

variable {R : Type} {u : Upkeep} {role : Role} {plies : Nat} {n m c : Node R} {s t s' : State} {step : Turn × State}

/-- What is known of a play for which a node is developed: it was in the state of the node, went on by the
committed move, and came to a view of the owner. -/
def outlook (n : Node R) (s : State) (ply : Int) (view : View) : Evidence :=
  let e := ((∅ : Evidence).withStates n.depth {s}).withView ply n.role view
  match n.move with
  | some move => e.withTurn n.depth (.single n.role move)
  | none => e

lemma accepts_asPlace (turn : Turn) : (n.asPlace s).accepts turn = n.accepts turn := by
  unfold Place.accepts accepts
  cases hmove : n.move <;> simp [asPlace, hmove, Belief.isVisible]

/-- A node of a role for a state from which a play has come to the present state at the given ply. -/
structure Tracks (u : Upkeep) (role : Role) (plies : Nat) (s : State) (t : State) (n : Node R) : Prop where
  owner : n.role = role
  depth : n.depth ≤ plies
  ahead : (n.asPlace t).ahead u (plies - n.depth) s
  fresh : n.depth = plies → n.move = none

lemma Tracks.wanted (h : n.Tracks u role plies s t) : (n.asPlace t).wanted u plies (u.game.viewOf s role) s := by
  have hplies : ((plies : Int) - (n.asPlace t).depth).toNat = plies - n.depth := by
    have : (n.asPlace t).depth = n.depth := rfl
    have := h.depth
    omega
  refine ⟨hplies ▸ h.ahead, ?_⟩
  rw [← h.owner]
  rfl

/-- A node for the present ply that keeps track of the play stands for the present state. -/
lemma Tracks.present (h : n.Tracks u role plies s t) (hdepth : n.depth = plies) : s = t := by
  have hahead := h.ahead
  rw [hdepth, Nat.sub_self] at hahead
  exact StateSet.mem_singleton.1 hahead

/-- A node for the present ply keeps track of the play. -/
lemma tracks_present (howner : n.role = role) (hdepth : n.depth = plies) (hmove : n.move = none) :
    n.Tracks u role plies s s := by
  refine ⟨howner, hdepth.le, ?_, fun _ => hmove⟩
  rw [hdepth, Nat.sub_self]
  exact StateSet.mem_singleton.2 rfl

/-- A node keeps track of what is played, unless a committed move is not played. -/
lemma Tracks.later (h : n.Tracks u role plies s t) (hstep : step ∈ u.game.transitions s) :
    n.Tracks u role (plies + 1) step.2 t := by
  have hdepth := h.depth
  refine ⟨h.owner, Nat.le_succ_of_le hdepth, ?_, fun heq => by omega⟩
  rw [Nat.succ_sub hdepth]
  refine ⟨s, h.ahead, step, hstep, rfl, fun hzero => ?_⟩
  rw [accepts_asPlace]
  exact accepts_of_free (h.fresh (by omega)) _

/-- A node whose owner makes the committed move keeps track of the play. -/
lemma tracks_committed (howner : n.role = role) (hdepth : n.depth = plies) (hstep : step ∈ u.game.transitions s)
    (haccepts : n.accepts step.1 = true) : n.Tracks u role (plies + 1) step.2 s := by
  refine ⟨howner, by omega, ?_, fun heq => by omega⟩
  rw [hdepth, Nat.add_sub_cancel_left]
  refine ⟨s, StateSet.mem_singleton.2 rfl, step, hstep, rfl, fun _ => ?_⟩
  rw [accepts_asPlace]
  exact haccepts

end Node

namespace Arena

variable {R : Type} {u : Upkeep} {a a' : Arena R} {id k : NodeId} {n : Node R} {s : State} {turn : Turn}
  {evidence : Evidence} {ply : Int} {view : View} {step : Step} {d rest : Development}

/-- A development leads from one node to another one along edges of the tree. -/
inductive Passes (a : Arena R) : NodeId → Development → NodeId → Prop
  | last {id : NodeId} {step : Step} : Passes a id [step] id
  | next {id k : NodeId} {s : State} {turn : Turn} {step : Step} {rest : Development} {e : Edge} :
      a.edgeFor? id turn = some e → Passes a e.child (step :: rest) k →
      Passes a id (⟨s, some turn⟩ :: step :: rest) k

/-- The nodes through which a development leads before its last step have been expanded. -/
def ExpandedAlong (a : Arena R) : NodeId → Development → Prop
  | id, ⟨_, some turn⟩ :: step :: rest => (∃ n, a.find? id = some n ∧ n.edges ≠ none) ∧
      ∀ e, a.edgeFor? id turn = some e → a.ExpandedAlong e.child (step :: rest)
  | _, _ => True

lemma exists_edgeFor? (hn : a.find? id = some n) {e : Edge} (he : e ∈ n.edgeList) :
    ∃ e', a.edgeFor? id e.turn = some e' := by
  cases hedges : n.edges with
  | none => simp [Node.edgeList, hedges] at he
  | some edges =>
    have hin : e ∈ edges := by simpa [Node.edgeList, hedges] using he
    rw [edgeFor?, hn, Option.bind_some, hedges, Option.bind_some, turnIndex?,
      ← Array.find?_eq_bind_findIdx?_getElem?]
    refine Option.isSome_iff_exists.1 (Array.find?_isSome.2 ⟨e, hin, ?_⟩)
    simp

/-- Where a development leads through expanded nodes, it leads to a node of the tree. -/
theorem Charted.exists_passes (h : a.Charted u) (hn : a.find? id = some n) (hs : n.Knows step.state)
    (hfollows : u.game.Follows evidence ply (step :: rest))
    (haccepts : ∀ turn, turn.includes (evidence.turns.getD ply ∅) = true → n.accepts turn = true)
    (hexpanded : a.ExpandedAlong id (step :: rest)) :
    ∃ k m, a.Passes id (step :: rest) k ∧ a.find? k = some m := by
  induction rest generalizing id n step ply with
  | nil => exact ⟨id, n, .last, hn⟩
  | cons next rest ih =>
    obtain ⟨-, ⟨turn, hturn, hstep, hincludes⟩, hfollows'⟩ := Game.follows_cons_cons.1 hfollows
    obtain ⟨s, _⟩ := step
    cases hturn
    obtain ⟨⟨n', hn', hedges⟩, hbelow⟩ := hexpanded
    rw [hn, Option.some.injEq] at hn'
    subst hn'
    have hin : (turn, next.state) ∈ n.edgeList.map fun e => (e.turn, e.next) := by
      rw [(h.fits id n hn).out s hs hedges]
      exact List.mem_filter.2 ⟨hstep, haccepts turn hincludes⟩
    obtain ⟨e₀, he₀, heq⟩ := List.mem_map.1 hin
    obtain ⟨rfl, -⟩ := Prod.mk.inj heq
    obtain ⟨e, hedge⟩ := exists_edgeFor? hn he₀
    obtain ⟨he, hsame⟩ := mem_of_edgeFor? hn hedge
    obtain ⟨c, hc, halike⟩ := (h.fits id n hn).child e he
    obtain ⟨s', hs', hstate⟩ := h.known id n hn
    cases hs.unique hs'
    have hnext : e.next = next.state :=
      u.answers.next_unique hstate ((h.fits id n hn).mem_transitions hs he) (hsame ▸ hstep)
    obtain ⟨k, m, hpasses, hm⟩ := ih hc (halike.knows ⟨some e.turn, by rw [hnext]; rfl⟩) hfollows'
      (fun turn _ => Node.accepts_of_free halike.move turn) (hbelow e hedge)
    exact ⟨k, m, .next hedge hpasses, hm⟩

/-- A development that leads along edges is followed without any change. -/
theorem Passes.followPerfect (h : a.Passes id d k) (role : Role) (depth : Nat) :
    Arena.followPerfect role id true depth d a = .ok k a := by
  induction h generalizing depth with
  | @last id step =>
    obtain ⟨s, turn⟩ := step
    cases turn <;> rfl
  | next hedge _ ih =>
    rw [Arena.followPerfect, Action.bind_of_ok (Action.get_run a), if_pos rfl, hedge]
    exact ih (depth + 1)

/-- Where the first development for a later ply leads through expanded nodes, the node to which it leads is found
again. -/
theorem Charted.developPerfect_retraces (h : a.Charted u) (hn : a.find? id = some n) (hs : n.Knows s)
    (hply : (n.depth : Int) < ply) (hle : ply ≤ 2147483647)
    (hfirst : firstDevelopment? u.game (n.outlook s ply view) = .ok (some d)) (hexpanded : a.ExpandedAlong id d) :
    ∃ k m, developPerfect u.game id ply view a = .ok k a ∧ a.Passes id d k ∧ a.find? k = some m := by
  obtain ⟨s', hs', hstate⟩ := h.known id n hn
  cases hs.unique hs'
  have hd := List.mem_of_mem_head? (Except.ok.inj ((firstDevelopment?_asPlace hply hle hstate).symm.trans hfirst))
  obtain ⟨step, rest, rfl, -, hstep, hfollows⟩ := follows_of_mem_developments hply hle hd
  have haccepts : ∀ turn, turn.includes ((n.outlook s ply view).turns.getD n.depth ∅) = true →
      n.accepts turn = true := fun turn hincludes => by
    rw [← Node.accepts_asPlace (s := s)]
    exact Place.accepts_of_includes hincludes rfl
  obtain ⟨k, m, hpasses, hm⟩ := h.exists_passes hn (hstep ▸ hs) hfollows haccepts hexpanded
  refine ⟨k, m, ?_, hpasses, hm⟩
  rw [developPerfect_later hn hs hply hfirst]
  exact hpasses.followPerfect n.role n.depth

end Arena

end GameSearch
