import GameSearch.Chance.Twister
import GameSearch.Proofs.Belief.Representation

/-!
# The tree agrees with the developments

A tended tree whose root is committed to one move at most holds, for every later ply and every view,
just the states in which the developments from the worlds of a node end.  So it does not matter by
which way a node for the ply is found.
-/

namespace GameSearch

/-- The evidence that a play was in one of the worlds of a node, went on by the move that its owner
is committed to and came to a view of the owner. -/
def Node.evidence {R : Type} (n : Node R) (b : Belief) (ply : Int) (view : View) : Evidence :=
  let e := ((∅ : Evidence).withStates n.depth b.worlds).withView ply n.role view
  match n.move with
  | some move => e.withTurn n.depth (.single n.role move)
  | none => e

/-- The states in which some developments end. -/
def Game.finals (ds : List Development) : StateSet :=
  .ofList (ds.filterMap fun d => d.getLast?.map Step.state)

namespace Arena

variable {R ε : Type} [Dice ε] {u : Upkeep} {a : Arena R} {root id : NodeId} {p q q' : Place}
  {game : Game} {possible : State → Prop} {ply : Int} {view : View}

lemma mem_finals {ds : List Development} {t : State} :
    t ∈ Game.finals ds ↔ ∃ d ∈ ds, d.getLast?.map Step.state = some t := by
  rw [Game.finals, StateSet.mem_ofList, List.mem_filterMap]

/-- The developments from the worlds of a place end in the states that are wanted. -/
lemma developments?_evidence (hknown : p.Known u) (hbound : p.IsBound) (hply : (p.depth : Int) < ply)
    (hle : ply ≤ 2147483647) (view : View) :
    ∃ ds, u.game.developments? (p.evidence ply view) = .ok ds ∧
      ∀ t, t ∈ Game.finals ds ↔ p.wanted u ply view t := by
  have horigins : u.game.origins? (p.evidence ply view) = .ok p.belief.worlds.toList :=
    Place.evidence_origins hply (by omega)
  refine ⟨_, developments?_eq horigins fun s hs => hknown.worlds s (Std.ExtTreeSet.mem_toList.1 hs),
    fun t => ?_⟩
  rw [mem_finals, ← ends_iff, Place.ends_evidence hply (by omega) hbound]

/-- What a node is that was found for a later ply, compared with the states that it should hold. -/
structure Fulfils (expected : StateSet) (b : Belief) : Prop where
  few : expected.size ≤ maxWorlds → b.worlds = expected ∧ b.isComplete = true
  many : maxWorlds < expected.size →
    (∀ s ∈ b.worlds, s ∈ expected) ∧ b.worlds.size = maxWorlds ∧ b.isComplete = false

lemma Fulfils.of_explained {observed : Evidence} {expected : StateSet} (h : p.Explained u ply view q)
    (hsteady : u.steady) (hbound : p.IsBound) (hcomplete : p.belief.isComplete = true)
    (hexpected : ∀ t, t ∈ expected ↔ p.wanted u ply view t)
    (hlimited : (q.recording observed).Limited q') : Fulfils expected q'.belief := by
  have hsame : q.belief.worlds = expected := by
    refine StateSet.ext_iff_mem.2 fun t => ?_
    rw [hexpected]
    exact ⟨h.wanted t, h.all hsteady hbound t⟩
  subst hsame
  cases hlimited with
  | whole hsize =>
    have hle : q.belief.worlds.size ≤ maxWorlds := hsize
    exact ⟨fun _ => ⟨rfl, h.isComplete.trans hcomplete⟩, fun hlt => absurd hle (Nat.not_le.2 hlt)⟩
  | sample hsize hakin hworlds hcount =>
    have hlt : maxWorlds < q.belief.worlds.size := hsize
    exact ⟨fun hle => absurd hle (Nat.not_le.2 hlt), fun _ => ⟨hworlds, hcount, hakin.isComplete⟩⟩

lemma evidence_toNode (v : Option (Valuation R)) :
    (p.toNode v).evidence p.belief ply view = p.evidence ply view := by
  cases hmove : p.move with
  | none => simp only [Node.evidence, Place.evidence, Place.toNode_move, Place.toNode_depth,
      Place.toNode_role, hmove]
  | some move => simp only [Node.evidence, Place.evidence, Place.toNode_move, Place.toNode_depth,
      Place.toNode_role, hmove]

/-- A complete node is followed to just the states in which the developments from its worlds end,
whichever way the node for the ply is found. -/
theorem Tended.develop_agrees (hgame : game.AnswersOn possible) (hstart : possible game.start)
    (h : Tended game possible a root) (hleads : a.Leads root id) {n : Node R} {b : Belief}
    (hn : a.find? id = some n) (hb : n.knowledge = .belief b) (hcomplete : b.isComplete = true)
    (hlater : (n.depth : Int) < ply) (hle : ply ≤ 2147483647) (view : View) (host : ε) :
    ∃ ds, game.developments? (n.evidence b ply view) = .ok ds ∧
      ((∀ s ∈ Game.finals ds, ∀ t ∈ Game.finals ds,
          s.isInControl n.role = t.isInControl n.role) →
        ((∃ f s, Arena.develop game id ply view ⟨a, host⟩ = .error f s ∧ f.kind = .mismatch) ↔
          (Game.finals ds).isEmpty = true) ∧
        ((Game.finals ds).isEmpty = false → ∃ k a' host' b',
          Arena.develop game id ply view ⟨a, host⟩ = .ok k ⟨a', host'⟩ ∧ a'.belief? k = .ok b' ∧
            Fulfils (Game.finals ds) b')) := by
  obtain ⟨r, hrooted, hrootBound⟩ := h.rooted hgame hstart
  obtain ⟨p, hp, -⟩ := hrooted.sound.leads hrooted.place hleads
  have hbound := hrooted.isBound hrootBound hleads hp
  have hnode : n = p.toNode n.valuation := by
    rw [← Node.place?_eq_some, ← place?_of_find? hn, hp]
  generalize n.valuation = v at hnode
  subst hnode
  cases hb
  obtain ⟨ds, hds, hmem⟩ := developments?_evidence (hrooted.sound.known id p hp) hbound hlater hle view
  refine ⟨ds, evidence_toNode v ▸ hds, fun hagree => ?_⟩
  rcases develop_cases view host hrooted.sound hp hstart (Int.le_of_lt hlater) hle
    (fun hr => hr.elim) with
    ⟨a', host', k, q, q', hrun, hreached, hmeets, hlimited⟩ | ⟨a', f, hrun, hunmet⟩
  · have hfound : p.Explained ⟨game, possible, hgame, True, False⟩ ply view q := by
      rcases hmeets.found with hfound | hfound | hfound
      · exact hfound
      · rw [hfound.sample] at hcomplete
        cases hcomplete
      · exact absurd hfound.depth (Int.ne_of_lt hlater)
    have hne : (Game.finals ds).isEmpty = false := by
      obtain ⟨s, hs⟩ := StateSet.isEmpty_eq_false_iff.1 q.belief.nonempty
      exact StateSet.isEmpty_eq_false_iff.2 ⟨s, (hmem s).2 (hfound.wanted s hs)⟩
    refine ⟨⟨?_, fun hempty => ?_⟩, fun _ => ?_⟩
    · rintro ⟨f, s, herror, -⟩
      rw [hrun] at herror
      cases herror
    · rw [hne] at hempty
      cases hempty
    · exact ⟨k, a', host', q'.belief, hrun, belief?_of_place? hreached.place,
        .of_explained hfound trivial hbound hcomplete hmem hlimited⟩
  · cases hunmet with
    | unexplained hkind hnone _ =>
      have hempty : (Game.finals ds).isEmpty = true := by
        rw [← Bool.not_eq_false, StateSet.isEmpty_eq_false_iff]
        rintro ⟨s, hs⟩
        exact hnone trivial hbound s ((hmem s).1 hs)
      refine ⟨⟨fun _ => hempty, fun _ => ⟨f, _, hrun, hkind⟩⟩, fun hne => ?_⟩
      rw [hempty] at hne
      cases hne
    | divided hdiffers hboth =>
      rcases hboth with ⟨hs, ht⟩ | ⟨hsample, -⟩
      · exact absurd (hagree _ ((hmem _).2 hs) _ ((hmem _).2 ht)) hdiffers
      · rw [hsample] at hcomplete
        cases hcomplete

/-! ## Committed twice -/

lemma growFrontiers_nil (game : Game) (plies : Nat) :
    growFrontiers game plies [] a = .ok (some []) a := by
  induction plies with
  | zero => rfl
  | succ plies ih => exact (Action.bind_of_ok rfl).trans ih

/-- Nothing is found below a place whose worlds are all expanded but that has no edges. -/
lemma developBelief_barren (h : a.AllSound u) (hp : a.place? id = some p)
    (hcomplete : p.belief.isComplete = true) (hexpanded : p.belief.isExpanded = true)
    (hedges : p.edges ≠ none) (hnil : p.edgeList = []) (hply : (p.depth : Int) < ply) (view : View) :
    ∃ a', developBelief u.game id ply view a = .error (.unreachableView view.text ply id) a' := by
  obtain ⟨v, hnode⟩ := node_run hp
  have hsound := h.kept id p hp (by simp)
  obtain ⟨a', q, htrim, hsound', hq, htrimmed, -⟩ := trimBelief_yields
    (h.mono fun _ hfalse => .inl hfalse) hp (.refl hsound.expanded) hsound
    (fun _ _ hfalse => hfalse.elim)
  obtain ⟨w, hnode'⟩ := node_run hq
  have hqedges : q.edges = some #[] := by
    cases hedges' : q.edges with
    | none => exact absurd (htrimmed.pristine hedges') hedges
    | some edges =>
      have hlist := htrimmed.edges
      rw [hnil, List.filter_nil, Place.edgeList, hedges', Option.getD_some] at hlist
      rw [Array.toList_eq_nil_iff.1 hlist]
  have hqexpanded : (q.toNode w).isExpanded = true := by
    rw [Node.isExpanded_toNode, hqedges, Belief.isExpanded, htrimmed.expanded, htrimmed.alike.worlds]
    exact hexpanded
  have hqcomplete : q.belief.isComplete = true := htrimmed.alike.isComplete.trans hcomplete
  have hgrow : growFrontier u.game [id] a' = .ok (some []) a' := by
    have hexpand : expandBelief u.game id a' = .ok ⟨⟩ a' := by
      rw [expandBelief, Action.bind_of_ok hnode', hqexpanded]
      rfl
    unfold growFrontier
    refine (Action.bind_of_ok (a := (none, {})) (t := a') ?_).trans rfl
    rw [List.forIn_cons]
    refine (Action.bind_of_ok (a := ForInStep.yield (none, {})) (t := a') ?_).trans rfl
    simp only
    rw [Action.bind_of_ok (belief_run hq), hqcomplete, if_neg (by simp), Action.bind_of_ok hexpand,
      Action.bind_of_ok (Action.get_run a'),
      Action.bind_of_ok (Action.lift_of_ok (edges?_of_place? hq hqedges) a'),
      Action.bind_of_ok (noteEdges_run _ _ _)]
    rfl
  have hgrows : growFrontiers u.game (ply - (q.depth : Int)).toNat [id] a' = .ok (some []) a' := by
    obtain ⟨plies, hplies⟩ : ∃ plies, (ply - (q.depth : Int)).toNat = plies + 1 :=
      ⟨(ply - (q.depth : Int)).toNat - 1, by rw [htrimmed.alike.depth]; omega⟩
    rw [hplies, growFrontiers, Action.bind_of_ok hgrow]
    exact growFrontiers_nil u.game plies
  have htree : developThroughTree u.game id ply view a' =
      .error (.unreachableView view.text ply id) a' := by
    rw [developThroughTree, Action.bind_of_ok hnode', Place.toNode_depth, Action.bind_of_ok hgrows]
    rfl
  refine ⟨a', ?_⟩
  rw [developBelief, Action.bind_of_ok hnode, Action.bind_of_ok (belief_run hp), Place.toNode_depth,
    if_neg (by omega), if_neg (by omega)]
  exact (Action.bind_of_ok htrim).trans (Action.bind_of_error htree)

end Arena

namespace Lever

variable {u : Upkeep} {p : Place} {t : State}

/-- Where pulling the lever leads to from a place at which it has not been pulled yet. -/
lemma wanted_iff (hgame : u.game = game) (hdepth : p.depth = 0) (hrole : p.role = puller)
    (hworlds : p.belief.worlds = {idle}) :
    p.wanted u 1 ∅ t ↔ (p.accepts (.single puller up) = true ∧ t = raised) ∨
      (p.accepts (.single puller down) = true ∧ t = lowered) := by
  have hview : game.viewOf t puller = ∅ := rfl
  have hplies : ((1 : Int) - (p.depth : Int)).toNat = 1 := by rw [hdepth]; rfl
  simp only [Place.wanted, Place.ahead, hplies, hworlds, StateSet.mem_singleton, hgame, hrole, hview,
    exists_eq_left, transitions_idle, List.mem_cons, List.not_mem_nil, or_false, forall_const,
    and_true, exists_eq_or_imp]
  tauto

lemma accepts_single {m m' : Move} (hmove : p.move = some m) (hrole : p.role = puller)
    (hstanding : p.belief.standing = .visible (some ∅)) :
    p.accepts (.single puller m') = decide (m' = m) := by
  simp [Place.accepts, Belief.isVisible, hmove, hrole, hstanding, Turn.contains, Turn.find?_single]

end Lever

namespace Arena

/-- The theorem applies to a tree in which the lever has been pulled up. -/
theorem develop_agrees_lever : ∃ (a : Arena Binary64) (root : NodeId) (n : Node Binary64)
    (b : Belief) (ds : List Development),
    Tended Lever.game (fun _ => True) a root ∧ a.find? root = some n ∧ n.knowledge = .belief b ∧
      b.isComplete = true ∧ n.depth = 0 ∧ n.move = some Lever.up ∧
      Lever.game.developments? (n.evidence b 1 ∅) = .ok ds ∧
      (∀ s, s ∈ Game.finals ds ↔ s = Lever.raised) ∧
      ∀ host : Twister, ∃ k a' host' b',
        Arena.develop Lever.game root 1 ∅ ⟨a, host⟩ = .ok k ⟨a', host'⟩ ∧ a'.belief? k = .ok b' ∧
          Fulfils (Game.finals ds) b' := by
  obtain ⟨a₁, a₂, a, root, p, -, -, -, htended, hrooted, hdepth, hrole, hmove, hcomplete, hstanding,
    hworlds, -⟩ := Lever.exists_committed True
  obtain ⟨v, hn⟩ := find?_of_place? hrooted.place
  have hbound : p.IsBound := .inr (by simp [Belief.isVisible, hstanding])
  have hlater : (p.depth : Int) < 1 := by rw [hdepth]; decide
  obtain ⟨ds, hds, hmem⟩ := developments?_evidence (hrooted.sound.known root p hrooted.place) hbound
    hlater (by decide) ∅
  have hraised : ∀ s, s ∈ Game.finals ds ↔ s = Lever.raised := by
    intro s
    rw [hmem, Lever.wanted_iff rfl hdepth hrole hworlds, Lever.accepts_single hmove hrole hstanding,
      Lever.accepts_single hmove hrole hstanding]
    simp [show Lever.down ≠ Lever.up by decide]
  refine ⟨a, root, p.toNode v, p.belief, ds, htended, hn, rfl, hcomplete, hdepth, hmove,
    (evidence_toNode v).symm ▸ hds, hraised, fun host => ?_⟩
  obtain ⟨ds', hds', hagrees⟩ := htended.develop_agrees Lever.answers trivial .refl hn rfl hcomplete
    hlater (by decide) ∅ host
  rw [evidence_toNode, hds] at hds'
  cases hds'
  refine (hagrees fun s hs t ht => ?_).2 (StateSet.isEmpty_eq_false_iff.2 ⟨_, (hraised _).2 rfl⟩)
  rw [(hraised s).1 hs, (hraised t).1 ht]

/-- The tree does not agree with the developments if its root is committed twice: the edges that the
first move has removed are missed by the second one. -/
theorem develop_disagrees_committed_twice :
    ∃ (a₁ a₂ a₃ a₄ : Arena Binary64) (root : NodeId) (n : Node Binary64) (b : Belief)
      (ds : List Development),
      add (Node.belief? none 0 Lever.puller {Lever.idle} true (Node.standingOf true ∅)) ∅ =
        .ok root a₁ ∧
      Arena.expand Lever.game root a₁ = .ok ⟨⟩ a₂ ∧
      (do Arena.commit root Lever.up; trim root : Action (Arena Binary64) Unit) a₂ = .ok ⟨⟩ a₃ ∧
      (do Arena.commit root Lever.down; trim root : Action (Arena Binary64) Unit) a₃ = .ok ⟨⟩ a₄ ∧
      a₄.find? root = some n ∧ n.knowledge = .belief b ∧ n.kind = .visible ∧ b.isComplete = true ∧
      n.depth = 0 ∧ Lever.game.developments? (n.evidence b 1 ∅) = .ok ds ∧
      (∀ s, s ∈ Game.finals ds ↔ s = Lever.lowered) ∧
      ∀ host : Twister, ∃ f s,
        Arena.develop Lever.game root 1 ∅ ⟨a₄, host⟩ = .error f s ∧ f.kind = .mismatch := by
  obtain ⟨a₁, a₂, a₃, root, p, hadd, hexpand, hcommit, -, hrooted, hdepth, hrole, hmove, hcomplete,
    hstanding, hworlds, hexpanded, hedges⟩ := Lever.exists_committed False
  obtain ⟨a₄, q, hcommit', hrooted', htrimmed, -⟩ :=
    @Rooted.commit _ _ _ _ _ Lever.down hrooted (.inr (.inr id))
  obtain ⟨v, hn⟩ := find?_of_place? hrooted'.place
  have hqrole : q.role = Lever.puller := htrimmed.alike.role.trans hrole
  have hqdepth : q.depth = 0 := htrimmed.alike.depth.trans hdepth
  have hqworlds : q.belief.worlds = {Lever.idle} := htrimmed.alike.worlds.trans hworlds
  have hqmove : q.move = some Lever.down := htrimmed.alike.move
  have hqcomplete : q.belief.isComplete = true := htrimmed.alike.isComplete.trans hcomplete
  have hqstanding : q.belief.standing = .visible (some ∅) :=
    htrimmed.alike.standing.trans hstanding
  have hlater : (q.depth : Int) < 1 := by rw [hqdepth]; decide
  obtain ⟨ds, hds, hmem⟩ := developments?_evidence (hrooted'.sound.known root q hrooted'.place)
    (.inr (by simp [Belief.isVisible, hqstanding])) hlater (by decide) ∅
  have hlowered : ∀ s, s ∈ Game.finals ds ↔ s = Lever.lowered := by
    intro s
    rw [hmem, Lever.wanted_iff rfl hqdepth hqrole hqworlds,
      Lever.accepts_single hqmove hqrole hqstanding, Lever.accepts_single hqmove hqrole hqstanding]
    simp [show Lever.up ≠ Lever.down by decide]
  have hkind : (q.toNode v).kind = .visible := by
    rw [Node.kind_toNode, if_pos (by simp [Belief.isVisible, hqstanding])]
  -- An edge that the first move has left disagrees with the second one.
  have hnil : q.edgeList = [] := by
    rw [htrimmed.edges, List.filter_eq_nil_iff]
    intro e he hretains
    obtain ⟨-, -, -, -, haccepts⟩ := (hrooted.sound.kept root p hrooted.place (by simp)).edge he
    rw [Place.retains, Bool.and_eq_true] at hretains
    have hvisible : p.belief.isVisible = true := by simp [Belief.isVisible, hstanding]
    have hup := (p.accepts_iff (.inr hvisible) v e.turn).1 haccepts _ hmove
    have hdown := ((p.committed Lever.down).accepts_iff (.inr hvisible) v e.turn).1 hretains.2 _ rfl
    rw [Place.toNode_role] at hup hdown
    rw [show (p.committed Lever.down).role = p.role from rfl, hup] at hdown
    exact absurd (Option.some.inj hdown) (by decide)
  have hqexpanded : q.belief.isExpanded = true := by
    have hsub := (hrooted'.sound.kept root q hrooted'.place (by simp)).expanded
    have hsame : q.belief.expanded = q.belief.worlds := by
      refine StateSet.ext_iff_mem.2 fun s => ⟨hsub s, fun hs => ?_⟩
      rw [hqworlds, StateSet.mem_singleton] at hs
      rw [hs, htrimmed.expanded]
      exact hexpanded
    rw [Belief.isExpanded, hsame]
    exact decide_eq_true rfl
  refine ⟨a₁, a₂, a₃, a₄, root, q.toNode v, q.belief, ds, hadd, hexpand, hcommit, hcommit', hn, rfl,
    hkind, hqcomplete, hqdepth, (evidence_toNode v).symm ▸ hds, hlowered, fun host => ?_⟩
  obtain ⟨a', hrun⟩ := developBelief_barren hrooted'.sound hrooted'.place hqcomplete hqexpanded
    (fun hnone => hedges (htrimmed.pristine hnone)) hnil hlater ∅
  exact ⟨_, _, develop_of_error host hrooted'.place hrun, rfl⟩

end Arena

end GameSearch
