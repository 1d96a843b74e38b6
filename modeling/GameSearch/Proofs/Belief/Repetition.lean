import GameSearch.Proofs.Belief.Agreement
import GameSearch.Proofs.Belief.Arrival

/-!
# Following a play twice

Where one arrives, one stays: if a play is followed up to a view from the node that was found for it, that
node is found again, no random number is drawn and the arena is as it was: `Cultivated.develop_repeats`.  Only
the table in which a belief keeps its children may be laid out anew, which `Arena.Rebuckets` allows for.
-/

namespace GameSearch

namespace Place

variable {u : Upkeep} {p : Place} {T : Forest} {id : NodeId} {e : Edge}

/-- The edges of a sound place are all retained. -/
lemma Fits.retains (h : p.Sound u T id) (he : e ∈ p.edgeList) : p.retains e = true := by
  obtain ⟨w, hw, hkey, -, haccepts⟩ := h.edge he
  simp [Place.retains, hkey, Place.keyOf, h.expanded w hw, haccepts]

end Place

namespace Arena

variable {R ε : Type} [Dice ε] {u : Upkeep} {but : NodeId → Prop} {a a' : Arena R} {root id k : NodeId}
  {p q : Place} {n : Node R} {ply : Int} {view : View} {host host' : ε} {game : Game}
  {possible : State → Prop}

/-- Nothing has changed but the way in which a belief finds its children by what its owner observes. -/
structure Rebuckets (k : NodeId) (a a' : Arena R) : Prop where
  size : a'.size = a.size
  others : ∀ x ≠ k, a'.find? x = a.find? x
  node : ∀ n b, a.find? k = some n → n.knowledge = .belief b → ∃ buckets,
    a'.find? k = some { n with knowledge := .belief { b with buckets := buckets } } ∧
      ∀ o : Observation, buckets[o]? = b.buckets[o]?

lemma Rebuckets.refl (k : NodeId) (a : Arena R) : Rebuckets k a a := by
  refine ⟨rfl, fun _ _ => rfl, fun n b hn hb => ⟨b.buckets, ?_, fun _ => rfl⟩⟩
  rw [hn, ← hb]

lemma Rebuckets.place (h : Rebuckets k a a') (hp : a.place? k = some p) : ∃ buckets,
    a'.place? k = some { p with belief := { p.belief with buckets := buckets } } := by
  obtain ⟨v, hv⟩ := find?_of_place? hp
  obtain ⟨buckets, hn, -⟩ := h.node _ _ hv rfl
  exact ⟨buckets, place?_of_find? hn⟩

/-- The children of a belief are found by other buckets that hold the same. -/
lemma changeBuckets_rebuckets {f : Std.HashMap Observation NodeId → Std.HashMap Observation NodeId}
    (hp : a.place? id = some p) (hf : ∀ o : Observation, (f p.belief.buckets)[o]? = p.belief.buckets[o]?)
    (hrun : changeBelief id (fun b => { b with buckets := f b.buckets }) a = .ok ⟨⟩ a') :
    Rebuckets id a a' := by
  rw [changeBelief, change_run] at hrun
  cases hrun
  obtain ⟨v, hv⟩ := find?_of_place? hp
  refine ⟨rfl, fun x hx => by rw [find?_update, if_neg hx], fun n b hn hb => ?_⟩
  rw [hv, Option.some.injEq] at hn
  subst hn
  cases hb
  exact ⟨f p.belief.buckets, by rw [find?_update, if_pos rfl, hv]; rfl, hf⟩

/-! ## Trimming what has been trimmed -/

/-- The transitions to a child lead to all of its worlds, so it is not narrowed down to less. -/
lemma narrowChildren_all {edges : Array Edge} (hedges : p.edges = some edges) (hsound : p.Sound u a.place? id)
    (hsame : ∀ e ∈ p.edgeList, a'.place? e.child = a.place? e.child) (height : Nat) :
    (forIn (statesByChild edges).toList PUnit.unit fun (x : NodeId × StateSet) _ => do
      restrictWithin (height + 1) x.1 x.2
      pure (ForInStep.yield PUnit.unit)) a' = .ok ⟨⟩ a' := by
  have hlist := Place.edgeList_of_some hedges
  obtain ⟨_, b, hrun, rfl⟩ := @Action.forIn_yields (Arena R) _ _ (statesByChild edges).toList
    (fun x _ => do restrictWithin (height + 1) x.1 x.2; pure (ForInStep.yield PUnit.unit))
    (fun _ _ b => b = a')
    (by
      rintro before ⟨k, states⟩ after ⟨⟩ b hmem rfl
      have hin : (k, states) ∈ (statesByChild edges).toList := by
        rw [hmem]
        exact List.mem_append_right _ List.mem_cons_self
      obtain ⟨⟨e, he, rfl⟩, hstates⟩ := mem_toList_statesByChild hin
      rw [← hlist] at he hstates
      obtain ⟨c, hc, hof⟩ := hsound.child e he
      rw [← hsame e he] at hc
      refine ⟨⟨⟩, b, ?_, rfl⟩
      rw [Action.bind_of_ok (restrictWithin_all hc fun s hs => (hstates s).2 ((hof.worlds s).1 hs))]
      rfl)
    ⟨⟩ a' rfl
  exact hrun

/-- There is an edge to every child in the buckets of a sound place. -/
lemma getElem?_filter_buckets {edges : Array Edge} (hedges : p.edges = some edges)
    (hsound : p.Sound u a.place? id) (o : Observation) :
    (p.belief.buckets.filter fun _ child => (statesByChild edges).contains child)[o]? =
      p.belief.buckets[o]? := by
  rw [Std.HashMap.getElem?_filter']
  cases hbucket : p.belief.buckets[o]? with
  | none => rfl
  | some child =>
    obtain ⟨e, he, -, hchild⟩ := hsound.edge_of_bucket hbucket
    rw [Place.edgeList_of_some hedges] at he
    rw [Option.filter_some, if_pos (contains_statesByChild.2 ⟨e, he, hchild⟩)]

/-- A sound place has been trimmed. -/
theorem trimBelief_rebuckets (h : a.Sound u but) (hp : a.place? id = some p)
    (hsound : p.Sound u a.place? id) : ∃ a', trimBelief id a = .ok ⟨⟩ a' ∧ Rebuckets id a a' := by
  obtain ⟨v, hnode⟩ := node_run hp
  change ∃ a', trimWith (restrictWithin (a.slots.size + 1)) id a = .ok ⟨⟩ a' ∧ _
  rw [trimWith, Action.bind_of_ok hnode, Action.bind_of_ok (belief_run hp)]
  cases hedges : p.edges with
  | none =>
    simp only [Place.toNode_edges, hedges]
    exact ⟨a, rfl, .refl id a⟩
  | some edges =>
    have hkept : (edges.filter fun e =>
        e.key.world.any p.belief.worlds.contains && (p.toNode v).isCommitted e) = edges := by
      refine Array.filter_eq_self.2 fun e he => ?_
      have he : e ∈ p.edgeList := by rwa [Place.edgeList_of_some hedges, Array.mem_toList_iff]
      obtain ⟨w, hkey⟩ := hsound.keyed e he
      rw [Node.isCommitted_toNode hkey]
      exact hsound.retains he
    have hsame : change id (fun n => { n with edges := some edges }) a = .ok ⟨⟩ a := by
      rw [change_run, update_eq_self fun n hn => ?_]
      obtain ⟨v', hv'⟩ := find?_of_place? hp
      rw [hv', Option.some.injEq] at hn
      rw [← hn, ← hedges]
      rfl
    obtain ⟨a', hrun, -, hplaces⟩ := changeBelief_yields
      (fun b => { b with buckets := b.buckets.filter fun _ child => (statesByChild edges).contains child })
      h.sane hp
    have hloop := @narrowChildren_all R u a a' id p edges hedges hsound
      (fun e he => by rw [hplaces, Function.update_of_ne (h.child_ne hp he)]) a.slots.size
    refine ⟨a', ?_, changeBuckets_rebuckets hp (getElem?_filter_buckets hedges hsound) hrun⟩
    simp only [Place.toNode_edges, hedges, hkept]
    rw [Action.bind_of_ok hsame, Action.bind_of_ok hrun, Action.bind_of_ok hloop]
    rfl

/-! ## Staying -/

/-- What there is to observe up to the ply has been observed on the way. -/
lemma Arrived.observedUpTo (h : Arrived u p ply view k q a) :
    q.observedUpTo ply view = q.belief.history := by
  have hsame : q.observedUpTo ply view = q.belief.history.withView ply q.role view := by
    have hlevel := h.level
    unfold Place.observedUpTo
    cases q.move with
    | none => rfl
    | some move => simp only [if_neg (show ¬ply > (q.depth : Int) by omega)]
  rw [hsame, h.history, h.owner, Place.observedUpTo, Evidence.withView_withView]

/-- All worlds agree with the view again. -/
lemma Arrived.seeing_worlds (h : Arrived u p ply view k q a) :
    seeing u q.role view q.belief.worlds = q.belief.worlds := by
  refine StateSet.ext_iff_mem.2 fun s => ?_
  rw [mem_seeing]
  exact and_iff_left_of_imp fun hs => h.owner ▸ h.sees s hs

lemma Arrived.developHere (h : Arrived u p ply view k q a) (observed : Evidence) :
    ∃ a', Arena.developHere u.game k ply view observed a = .ok k a' ∧ Rebuckets k a a' := by
  by_cases hview : q.belief.view? = some view
  · exact ⟨a, (developHere_confirmed h.place h.level hview observed).1, .refl k a⟩
  · obtain ⟨v, hnode⟩ := node_run h.place
    obtain ⟨but, hsound, -, -⟩ := h.sound
    have hagreeing := @agreeing?_eq u q.role view _ (hsound.known k q h.place).worlds
    have hobserve : changeBelief k (·.observe view) a = .ok ⟨⟩ a :=
      changeBelief_eq_self h.place (congrArg Place.belief (Place.observe_eq_self h.stores))
    have hrestrict : restrict k q.belief.worlds a = .ok ⟨⟩ a :=
      @restrictWithin_all R a k q a.slots.size h.place _ fun _ hs => hs
    obtain ⟨a', htrim, hbuckets⟩ := trimBelief_rebuckets hsound h.place (h.sound.sound h.place)
    have hrun : observeAt k view q.belief.worlds a = .ok ⟨⟩ a' := by
      rw [observeAt, Action.bind_of_ok hobserve, Action.bind_of_ok hrestrict]
      exact htrim
    refine ⟨a', ?_, hbuckets⟩
    rw [Arena.developHere, Action.bind_of_ok hnode, Action.bind_of_ok (belief_run h.place), if_neg hview,
      Place.toNode_role, Action.bind_of_ok (Action.lift_of_ok hagreeing a), h.seeing_worlds,
      q.belief.nonempty]
    exact Action.bind_of_ok hrun

/-- A belief for the ply itself is found first, and then what was observed is recorded at it. -/
lemma developBelief_here {b : Arena R} (hp : a.place? id = some p) (hlevel : (p.depth : Int) = ply)
    (hhere : developHere game id ply view (p.observedUpTo ply view) a = .ok k a')
    (hrecord : changeBelief k (fun b => { b with history := p.observedUpTo ply view }) a' = .ok ⟨⟩ b) :
    developBelief game id ply view a = .ok k b := by
  obtain ⟨v, hnode⟩ := node_run hp
  rw [developBelief, Action.bind_of_ok hnode, Action.bind_of_ok (belief_run hp), Place.toNode_depth,
    if_neg (by omega), observedUpTo_toNode, if_pos hlevel.symm]
  exact (Action.bind_of_ok hhere).trans ((Action.bind_of_ok hrecord).trans rfl)

/-- No sample is taken of a belief with few worlds. -/
lemma develop_small (hp : a.place? id = some p) (hfind : developBelief game id ply view a = .ok k a')
    (hq : a'.place? k = some q) (hsize : q.belief.worlds.size ≤ maxWorlds) (host : ε) :
    develop game id ply view ⟨a, host⟩ = .ok k ⟨a', host⟩ := by
  obtain ⟨v, hnode⟩ := node_run hp
  have hlimit : limitWorlds k ⟨a', host⟩ = .ok ⟨⟩ (⟨a', host⟩ : Hosted (Arena R) ε) := by
    rw [limitWorlds, Action.bind_of_ok (Hosted.onOwn_eq_ok.2 ⟨a', belief_run hq, rfl⟩),
      if_neg (Nat.not_lt.2 hsize)]
    rfl
  rw [develop, Action.bind_of_ok (Hosted.onOwn_eq_ok.2 ⟨a, hnode, rfl⟩)]
  exact (Action.bind_of_ok (Hosted.onOwn_eq_ok.2 ⟨a', hfind, rfl⟩)).trans (Action.bind_of_ok hlimit)

/-- Where one has arrived, one stays. -/
theorem Arrived.repeats (h : Arrived u p ply view k q a) (host : ε) :
    ∃ a', develop u.game k ply view ⟨a, host⟩ = .ok k ⟨a', host⟩ ∧ Rebuckets k a a' := by
  obtain ⟨a', hhere, hbuckets⟩ := h.developHere (q.observedUpTo ply view)
  obtain ⟨buckets, hplace⟩ := hbuckets.place h.place
  have hrecord := changeBelief_eq_self (f := fun b => { b with history := q.observedUpTo ply view }) hplace
    (by rw [h.observedUpTo])
  exact ⟨a', develop_small h.place (developBelief_here h.place h.level hhere hrecord) hplace h.size_le host,
    hbuckets⟩

/-! ## Nodes -/

/-- What following a play from the node `n` to a view of its owner has to yield: a node for the ply of the
same owner, whose worlds are not too many and all show the view, with the view and the move that the owner
is committed to at `n` among what has been observed. -/
structure Attains (game : Game) (n : Node R) (ply : Int) (view : View) (m : Node R) (b : Belief) : Prop where
  knowledge : m.knowledge = .belief b
  depth : (m.depth : Int) = ply
  role : m.role = n.role
  size_pos : 1 ≤ b.worlds.size
  size_le : b.worlds.size ≤ 256
  sees : ∀ s ∈ b.worlds, game.view? s n.role = .ok view
  stores : b.isVisible = true → b.view? = some view
  seen : (b.history.views.getD ply ∅)[n.role]? = some view
  moved : ∀ move, n.move = some move → (n.depth : Int) < ply →
    b.history.turns[(n.depth : Int)]? = some (.single n.role move)

lemma Arrived.attains (h : Arrived u p ply view k q a) (v v' : Option (Valuation R)) :
    Attains u.game (p.toNode v) ply view (q.toNode v') q.belief where
  knowledge := rfl
  depth := h.level
  role := h.owner
  size_pos := q.belief.one_le_size
  size_le := h.size_le
  sees s hs := by
    obtain ⟨but, hsound, -⟩ := h.sound
    rw [u.answers.view? ((hsound.known k q h.place).worlds s hs)]
    exact congrArg _ (h.sees s hs)
  stores hvisible := Belief.view?_eq_some.2 (h.stores hvisible)
  seen := by
    rw [h.history]
    exact Place.getElem?_views_observedUpTo
  moved move hmove hlt := by
    rw [h.history]
    exact Place.getElem?_turns_observedUpTo hmove hlt

/-- Following a play from any node of a cultivated tree yields a node of the ply whose worlds show the view,
and following it from there once more yields the same node, draws no random number and leaves all as it is. -/
theorem Cultivated.develop_repeats (hgame : game.AnswersOn possible) (hstart : possible game.start)
    (h : Cultivated game possible a root) (hleads : a.Leads root id) (hn : a.find? id = some n)
    (hle : ply ≤ 2147483647) (hrun : Arena.develop game id ply view ⟨a, host⟩ = .ok k ⟨a', host'⟩) :
    ∃ m b, a'.find? k = some m ∧ Attains game n ply view m b ∧
      ∃ a'', Arena.develop game k ply view ⟨a', host'⟩ = .ok k ⟨a'', host'⟩ ∧ Rebuckets k a' a'' := by
  obtain ⟨r, hrooted, hhonest⟩ := h.rooted hgame hstart
  obtain ⟨p, hp, -⟩ := hrooted.sound.leads hrooted.place hleads
  obtain ⟨v, hv⟩ := find?_of_place? hp
  rw [hn, Option.some.injEq] at hv
  subst hv
  obtain ⟨-, q, harrived⟩ := develop_arrives hrooted.sound not_false hp (hrooted.honest hhonest hleads hp)
    hstart hle hrun
  obtain ⟨v', hq⟩ := find?_of_place? harrived.place
  exact ⟨q.toNode v', q.belief, hq, harrived.attains v v', harrived.repeats host'⟩

/-- The lever can be seen to have been pulled at ply 1 from any place at which it has not been pulled. -/
lemma Rooted.develops_lever {p : Place}
    (hrooted : Rooted ⟨Lever.game, fun _ => True, Lever.answers, True, False⟩ a root p)
    (hdepth : p.depth = 0) (hrole : p.role = Lever.puller) (hmove : p.move = none)
    (hcomplete : p.belief.isComplete = true) (hworlds : p.belief.worlds = {Lever.idle}) (host : Twister) :
    ∃ k a' host', Arena.develop Lever.game root 1 ∅ ⟨a, host⟩ = .ok k ⟨a', host'⟩ := by
  have hlater : (p.depth : Int) ≤ 1 := by rw [hdepth]; decide
  rcases develop_cases ∅ host hrooted.sound hrooted.place trivial hlater (by decide) (fun h => h.elim) with
    ⟨a', host', k, -, -, hrun, -⟩ | ⟨a', f, -, hunmet⟩
  · exact ⟨k, a', host', hrun⟩
  · have haccepts : ∀ turn, p.accepts turn = true := fun turn => by rw [Place.accepts, hmove]
    have hwanted : ∀ s, p.wanted ⟨Lever.game, fun _ => True, Lever.answers, True, False⟩ 1 ∅ s ↔
        s = Lever.raised ∨ s = Lever.lowered := fun s => by
      rw [Lever.wanted_iff rfl hdepth hrole hworlds]
      simp only [haccepts, true_and]
    have hcontrol : ∀ s, s = Lever.raised ∨ s = Lever.lowered → s.isInControl p.role = false := by
      rw [hrole]
      rintro s (rfl | rfl) <;> rfl
    rcases hunmet with ⟨-, hnone, -⟩ | ⟨hdiffers, ⟨hs, ht⟩ | ⟨hsample, -⟩⟩
    · exact absurd ((hwanted Lever.raised).2 (.inl rfl)) (hnone trivial (.inl hmove) _)
    · exact absurd ((hcontrol _ ((hwanted _).1 hs)).trans (hcontrol _ ((hwanted _).1 ht)).symm) hdiffers
    · rw [hcomplete] at hsample
      cases hsample

/-- The theorem applies to the tree of a lever, before it has been pulled. -/
theorem develop_repeats_lever : ∃ (a : Arena Binary64) (root : NodeId) (n : Node Binary64),
    Cultivated Lever.game (fun _ => True) a root ∧ a.find? root = some n ∧ n.depth = 0 ∧
      ∀ host : Twister, ∃ k a' host' m b a'',
        Arena.develop Lever.game root 1 ∅ ⟨a, host⟩ = .ok k ⟨a', host'⟩ ∧ a'.find? k = some m ∧
          Attains Lever.game n 1 ∅ m b ∧ Arena.develop Lever.game k 1 ∅ ⟨a', host'⟩ = .ok k ⟨a'', host'⟩ ∧
          Rebuckets k a' a'' := by
  obtain ⟨a₁, a, root, p, hadd, hexpand, hrooted, hdepth, hrole, hmove, hcomplete, -, hworlds, -⟩ :=
    Lever.exists_expanded ⟨Lever.game, fun _ => True, Lever.answers, True, False⟩ rfl trivial
  have hcultivated : Cultivated Lever.game (fun _ => True) a root :=
    .expand (.plant (fun _ _ => trivial) (fun _ _ _ => rfl) hadd) .refl hexpand
  obtain ⟨v, hn⟩ := find?_of_place? hrooted.place
  refine ⟨a, root, p.toNode v, hcultivated, hn, hdepth, fun host => ?_⟩
  obtain ⟨k, a', host', hrun⟩ := hrooted.develops_lever hdepth hrole hmove hcomplete hworlds host
  obtain ⟨m, b, hm, hattains, a'', hagain, hbuckets⟩ :=
    hcultivated.develop_repeats Lever.answers trivial .refl hn (by decide) hrun
  exact ⟨k, a', host', m, b, a'', hrun, hm, hattains, hagain, hbuckets⟩

/-- A view that is kept is taken on trust: if a root was made for a view that its world does not show, the
root is what is found for that view. -/
theorem develop_trusts_kept_view : ∃ (a : Arena Binary64) (root : NodeId),
    add (Node.belief? none 0 Lever.puller {Lever.idle} true (Node.standingOf true Lever.raised)) ∅ =
      .ok root a ∧
      ∀ host : Twister, ∃ a' b, Arena.develop Lever.game root 0 Lever.raised ⟨a, host⟩ = .ok root ⟨a', host⟩ ∧
        a'.belief? root = .ok b ∧ ∃ s ∈ b.worlds, Lever.game.view? s Lever.puller ≠ .ok Lever.raised := by
  have hne : ({Lever.idle} : StateSet).isEmpty = false := StateSet.isEmpty_singleton Lever.idle
  obtain ⟨root, a, hadd, -, hsound, hplaces⟩ := @addRoot_yields Binary64
    ⟨Lever.game, fun _ => True, Lever.answers, False, False⟩ (fun _ => False) ∅ _ Lever.puller 0 true
    (Node.standingOf true Lever.raised) sound_empty (Int.le_refl 0) hne (fun _ _ => trivial)
  have hp : a.place? root =
      some (.root 0 Lever.puller {Lever.idle} true (Node.standingOf true Lever.raised) hne) := by
    rw [hplaces, Function.update_self]
    rfl
  obtain ⟨hhere, -⟩ := @developHere_confirmed _ ⟨Lever.game, fun _ => True, Lever.answers, False, False⟩ a root _
    Lever.raised 0 hp rfl rfl (Place.observedUpTo _ 0 Lever.raised)
  obtain ⟨a', hrecord, -, hplaces'⟩ := changeBelief_yields (fun b => { b with history := _ }) hsound.sane hp
  have hq := (congrFun hplaces' root).trans (Function.update_self ..)
  refine ⟨a, root, hadd, fun host => ⟨a', _, develop_small hp (developBelief_here hp rfl hhere hrecord) hq ?_ host,
    belief?_of_place? hq, Lever.idle, StateSet.mem_singleton.2 rfl, ?_⟩⟩
  · change ({Lever.idle} : StateSet).size ≤ 256
    decide
  · have hview : Lever.game.view? Lever.idle Lever.puller = .ok ∅ := rfl
    rw [hview, ne_eq, Except.ok.injEq]
    decide

end Arena

end GameSearch
