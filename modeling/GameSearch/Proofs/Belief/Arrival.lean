import GameSearch.Proofs.Belief.Tracking

/-!
# Arriving at a ply

Whoever follows a play from a belief arrives at one of the same owner, for the given ply, whose worlds all
show the view and are not too many: `Arena.develop_arrives`.  It takes for granted that views which are kept
are what the worlds show, so `Place.Honest` must hold of each place in a tree.  It does in a `Cultivated` one.
-/

namespace GameSearch

namespace Place

variable {u : Upkeep} {p q c : Place} {T : Forest} {id : NodeId} {e : Edge} {ply : Int} {view : View}
  {s : State} {observed : Evidence} {inControl : Bool} {listed : State → List (Turn × State)}

/-- The view that is kept at a place, if there is one, is what its worlds show. -/
def Honest (u : Upkeep) (p : Place) : Prop :=
  ∀ view, p.belief.view? = some view → ∀ s ∈ p.belief.worlds, u.game.viewOf s p.role = view

lemma Akin.honest (h : p.Akin q) (hhonest : p.Honest u)
    (hworlds : ∀ s ∈ q.belief.worlds, s ∈ p.belief.worlds) : q.Honest u := by
  intro view hview s hs
  rw [Belief.view?, h.standing] at hview
  rw [h.role]
  exact hhonest view hview s (hworlds s hs)

lemma honest_of_standing (hstanding : p.belief.standing = Node.standingOf inControl view)
    (hsees : inControl = true → ∀ s ∈ p.belief.worlds, u.game.viewOf s p.role = view) : p.Honest u := by
  intro view' hview s hs
  rw [Belief.view?, hstanding] at hview
  cases inControl with
  | false => cases hview
  | true =>
    cases hview
    exact hsees rfl s hs

/-- The transitions to a child look the same to the owner, and so do the worlds of the child. -/
lemma Fits.honest_child (h : p.Fits u T listed id) (he : e ∈ p.edgeList) (hc : T e.child = some c) :
    c.Honest u := by
  obtain ⟨c', hc', hof⟩ := h.child e he
  obtain rfl : c = c' := Option.some.inj (hc.symm.trans hc')
  refine honest_of_standing hof.standing fun _ s hs => ?_
  obtain ⟨e', he', hsame, rfl⟩ := (hof.worlds s).1 hs
  rw [h.same e he e' he' hsame.symm, hof.role]
  rfl

/-- The worlds of a place that was found show the view. -/
lemma Meets.sees (h : p.Meets u ply view (p.observedUpTo ply view) q) (hknown : p.Known u)
    (hhonest : p.Honest u) (hply : (p.depth : Int) ≤ ply) (hs : s ∈ q.belief.worlds) :
    u.game.viewOf s p.role = view := by
  rcases h.found with hfound | hfound | ⟨-, hview, rfl⟩
  · exact (hfound.wanted s hs).2
  · obtain ⟨n, rfl⟩ := Int.eq_ofNat_of_zero_le (Int.le_trans (Int.natCast_nonneg _) hply)
    exact (after_of_recalled hknown (Int.ofNat_le.1 hply) rfl (hfound.recalled s hs)).2
  · exact hhonest view hview s hs

/-- The view is kept at a place that was found, if its owner is in control. -/
lemma Meets.stores (h : p.Meets u ply view observed q) (hvisible : q.belief.isVisible = true) :
    q.belief.standing = .visible (some view) := by
  rcases h.stems with ⟨-, -, -, -, hakin⟩ | @⟨inControl, -, -, -, hstanding⟩
  · rcases Place.observe_cases _ view with ⟨v, -, heq⟩ | ⟨hhidden, heq⟩
    · rw [hakin.standing, heq]
    · rw [Belief.isVisible, hakin.standing, heq, hhidden] at hvisible
      cases hvisible
  · cases inControl with
    | false =>
      rw [Belief.isVisible, hstanding] at hvisible
      cases hvisible
    | true => exact hstanding

/-- What is observed up to a ply ends with the view there. -/
lemma getElem?_views_observedUpTo :
    ((p.observedUpTo ply view).views.getD ply ∅)[p.role]? = some view := by
  simp only [observedUpTo, Evidence.withView, Std.ExtTreeMap.getD_insert_self,
    Std.ExtTreeMap.getElem?_insert_self]

/-- What is observed up to a later ply includes the move that the owner is committed to. -/
lemma getElem?_turns_observedUpTo {move : Move} (hmove : p.move = some move) (hlt : (p.depth : Int) < ply) :
    (p.observedUpTo ply view).turns[(p.depth : Int)]? = some (.single p.role move) := by
  simp only [observedUpTo, hmove, gt_iff_lt, hlt, if_true, Evidence.withView, Evidence.withTurn,
    Std.ExtTreeMap.getElem?_insert_self]

end Place

namespace Arena

variable {R ε : Type} [Dice ε] {u : Upkeep} {a a' : Arena R} {root id k : NodeId} {p q : Place} {ply : Int}
  {view : View} {host host' : ε} {game : Game} {possible : State → Prop}

/-- A place that was found from another one, for a ply at which the owner has a view. -/
structure Arrived (u : Upkeep) (p : Place) (ply : Int) (view : View) (k : NodeId) (q : Place) (a : Arena R) :
    Prop where
  place : a.place? k = some q
  sound : SoundBelow u a k q
  owner : q.role = p.role
  level : (q.depth : Int) = ply
  size_le : q.belief.worlds.size ≤ maxWorlds
  sees : ∀ s ∈ q.belief.worlds, u.game.viewOf s p.role = view
  stores : q.belief.isVisible = true → q.belief.standing = .visible (some view)
  history : q.belief.history = p.observedUpTo ply view

/-- Following a play from an honest place, one arrives. -/
theorem develop_arrives (h : a.AllSound u) (hforgets : ¬u.recalls) (hp : a.place? id = some p)
    (hhonest : p.Honest u) (hstart : u.states u.game.start) (hle : ply ≤ 2147483647)
    (hrun : develop u.game id ply view ⟨a, host⟩ = .ok k ⟨a', host'⟩) :
    (p.depth : Int) ≤ ply ∧ ∃ q, Arrived u p ply view k q a' := by
  have hply := depth_le_of_develop hp hrun
  refine ⟨hply, ?_⟩
  rcases develop_cases view host h hp hstart hply hle (fun hr => absurd hr hforgets) with
    ⟨a₁, host₁, k₁, q, q', hrun', hreached, hmeets, hlimited⟩ | ⟨a₁, f, hrun', -⟩
  · cases hrun.symm.trans hrun'
    refine ⟨q', hreached.place, hreached.sound, hreached.owner, hreached.level, hlimited.size_le,
      fun s hs => ?_, fun hvisible => ?_, hlimited.history⟩
    · exact hmeets.sees (h.known id p hp) hhonest hply (hlimited.worlds s hs)
    · rw [Place.isVisible_eq_of_standing hlimited.standing] at hvisible
      exact hlimited.standing.trans (hmeets.stores hvisible)
  · cases hrun.symm.trans hrun'

lemma Arrived.honest (h : Arrived u p ply view k q a) : q.Honest u := by
  intro view' hview s hs
  have hstanding := Belief.view?_eq_some.1 hview
  have hstores := h.stores (by rw [Belief.isVisible, hstanding])
  rw [hstanding] at hstores
  cases hstores
  rw [h.owner, h.sees s hs]

/-! ## Cultivated trees -/

/-- The places of a tree are honest if its root is. -/
lemma Rooted.honest (h : Rooted u a root p) (hhonest : p.Honest u) (hleads : a.Leads root id)
    (hq : a.place? id = some q) : q.Honest u := by
  cases hleads with
  | refl => exact Option.some.inj (h.place.symm.trans hq) ▸ hhonest
  | @step x e hx he =>
    obtain ⟨r, hr, -⟩ := h.sound.leads h.place hx
    rw [edgesOf_of_place? hr] at he
    exact (h.sound.kept x r hr not_false).honest_child he hq

/-- The trees that come about from a root that was made for what its owner sees, by expanding the nodes below it, by
committing the owner of the root to moves, by narrowing the root down, and by making a node that follows a play the
new root.  Plies are numbers of 32 bits. -/
def Cultivated (game : Game) (possible : State → Prop) : Arena R → NodeId → Prop :=
  Raised game possible
    { plants := fun role worlds inControl view => inControl = true → ∀ s ∈ worlds, game.view? s role = .ok view
      expands := fun a root id => a.Leads root id
      commits := fun _ _ => True
      fails := False }

/-- In a cultivated tree all places are sound and honest. -/
theorem Cultivated.rooted (hgame : game.AnswersOn possible) (hstart : possible game.start)
    (h : Cultivated game possible a root) :
    ∃ p, Rooted ⟨game, possible, hgame, False, False⟩ a root p ∧ p.Honest ⟨game, possible, hgame, False, False⟩ := by
  induction h with
  | plant hworlds hsees hrun =>
    obtain ⟨hne, hrooted⟩ := @rooted_of_plant _ ⟨game, possible, hgame, False, False⟩ _ _ _ _ _ _ _ hworlds hrun
    refine ⟨_, hrooted, Place.honest_of_standing rfl fun hcontrol s hs => ?_⟩
    have hview := hsees hcontrol s hs
    rwa [hgame.view? (hworlds s hs), Except.ok.injEq] at hview
  | expand _ hleads hrun ih =>
    obtain ⟨p, hrooted, hhonest⟩ := ih
    obtain ⟨q, hrooted', halike⟩ := hrooted.expand_below hleads hrun
    exact ⟨q, hrooted', halike.toAkin.honest hhonest fun s hs => halike.worlds ▸ hs⟩
  | expandWorld _ hleads hrun ih =>
    obtain ⟨p, hrooted, hhonest⟩ := ih
    obtain ⟨q, hrooted', halike, -⟩ := hrooted.expandWorld_below hleads hrun
    exact ⟨q, hrooted', halike.toAkin.honest hhonest fun s hs => halike.worlds ▸ hs⟩
  | @commit a a' root n move _ _ _ _ hrun ih =>
    obtain ⟨p, hrooted, hhonest⟩ := ih
    obtain ⟨a₁, q, hrun', hrooted', htrimmed, -⟩ := hrooted.commit (.inr (.inr not_false))
    cases hrun.symm.trans hrun'
    have hcommitted : (p.committed move).Honest ⟨game, possible, hgame, False, False⟩ := hhonest
    exact ⟨q, hrooted', htrimmed.alike.toAkin.honest hcommitted fun s hs => htrimmed.alike.worlds ▸ hs⟩
  | restrict _ hrun ih =>
    obtain ⟨p, hrooted, hhonest⟩ := ih
    obtain ⟨a₁, q, hrun', hrooted', hakin, hworlds⟩ := hrooted.restrict (meets_of_restrict hrooted.place hrun)
    cases hrun.symm.trans hrun'
    exact ⟨q, hrooted', hakin.honest hhonest fun s hs => ((hworlds s).1 hs).1⟩
  | setSample _ hrun ih =>
    obtain ⟨p, hrooted, hhonest⟩ := ih
    obtain ⟨a₁, q, hrun', hrooted', hakin, hworlds⟩ := hrooted.setSample (hrooted.meets_of_setSample hrun)
    cases hrun.symm.trans hrun'
    have hsampled : p.sampled.Honest ⟨game, possible, hgame, False, False⟩ := hhonest
    exact ⟨q, hrooted', hakin.honest hsampled fun s hs => ((hworlds s).1 hs).1⟩
  | develop _ hleads hle hdevelop hreroot ih =>
    obtain ⟨p, hrooted, hhonest⟩ := ih
    obtain ⟨r, hr, -⟩ := hrooted.sound.leads hrooted.place hleads
    obtain ⟨-, q, harrived⟩ := develop_arrives hrooted.sound not_false hr (hrooted.honest hhonest hleads hr)
      hstart hle hdevelop
    obtain ⟨a₁, hrun, hsound, hself⟩ := harrived.sound.reroot harrived.place
    cases hreroot.symm.trans hrun
    exact ⟨q.detached, ⟨hsound, hself, rfl⟩, harrived.honest⟩
  | fail _ hfails => exact hfails.elim

end Arena

end GameSearch
