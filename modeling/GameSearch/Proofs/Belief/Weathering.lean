import GameSearch.Proofs.Belief.Representation

/-!
# Trees whose expansions are broken off

An expansion that is broken off after some transitions out of a world leaves this world half expanded: there are
edges for these transitions, and yet the world does not count as expanded.  All other worlds are as they
should be.  When the expansion is taken up again, these transitions get a second edge each, and nothing else differs
from an undisturbed expansion: `Weathered.breaks_off`.  The trees are the `Weathered` ones, in which expansions may have
been broken off before, but each time before anything was added for the world in question.
-/

namespace GameSearch

namespace Arena

variable {R : Type} {u : Upkeep} {a a' : Arena R} {root id : NodeId} {p q : Place} {n : Node R} {b : Belief}
  {game : Game} {possible : State → Prop} {ask : State → Inquiry} {e : Expansion} {f : Fault} {w : State}
  {worlds : State → Prop} {before : List (Turn × State)}

/-- The edges of a node out of a world. -/
def edgesOut (a : Arena R) (id : NodeId) (w : State) : List Edge :=
  (a.edgesOf id).filter fun e => e.key.world = some w

/-- The transitions that the edges of a node out of a world stand for. -/
def stepsOut (a : Arena R) (id : NodeId) (w : State) : List (Turn × State) :=
  (a.edgesOut id w).map fun e => (e.turn, e.next)

lemma stepsOut_of_place? (hp : a.place? id = some p) : a.stepsOut id w = p.out w := by
  rw [stepsOut, edgesOut, edgesOf_of_place? hp]
  rfl

/-- A world is expanded, and each of its transitions that agree with the committed move has one edge, or it is
not expanded, and none has. -/
def Whole (game : Game) (a : Arena R) (id : NodeId) (n : Node R) (b : Belief) (w : State) : Prop :=
  w ∈ b.expanded ∧ a.stepsOut id w = (game.transitions w).filter (fun step => n.accepts step.1) ∨
    w ∉ b.expanded ∧ a.stepsOut id w = []

/-- A world is whole if its edges are those of its transitions. -/
lemma whole_of_out (hp : a.place? id = some p) (hbound : p.IsBound)
    (hout : p.out w = (p.done u w).filter fun step => p.accepts step.1) (v : Option (Valuation R)) :
    Whole u.game a id (p.toNode v) p.belief w := by
  rw [Whole, stepsOut_of_place? hp, hout, Place.accepts_eq hbound]
  by_cases hw : w ∈ p.belief.expanded
  · exact .inl ⟨hw, by rw [Place.done, if_pos hw]⟩
  · exact .inr ⟨hw, by rw [Place.done, if_neg hw]; rfl⟩

/-- At a sound place all worlds are whole. -/
lemma Sound.whole (h : a.AllSound u) (hp : a.place? id = some p) (hbound : p.IsBound) (hsteady : u.steady)
    (v : Option (Valuation R)) (w : State) : Whole u.game a id (p.toNode v) p.belief w :=
  whole_of_out hp hbound (((h.kept id p hp not_false).out w).resolve_right fun hout => hout.1.1 hsteady) v

/-- While a world is being expanded, all others are whole. -/
lemma Expanding.whole_of_ne {x : State} (h : Expanding u id w before a p) (hbound : p.IsBound) (hsteady : u.steady)
    (v : Option (Valuation R)) (hx : x ≠ w) : Whole u.game a id (p.toNode v) p.belief x := by
  have hout := (h.fits.out x).resolve_right fun hout => hout.1.1 hsteady
  rw [Function.update_of_ne hx] at hout
  exact whole_of_out h.place hbound hout v

/-! ## Weathered trees -/

/-- The trees of which each node is committed to one move at most, and in which expansions may be broken off. -/
def Weathered (game : Game) (possible : State → Prop) : Arena R → NodeId → Prop :=
  Raised game possible
    { plants := fun _ _ _ _ => True
      expands := fun _ _ _ => True
      commits := fun n move => n.move = none ∨ n.move = some move
      fails := True }

theorem Weathered.bound (hgame : game.AnswersOn possible) (hstart : possible game.start)
    (h : Weathered game possible a root) : Bound ⟨game, possible, hgame, True, False⟩ a root :=
  Raised.bound (fun _ _ hmove => hmove) hgame hstart h

/-- The expansion of a node was broken off at a world: a query about it failed after some transitions, which have
edges.  All other worlds are whole. -/
structure BrokenOff (game : Game) (d : Inquiry) (id : NodeId) (n n' : Node R) (b b' : Belief) (w : State)
    (before : List (Turn × State)) (f : Fault) (a' : Arena R) : Prop where
  role : n'.role = n.role
  move : n'.move = n.move
  worlds : b'.worlds = b.worlds
  expanded : ∀ x ∈ b.expanded, x ∈ b'.expanded
  world : w ∈ b'.worlds
  fresh : w ∉ b'.expanded
  stops : d.Stops n.role n.accepts w before f
  half : a'.stepsOut id w = before.filter fun step => n.accepts step.1
  whole : ∀ x, x ≠ w → Whole game a' id n' b' x

/-- The world in question is whole only if none of the transitions before the failure were to be added. -/
lemma BrokenOff.whole_iff {d : Inquiry} {n' : Node R} {b' : Belief} (h : BrokenOff game d id n n' b b' w before f a') :
    (∀ x, Whole game a' id n' b' x) ↔ ∀ step ∈ before, n.accepts step.1 = false := by
  have hnone : a'.stepsOut id w = [] ↔ ∀ step ∈ before, n.accepts step.1 = false := by
    rw [h.half, List.filter_eq_nil_iff]
    simp
  rw [← hnone]
  constructor
  · intro hwhole
    exact ((hwhole w).resolve_left fun hin => h.fresh hin.1).2
  · intro hout x
    by_cases hx : x = w
    · exact hx ▸ .inr ⟨h.fresh, hout⟩
    · exact h.whole x hx

lemma Halted.brokenOff {d : Inquiry} (h : Halted u id p worlds w before a a' q) (hp : a.place? id = some p)
    (hbound : p.IsBound) (hsteady : u.steady) (hstops : d.Stops p.role p.accepts w before f)
    (v v' : Option (Valuation R)) :
    BrokenOff u.game d id (p.toNode v) (q.toNode v') p.belief q.belief w before f a' := by
  obtain ⟨hextends, hlike⟩ := h.extended hp
  have haccepts : (p.toNode v).accepts = q.accepts := by
    rw [Place.accepts_eq hbound]
    exact (funext hlike.accepts).symm
  refine ⟨hlike.role, hlike.move, hlike.worlds, hextends.expanded, h.expanding.world, h.expanding.fresh, ?_, ?_,
    fun x hx => h.expanding.whole_of_ne (hlike.toAkin.isBound hbound) hsteady v' hx⟩
  · rwa [Place.accepts_eq hbound]
  · rw [stepsOut_of_place? h.expanding.place, h.expanding.out_eq, haccepts]

/-- What an expansion leaves that is broken off, and what it comes to when it is taken up again.  There are as many
edges too many as there were left, so nothing is amiss just if there were none. -/
theorem Weathered.breaks_off (hgame : game.AnswersOn possible) (hstart : possible game.start)
    (h : Weathered game possible a root) (hleads : a.Leads root id) (hn : a.find? id = some n)
    (hb : n.knowledge = .belief b) (hfalters : ∀ w, (ask w).Falters game) (he : e.Within b)
    (hrun : e.runBy ask id a = .error f a') :
    ∃ n' b' w before, a'.find? id = some n' ∧ n'.knowledge = .belief b' ∧
      BrokenOff game (ask w) id n n' b b' w before f a' ∧
      ((∀ x, Whole game a' id n' b' x) ↔ ∀ step ∈ before, n.accepts step.1 = false) ∧
      ∃ a₁ a₂ rest, e.run game id a = .ok ⟨⟩ a₁ ∧ e.run game id a' = .ok ⟨⟩ a₂ ∧
        a₁.edgesOf id = a'.edgesOf id ++ rest ∧ a₂.edgesOf id = a'.edgesOf id ++ a'.edgesOut id w ++ rest ∧
        a₂ = a₁.update id (fun n => n.withEdges (a₂.edgesOf id)) ∧
        (a₂ = a₁ ↔ ∀ step ∈ before, n.accepts step.1 = false) := by
  have hbounded := h.bound hgame hstart
  obtain ⟨p, v, hp, hv, hbound⟩ := hbounded.node hleads
  rw [hn, Option.some.injEq] at hv
  subst hv
  cases hb
  obtain ⟨r, hrooted, -⟩ := hbounded
  obtain ⟨w, worlds, before, q, hstops, hhalted, a₁, a₂, hrun₁, hrun₂, hdiffers⟩ :=
    Expansion.runBy_eq_error hrooted.sound hp he hfalters hrun
  obtain ⟨v', hn'⟩ := find?_of_place? hhalted.expanding.place
  have hbroken := hhalted.brokenOff hp hbound trivial hstops v v'
  have hedges : a'.edgesOf id = q.edgeList := edgesOf_of_place? hhalted.expanding.place
  have hout : a'.edgesOut id w = q.edgesFrom w := by rw [edgesOut, hedges, Place.edgesFrom]
  obtain ⟨rest, hedges₁, hedges₂, hsame⟩ := hdiffers.edgesOf
  rw [← hedges] at hedges₁
  rw [← hedges, ← hout] at hedges₂
  refine ⟨_, _, w, before, hn', rfl, hbroken, hbroken.whole_iff, a₁, a₂, rest, hrun₁, hrun₂, hedges₁, hedges₂, hsame,
    ?_⟩
  have hnone : a'.edgesOut id w = [] ↔ ∀ step ∈ before, (p.toNode v).accepts step.1 = false := by
    rw [← List.map_eq_nil_iff, ← stepsOut, hbroken.half, List.filter_eq_nil_iff]
    simp
  rw [← hnone]
  constructor
  · intro heq
    rw [heq, hedges₁, List.append_assoc] at hedges₂
    exact List.self_eq_append_left.1 (List.append_cancel_left hedges₂)
  · intro hnil
    rw [← hout, hnil] at hdiffers
    exact hdiffers.eq_of_nil

end Arena

/-! ## A game of one turn -/

namespace Lever

/-- What the lowered lever looks like cannot be told. -/
def blind : Game where
  roles := game.roles
  start := game.start
  sees s := if s = lowered then .error (.raised .queryTimeout "blind") else game.sees s
  legal := game.legal
  goals := game.goals
  isTerminal := game.isTerminal
  play := game.play

lemma blind_falters : blind.Falters game where
  successors? h := h
  view? {s role view} h := by
    by_cases hs : s = lowered
    · rw [Game.view?, show blind.sees s = .error (.raised .queryTimeout "blind") from if_pos hs] at h
      cases h
    · have hsame : blind.sees s = game.sees s := if_neg hs
      rw [Game.view?, hsame] at h
      exact h

lemma exists_planted {worlds : StateSet} (hne : worlds.isEmpty = false) : ∃ (root : NodeId) (a : Arena Binary64),
    Arena.add (Node.belief? none 0 puller worlds true (Node.standingOf true ∅)) ∅ = .ok root a ∧
      Arena.Rooted ⟨game, fun _ => True, answers, True, False⟩ a root
        (.root 0 puller worlds true (Node.standingOf true ∅) hne) := by
  obtain ⟨root, a, hadd, -⟩ := @Arena.addRoot_yields Binary64 ⟨game, fun _ => True, answers, True, False⟩
    (fun _ => False) ∅ worlds puller 0 true (Node.standingOf true ∅) Arena.sound_empty (Int.le_refl 0) hne
    (fun _ _ => trivial)
  exact ⟨root, a, hadd, (@Arena.rooted_of_plant _ ⟨game, fun _ => True, answers, True, False⟩ _ _ _ _ _ _ _
    (fun _ _ => trivial) hadd).snd⟩

/-- The view after the second transition out of a world fails, and the edge of the first one stays. -/
lemma exists_blinded : ∃ (a a' : Arena Binary64) (root : NodeId) (n : Node Binary64) (b : Belief) (f : Fault),
    Arena.Weathered game (fun _ => True) a root ∧ a.find? root = some n ∧ n.knowledge = .belief b ∧
      b.worlds = {idle} ∧ Arena.expandWorld blind root idle a = .error f a' ∧
      a'.stepsOut root idle = [(.single puller up, raised)] ∧
      ∃ a₁, Arena.expandWorld game root idle a = .ok ⟨⟩ a₁ ∧
        a₁.stepsOut root idle = [(.single puller up, raised), (.single puller down, lowered)] := by
  obtain ⟨root, a₁, hadd, hrooted⟩ := exists_planted (StateSet.isEmpty_singleton idle)
  have hidle : idle ∈ ({idle} : StateSet) := StateSet.mem_singleton.2 rfl
  have hfresh : idle ∉ (∅ : StateSet) := Std.ExtTreeSet.not_mem_empty
  obtain ⟨hexpanding, -⟩ := hrooted.sound.opened hrooted.place hidle hfresh
  obtain ⟨v, hn⟩ := Arena.find?_of_place? hrooted.place
  -- the transition that pulls the lever up is added
  obtain ⟨a₂, p, hrun, hexpanding', hexpanded, hgrows⟩ := Arena.addTransition_yields hexpanding
    (show (.single puller up, raised) ∈ game.transitions idle by rw [transitions_idle]; simp)
  have haccepts : ∀ turn, p.accepts turn = true :=
    (hgrows.extended hexpanding.place hexpanding'.place).1.toAkin.accepts
  have hsame : Arena.addTransition blind root idle (.single puller up) raised (a₁.opened root) = .ok ⟨⟩ a₂ :=
    (Arena.addTransition_congr hexpanding.place blind_falters fun _ => ⟨_, rfl⟩).trans hrun
  have hup : Arena.addStep blind root idle (.single puller up, raised) ⟨⟩ (a₁.opened root) = .ok (.yield ⟨⟩) a₂ :=
    Arena.addStep_of_ok hsame
  -- the one that pulls it down is not
  have hdown : Arena.addStep blind root idle (.single puller down, lowered) ⟨⟩ a₂ =
      .error (.raised .queryTimeout "blind") a₂ :=
    Arena.addStep_of_error (Arena.addTransition_of_error hexpanding'.place (haccepts _) rfl)
  have hrest : forIn [(Turn.single puller down, lowered)] ⟨⟩ (Arena.addStep blind root idle) a₂ =
      .error (.raised .queryTimeout "blind") a₂ := by
    rw [List.forIn_cons]
    exact Action.bind_of_error hdown
  have hloop : forIn [(Turn.single puller up, raised), (.single puller down, lowered)] ⟨⟩
      (Arena.addStep blind root idle) (a₁.opened root) = .error (.raised .queryTimeout "blind") a₂ := by
    rw [List.forIn_cons]
    exact (Action.bind_of_ok hup).trans hrest
  -- if nothing fails, both are
  obtain ⟨a₃, q, hrun₃, hgrown⟩ := Arena.expandWorld_yields hrooted.sound hrooted.place hidle
  refine ⟨a₁, a₂, root, _, _, .raised .queryTimeout "blind", .plant (fun _ _ => trivial) trivial hadd, hn, rfl, rfl,
    ?_, ?_, a₃, hrun₃, ?_⟩
  · rw [Arena.expandWorld_eq, Arena.expandWorldBy_of_fresh hrooted.place hidle hfresh,
      Arena.addTransitions_of_ok (show blind.successors? idle = _ from successors?_idle)]
    exact Action.bind_of_error hloop
  · rw [Arena.stepsOut_of_place? hexpanding'.place, hexpanding'.out_eq]
    simp [haccepts]
  · have hakin := (hgrown.extended hrooted.place).1.toAkin
    have hall : ∀ turn, q.accepts turn = true := hakin.accepts
    have hout := ((hgrown.sound.kept root q hgrown.place not_false).out idle).resolve_right fun hout => hout.1.1 trivial
    rw [Arena.stepsOut_of_place? hgrown.place, hout, Place.done, if_pos ((hgrown.expanded idle).2 (.inr rfl))]
    simp [hall, transitions_idle]

end Lever

namespace Arena

/-- The theorem applies where one of the two views fails: if the expansion is taken up again, there are two edges for
pulling the lever up and one for pulling it down. -/
theorem breaks_off_blind : ∃ (a a' a₂ : Arena Binary64) (root : NodeId) (n : Node Binary64) (b : Belief) (f : Fault),
    Weathered Lever.game (fun _ => True) a root ∧ a.find? root = some n ∧ n.knowledge = .belief b ∧
      (Expansion.world Lever.idle).run Lever.blind root a = .error f a' ∧
      a'.stepsOut root Lever.idle = [(.single Lever.puller Lever.up, Lever.raised)] ∧
      (Expansion.world Lever.idle).run Lever.game root a' = .ok ⟨⟩ a₂ ∧
      a₂.stepsOut root Lever.idle = [(.single Lever.puller Lever.up, Lever.raised),
        (.single Lever.puller Lever.up, Lever.raised), (.single Lever.puller Lever.down, Lever.lowered)] := by
  obtain ⟨a, a', root, n, b, f, hweathered, hn, hb, hworlds, hrun, hout, a₁, hrun₁, hout₁⟩ := Lever.exists_blinded
  have hwithin : (Expansion.world Lever.idle).Within b := fun w hw => by
    cases hw
    exact hworlds ▸ StateSet.mem_singleton.2 rfl
  have hrunBy : (Expansion.world Lever.idle).runBy (fun _ => .of Lever.blind) root a = .error f a' := by
    rw [Expansion.runBy_of]
    exact hrun
  obtain ⟨n', b', w, before, hn', hb', hbroken, -, b₁, a₂, rest, hrun', hrun₂, hedges₁, hedges₂, -⟩ :=
    hweathered.breaks_off Lever.answers trivial .refl hn hb (fun _ => Inquiry.falters_of Lever.blind_falters) hwithin
      hrunBy
  cases hrun₁.symm.trans hrun'
  obtain rfl : w = Lever.idle := StateSet.mem_singleton.1 (hworlds ▸ hbroken.worlds ▸ hbroken.world)
  refine ⟨a, a', a₂, root, n, b, f, hweathered, hn, hb, hrun, hout, hrun₂, ?_⟩
  have hagain : (a'.edgesOut root Lever.idle).filter (fun e => e.key.world = some Lever.idle) =
      a'.edgesOut root Lever.idle := by simp [edgesOut]
  rw [stepsOut, edgesOut, hedges₁, List.filter_append, List.map_append, ← edgesOut, ← stepsOut, hout] at hout₁
  rw [stepsOut, edgesOut, hedges₂, List.filter_append, List.filter_append, hagain, ← edgesOut, List.map_append,
    List.map_append, ← stepsOut, hout, List.append_assoc, hout₁]
  rfl

end Arena

end GameSearch
