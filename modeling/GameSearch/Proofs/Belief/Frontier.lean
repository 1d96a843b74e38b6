import GameSearch.Proofs.Belief.Sampling
import GameSearch.Tree.Develop

/-!
# Growing a tree ply by ply

`Place.ahead` are the states that follow the worlds of a place some plies later, `Place.Below` says
how the places at that ply come about.  A frontier is some of these places.  `growFrontiers_yields`
says that growing the tree finds all of them: their worlds together are the states ahead.
-/

namespace GameSearch

namespace Place

variable {u : Upkeep} {p q c c' : Place} {i j : Nat} {s : State} {turn : Turn}

/-- The states that follow the worlds of a place, if the owner first makes the move that it is
committed to. -/
def ahead (u : Upkeep) (p : Place) : Nat → State → Prop
  | 0, s => s ∈ p.belief.worlds
  | j + 1, t => ∃ s, p.ahead u j s ∧ ∃ step ∈ u.game.transitions s, step.2 = t ∧
      (j = 0 → p.accepts step.1 = true)

/-- A place is some plies below another one: what it is follows from what the owner observes of the
transitions on the way. -/
inductive Below (u : Upkeep) (p : Place) : Nat → Place → Prop
  | here {c : Place} : p.Akin c → Below u p 0 c
  | step {j : Nat} {q c : Place} {w next : State} {turn : Turn} : Below u p j q → p.ahead u j w →
      (0 < j → q.belief.standing = Node.standingOf (w.isInControl q.role) (u.game.viewOf w q.role)) →
      (turn, next) ∈ u.game.transitions w → (j = 0 → p.accepts turn = true) →
      c.depth = q.depth + 1 → c.role = q.role → c.move = none →
      c.belief.isComplete = q.belief.isComplete →
      c.belief.standing = Node.standingOf (next.isInControl q.role) (u.game.viewOf next q.role) →
      (u.recalls → c.belief.history = Arena.childHistory q.belief.history q.depth q.role
        (u.game.observed q.role turn next)) → Below u p (j + 1) c

lemma Below.akin (h : p.Below u j c) (hakin : c.Akin c') : p.Below u j c' := by
  cases h with
  | here h => exact .here (h.trans hakin)
  | step h hw hstands hstep haccepts hdepth hrole hmove hcomplete hstanding hhistory =>
    exact .step h hw hstands hstep haccepts (hakin.depth.trans hdepth) (hakin.role.trans hrole)
      (hakin.move.trans hmove) (hakin.isComplete.trans hcomplete) (hakin.standing.trans hstanding)
      fun hr => hakin.history.trans (hhistory hr)

lemma Below.depth (h : p.Below u j c) : c.depth = p.depth + j := by
  induction h with
  | here h => exact h.depth
  | step _ _ _ _ _ hdepth _ _ _ _ _ ih => rw [hdepth, ih, Nat.add_assoc]

lemma Below.role (h : p.Below u j c) : c.role = p.role := by
  induction h with
  | here h => exact h.role
  | step _ _ _ _ _ _ hrole _ _ _ _ ih => rw [hrole, ih]

lemma Below.isComplete (h : p.Below u j c) : c.belief.isComplete = p.belief.isComplete := by
  induction h with
  | here h => exact h.isComplete
  | step _ _ _ _ _ _ _ _ hcomplete _ _ ih => rw [hcomplete, ih]

lemma Below.accepts (h : p.Below u j c) :
    c.accepts turn = true ↔ (j = 0 → p.accepts turn = true) := by
  cases h with
  | here h => simp [h.accepts]
  | step _ _ _ _ _ _ _ hmove _ _ _ => simp [Place.accepts, hmove]

/-- All worlds of a place show its owner the same, which is what the place says. -/
def Shows (u : Upkeep) (c : Place) : Prop :=
  ∀ s ∈ c.belief.worlds,
    c.belief.standing = Node.standingOf (s.isInControl c.role) (u.game.viewOf s c.role)

lemma Shows.congr (h : c.Shows u) (hakin : c.Akin c')
    (hworlds : ∀ s ∈ c'.belief.worlds, s ∈ c.belief.worlds) : c'.Shows u := by
  intro s hs
  rw [hakin.standing, hakin.role]
  exact h s (hworlds s hs)

lemma Fits.shows {T : Forest} {id : NodeId} {listed : State → List (Turn × State)} {e : Edge}
    (h : p.Fits u T listed id) (he : e ∈ p.edgeList)
    (hof : ChildOf u id p (p.seen u e) (p.LeadsTo e.child) c) : c.Shows u := by
  intro s hs
  obtain ⟨x, hx, hchild, rfl⟩ := (hof.worlds s).1 hs
  have hsame := h.same x hx e he hchild
  rw [hof.standing, ← hsame, hof.role]
  rfl

lemma states_of_ahead (hp : ∀ s ∈ p.belief.worlds, u.states s) : ∀ {j s}, p.ahead u j s → u.states s
  | 0, _, h => hp _ h
  | _ + 1, _, ⟨s, h, step, hstep, rfl, _⟩ =>
    u.answers.closed s (states_of_ahead hp h) step hstep

/-- What is ahead of states at a ply can be reached some plies later. -/
lemma after_ahead {s t : State} (hp : ∀ r ∈ p.belief.worlds, u.game.After p.depth s r) (h : p.ahead u j t) :
    u.game.After (p.depth + j) s t := by
  induction j generalizing t with
  | zero => exact hp t h
  | succ j ih =>
    obtain ⟨r, hr, step, hstep, rfl, -⟩ := h
    exact Game.after_succ.2 ⟨r, ih hr, step, hstep, rfl⟩

end Place

namespace Arena

variable {R : Type} {u : Upkeep} {a a' b : Arena R} {ids : List NodeId} {k : NodeId} {p c : Place}
  {e : Edge} {j : Nat} {T T' : Forest} {touched : NodeId → Prop}

/-- Some of the places at a ply below a place. -/
structure Frontier (u : Upkeep) (p : Place) (j : Nat) (T : Forest) (ids : List NodeId) : Prop where
  nodup : ids.Nodup
  place : ∀ k ∈ ids, ∃ c, T k = some c ∧ p.Below u j c ∧ (∀ s ∈ c.belief.worlds, p.ahead u j s) ∧
    (0 < j → c.Shows u)

/-- The worlds of a frontier are all that can be ahead. -/
def Covers (u : Upkeep) (p : Place) (j : Nat) (T : Forest) (ids : List NodeId) : Prop :=
  ∀ s, p.ahead u j s → ∃ k ∈ ids, ∃ c, T k = some c ∧ s ∈ c.belief.worlds

lemma frontier_self (hp : T k = some p) : Frontier u p 0 T [k] :=
  ⟨by simp, fun x hx => ⟨p, by rw [List.mem_singleton.1 hx, hp], .here (.refl p), fun _ hs => hs,
    fun hj => absurd hj (Nat.lt_irrefl 0)⟩⟩

lemma covers_self (hp : T k = some p) : Covers u p 0 T [k] :=
  fun _ hs => ⟨k, List.mem_singleton_self k, p, hp, hs⟩

lemma Frontier.grows (h : Frontier u p j T ids)
    (hgrows : Forest.Grows touched p.role (p.depth + j) T T') : Frontier u p j T' ids := by
  refine ⟨h.nodup, fun k hk => ?_⟩
  obtain ⟨c, hc, hbelow, hahead, hshows⟩ := h.place k hk
  obtain ⟨c', hc', hextends, -, hworlds⟩ := hgrows k c hc
  rcases hworlds with ⟨-, hlt⟩ | hworlds
  · rw [hbelow.depth] at hlt
    omega
  · exact ⟨c', hc', hbelow.akin hextends.toAkin, fun s hs => hahead s (hworlds ▸ hs),
      fun hj => (hshows hj).congr hextends.toAkin fun s hs => hworlds ▸ hs⟩

lemma Covers.grows (h : Covers u p j T ids)
    (hgrows : Forest.Grows touched p.role (p.depth + j) T T') : Covers u p j T' ids := by
  intro s hs
  obtain ⟨k, hk, c, hc, hin⟩ := h s hs
  obtain ⟨c', hc', hextends, -⟩ := hgrows k c hc
  exact ⟨k, hk, c', hc', hextends.worlds s hin⟩

/-- An edge of a frontier leads to a place one ply below it. -/
lemma Frontier.child (h : Frontier u p j a.place? ids) (hsound : a.AllSound u) (hk : k ∈ ids)
    (hc : a.place? k = some c) (he : e ∈ c.edgeList) :
    ∃ d, a.place? e.child = some d ∧ p.Below u (j + 1) d ∧
      (∀ s ∈ d.belief.worlds, p.ahead u (j + 1) s) ∧ (0 < j + 1 → d.Shows u) := by
  obtain ⟨c', hc', hbelow, hahead, hshows⟩ := h.place k hk
  rw [hc, Option.some.injEq] at hc'
  subst hc'
  have hfits := hsound.kept k c hc (by simp)
  have hedge : ∀ x ∈ c.edgeList, ∃ w ∈ c.belief.worlds, (x.turn, x.next) ∈ u.game.transitions w ∧
      (j = 0 → p.accepts x.turn = true) := by
    intro x hx
    obtain ⟨w, hw, -, hstep, haccepts⟩ := hfits.edge hx
    exact ⟨w, hfits.expanded w hw, hstep, hbelow.accepts.1 haccepts⟩
  obtain ⟨d, hd, hof⟩ := hfits.child e he
  refine ⟨d, hd, ?_, fun s hs => ?_, fun _ => hfits.shows he hof⟩
  · obtain ⟨w, hw, hstep, haccepts⟩ := hedge e he
    exact .step hbelow (hahead w hw) (fun hj => hshows hj w hw) hstep haccepts hof.depth hof.role
      hof.move hof.isComplete hof.standing hof.history
  · obtain ⟨x, hx, -, rfl⟩ := (hof.worlds s).1 hs
    obtain ⟨w, hw, hstep, haccepts⟩ := hedge x hx
    exact ⟨w, hahead w hw, _, hstep, rfl, haccepts⟩

/-- Where all worlds are expanded, each transition leads to a child. -/
lemma Sound.child_of_step {but : NodeId → Prop} (h : a.Sound u but) (hk : ¬but k)
    (hc : a.place? k = some c) (hwavers : ¬c.Wavers u) {w : State} {step : Turn × State}
    (hw : w ∈ c.belief.expanded) (hstep : step ∈ u.game.transitions w)
    (haccepts : c.accepts step.1 = true) :
    ∃ e ∈ c.edgeList, ∃ d, a.place? e.child = some d ∧ step.2 ∈ d.belief.worlds := by
  have hfits := h.kept k c hc hk
  have hmem : step ∈ c.out w := by
    rcases hfits.out w with hout | ⟨hnot, -⟩
    · rw [hout, List.mem_filter]
      exact ⟨Place.mem_done.2 ⟨hw, hstep⟩, haccepts⟩
    · exact absurd hnot hwavers
  obtain ⟨e, he, -, -, hnext⟩ := Place.mem_out.1 hmem
  obtain ⟨d, hd, hof⟩ := hfits.child e he
  exact ⟨e, he, d, hd, (hof.worlds _).2 ⟨e, he, rfl, hnext⟩⟩

/-! ## Growth -/

/-- The children of some nodes of a frontier have been found. -/
structure Growing (u : Upkeep) (p : Place) (j : Nat) (before : List NodeId) (found : Found)
    (a b : Arena R) : Prop where
  sound : b.AllSound u
  grows : Forest.Grows (· ∈ before) p.role (p.depth + j) a.place? b.place?
  faithful : found.Faithful
  leads : ∀ x ∈ found.order.toList, ∃ k ∈ before, ∃ c, b.place? k = some c ∧
    ∃ e ∈ c.edgeList, e.child = x
  complete : ∀ k ∈ before, ∃ c, b.place? k = some c ∧ p.Below u j c ∧
    (∀ w ∈ c.belief.worlds, w ∈ c.belief.expanded) ∧ ∀ e ∈ c.edgeList, e.child ∈ found.order.toList

lemma edges?_of_place? {edges : Array Edge} (hp : a.place? k = some p) (hedges : p.edges = some edges) :
    a.edges? k = .ok edges := by
  obtain ⟨v, hv⟩ := find?_of_place? hp
  simp [edges?, node?, hv, hedges, bind, Except.bind, pure, Except.pure]

lemma noteEdges_run (found : Found) (edges : Array Edge) (s : Arena R) :
    (forIn edges found fun e found => pure (ForInStep.yield (found.note e.child)) :
      Action (Arena R) Found) s = .ok (found.noteAll (edges.toList.map Edge.child)) s := by
  rw [Array.forIn_pure_yield_eq_foldl, Found.foldl_note_eq]
  rfl

lemma Growing.growNext {before : List NodeId} {found : Found}
    (h : Growing u p j before found a b) (hfrontier : Frontier u p j a.place? ids)
    (hk : k ∈ ids) (hnew : k ∉ before) :
    ∃ b' edges, expandBelief u.game k b = .ok ⟨⟩ b' ∧ b'.edges? k = .ok edges ∧
      Growing u p j (before ++ [k]) (found.noteAll (edges.toList.map Edge.child)) a b' := by
  obtain ⟨c, hc, hbelow, -⟩ := (hfrontier.grows h.grows).place k hk
  obtain ⟨b', c', hrun, hgrown, hedges⟩ := expandBelief_yields h.sound hc
  obtain ⟨edges, hedges⟩ := Option.ne_none_iff_exists'.1 hedges
  have hgrows := hgrown.grows
  rw [hbelow.role, hbelow.depth] at hgrows
  have hmem : ∀ x, x ∈ (found.noteAll (edges.toList.map Edge.child)).order.toList ↔
      x ∈ found.order.toList ∨ ∃ e ∈ c'.edgeList, e.child = x := by
    intro x
    rw [h.faithful.mem_noteAll, List.mem_map]
    simp only [Place.edgeList, hedges, Option.getD_some]
  -- The other nodes of the frontier are no deeper than this one, so their worlds stay.
  have hkeep : ∀ x ∈ before, ∀ d, b.place? x = some d → ∃ d', b'.place? x = some d' ∧
      d'.edges = d.edges ∧ d'.belief.expanded = d.belief.expanded ∧
      (p.Below u j d → d'.belief.worlds = d.belief.worlds) := by
    intro x hx d hd
    obtain ⟨d', hd', -, htouched, hworlds⟩ := hgrows x d hd
    rcases htouched with rfl | ⟨hsame, hexpanded⟩
    · exact absurd hx hnew
    · refine ⟨d', hd', hsame, hexpanded, fun hd => ?_⟩
      rcases hworlds with ⟨-, hlt⟩ | hworlds
      · rw [hd.depth] at hlt
        omega
      · exact hworlds
  refine ⟨b', edges, hrun, edges?_of_place? hgrown.place hedges, hgrown.sound, ?_,
    h.faithful.noteAll _, ?_, ?_⟩
  · refine h.grows.trans hgrows (fun x hx => List.mem_append_left _ hx) (fun x hx => ?_)
      (Nat.le_refl _) (Nat.le_refl _)
    exact List.mem_append_right _ (List.mem_singleton.2 hx)
  · intro x hx
    rcases (hmem x).1 hx with hx | ⟨e, he, heq⟩
    · obtain ⟨y, hy, d, hd, e, he, heq⟩ := h.leads x hx
      obtain ⟨d', hd', hsame, -⟩ := hkeep y hy d hd
      refine ⟨y, List.mem_append_left _ hy, d', hd', e, ?_, heq⟩
      rwa [Place.edgeList, hsame]
    · exact ⟨k, List.mem_append_right _ (List.mem_singleton_self k), c', hgrown.place, e, he, heq⟩
  · intro x hx
    rcases List.mem_append.1 hx with hx | hx
    · obtain ⟨d, hd, hbelow', hexpanded, hchildren⟩ := h.complete x hx
      obtain ⟨d', hd', hsame, hexpanded', hworlds⟩ := hkeep x hx d hd
      have hakin : p.Below u j d' := by
        obtain ⟨d'', hd'', hextends, -⟩ := hgrows x d hd
        rw [hd', Option.some.injEq] at hd''
        exact hbelow'.akin (hd'' ▸ hextends.toAkin)
      refine ⟨d', hd', hakin, fun w hw => ?_, fun e he => ?_⟩
      · rw [hexpanded']
        exact hexpanded w (hworlds hbelow' ▸ hw)
      · rw [Place.edgeList, hsame] at he
        exact (hmem _).2 (.inl (hchildren e he))
    · rw [List.mem_singleton.1 hx]
      obtain ⟨hextends, hlike⟩ := hgrown.extended hc
      refine ⟨c', hgrown.place, hbelow.akin hextends.toAkin, fun w hw => ?_, fun e he => ?_⟩
      · exact (hgrown.expanded w).2 (.inr (hlike.worlds ▸ hw))
      · exact (hmem _).2 (.inr ⟨e, he, rfl⟩)

/-- When all nodes of a frontier have been looked at, their children are the next frontier. -/
lemma Growing.next {found : Found} (h : Growing u p j ids found a b)
    (hfrontier : Frontier u p j a.place? ids) :
    Frontier u p (j + 1) b.place? found.order.toList ∧
      (u.steady → Covers u p j a.place? ids → Covers u p (j + 1) b.place? found.order.toList) := by
  refine ⟨⟨h.faithful.nodup, fun x hx => ?_⟩, fun hsteady hcovers t ht => ?_⟩
  · obtain ⟨k, hk, c, hc, e, he, rfl⟩ := h.leads x hx
    exact (hfrontier.grows h.grows).child h.sound hk hc he
  · obtain ⟨w, hw, step, hstep, rfl, haccepts⟩ := ht
    obtain ⟨k, hk, c, hc, hin⟩ := hcovers.grows h.grows w hw
    obtain ⟨c', hc', hbelow, hexpanded, hchildren⟩ := h.complete k hk
    rw [hc, Option.some.injEq] at hc'
    subst hc'
    obtain ⟨e, he, d, hd, hnext⟩ := h.sound.child_of_step (by simp) hc (fun hw => hw.1 hsteady) (hexpanded w hin) hstep
      (hbelow.accepts.2 haccepts)
    exact ⟨e.child, hchildren e he, d, hd, hnext⟩

/-- Growing a tree by one ply. -/
theorem growFrontier_yields (h : a.AllSound u) (hfrontier : Frontier u p j a.place? ids)
    (hcomplete : p.belief.isComplete = true) :
    ∃ r a', growFrontier u.game ids a = .ok r a' ∧ a'.AllSound u ∧
      Forest.Grows (fun _ => True) p.role (p.depth + j) a.place? a'.place? ∧
      ∀ next, r = some next → Frontier u p (j + 1) a'.place? next ∧
        (u.steady → Covers u p j a.place? ids → Covers u p (j + 1) a'.place? next) := by
  let round : NodeId → Option (Option (List NodeId)) × Found →
      Action (Arena R) (ForInStep (Option (Option (List NodeId)) × Found)) := fun id s => do
    if (!(← belief id).isComplete) = true then pure (ForInStep.done (some none, s.2))
    else do
      expandBelief u.game id
      let found ← forIn (← (← get).edges? id) s.2 fun e found =>
        pure (ForInStep.yield (found.note e.child))
      pure (ForInStep.yield (none, found))
  obtain ⟨⟨r, found⟩, b, hrun, hr, hgrowing⟩ := @Action.forIn_yields _ _ _ ids round
    (fun before s b => s.1 = none ∧ Growing u p j before s.2 a b)
    (by
      rintro before k after ⟨r, found⟩ b hlist ⟨hr, hgrowing⟩
      have hk : k ∈ ids := by
        rw [hlist]
        exact List.mem_append_right _ List.mem_cons_self
      have hnew : k ∉ before := by
        have hnodup := hfrontier.nodup
        rw [hlist, List.nodup_append] at hnodup
        exact fun hmem => hnodup.2.2 k hmem k List.mem_cons_self rfl
      obtain ⟨c, hc, hbelow, -⟩ := (hfrontier.grows hgrowing.grows).place k hk
      obtain ⟨b', edges, hexpand, hedges, hgrowing'⟩ := hgrowing.growNext hfrontier hk hnew
      refine ⟨(none, found.noteAll (edges.toList.map Edge.child)), b', ?_, rfl, hgrowing'⟩
      have hc' : c.belief.isComplete = true := by rw [hbelow.isComplete, hcomplete]
      simp only [round]
      rw [Action.bind_of_ok (belief_run hc), hc', if_neg (by simp), Action.bind_of_ok hexpand,
        Action.bind_of_ok (Action.get_run b'), Action.bind_of_ok (Action.lift_of_ok hedges b'),
        Action.bind_of_ok (noteEdges_run _ _ _)]
      rfl)
    (none, {}) a ⟨rfl, h, .refl, Found.faithful_empty, by simp, by simp⟩
  simp only at hr hgrowing
  subst hr
  obtain ⟨hnext, hcovers⟩ := hgrowing.next hfrontier
  have hgrows := hgrowing.grows.mono (fun _ _ => trivial) (Nat.le_refl _)
  unfold growFrontier
  by_cases hsize : found.order.size > maxFrontier
  · refine ⟨none, b, ?_, hgrowing.sound, hgrows, fun next hnone => by cases hnone⟩
    exact (Action.bind_of_ok hrun).trans (by simp only [if_pos hsize]; rfl)
  · refine ⟨some found.order.toList, b, ?_, hgrowing.sound, hgrows, fun next hsome => ?_⟩
    · exact (Action.bind_of_ok hrun).trans (by simp only [if_neg hsize]; rfl)
    · rw [Option.some.injEq] at hsome
      exact hsome ▸ ⟨hnext, hcovers⟩

/-- Growing a tree by some plies. -/
theorem growFrontiers_yields (plies : Nat) (h : a.AllSound u) (hfrontier : Frontier u p j a.place? ids)
    (hcomplete : p.belief.isComplete = true) :
    ∃ r a', growFrontiers u.game plies ids a = .ok r a' ∧ a'.AllSound u ∧
      Forest.Grows (fun _ => True) p.role (p.depth + j) a.place? a'.place? ∧
      ∀ next, r = some next → Frontier u p (j + plies) a'.place? next ∧
        (u.steady → Covers u p j a.place? ids → Covers u p (j + plies) a'.place? next) := by
  induction plies generalizing a j ids with
  | zero =>
    refine ⟨some ids, a, rfl, h, .refl, fun next hnext => ?_⟩
    rw [Option.some.injEq] at hnext
    exact hnext ▸ ⟨hfrontier, fun _ h => h⟩
  | succ plies ih =>
    obtain ⟨r, a₁, hrun₁, hsound₁, hgrows₁, hnext₁⟩ := growFrontier_yields h hfrontier hcomplete
    rw [growFrontiers, Action.bind_of_ok hrun₁]
    cases r with
    | none => exact ⟨none, a₁, rfl, hsound₁, hgrows₁, fun next hnext => by cases hnext⟩
    | some ids₁ =>
      obtain ⟨hfrontier₁, hcovers₁⟩ := hnext₁ ids₁ rfl
      obtain ⟨r, a₂, hrun₂, hsound₂, hgrows₂, hnext₂⟩ := ih hsound₁ hfrontier₁
      refine ⟨r, a₂, hrun₂, hsound₂, hgrows₁.trans hgrows₂ (fun _ h => h) (fun _ h => h)
        (Nat.le_refl _) (by omega), fun next hnext => ?_⟩
      obtain ⟨hfrontier₂, hcovers₂⟩ := hnext₂ next hnext
      rw [Nat.add_right_comm] at hfrontier₂ hcovers₂
      exact ⟨hfrontier₂, fun hs hc => hcovers₂ hs (hcovers₁ hs hc)⟩

/-- A tree below a sample is not grown. -/
lemma growFrontiers_sample (plies : Nat) (hp : a.place? k = some p)
    (hsample : p.belief.isComplete = false) :
    growFrontiers u.game (plies + 1) [k] a = .ok none a := by
  rw [growFrontiers]
  refine (Action.bind_of_ok (a := none) (t := a) ?_).trans rfl
  unfold growFrontier
  refine (Action.bind_of_ok (a := (some none, {})) (t := a) ?_).trans rfl
  rw [List.forIn_cons]
  refine (Action.bind_of_ok (a := ForInStep.done (some none, {})) (t := a) ?_).trans rfl
  simp only
  rw [Action.bind_of_ok (belief_run hp), hsample]
  rfl

/-- The nodes of a grown tree some plies below a place. -/
lemma frontier_nodesBelow {limit plies : Nat} (h : a.AllSound u)
    (hfrontier : Frontier u p j a.place? ids) :
    Frontier u p (j + plies) a.place? (a.nodesBelow limit plies ids) := by
  induction plies generalizing j ids with
  | zero => exact hfrontier
  | succ plies ih =>
    have hchildren : ids.foldl (fun (found : Found) id =>
        (((a.find? id).bind Node.edges).getD #[]).foldl (fun found e => found.note e.child) found) {} =
        ids.foldl (fun found id => found.noteAll ((a.edgesOf id).map Edge.child)) {} := by
      congr 1
      funext found id
      exact found.foldl_note_eq _
    rw [nodesBelow, hchildren]
    split
    · exact ⟨List.nodup_nil, fun x hx => by cases hx⟩
    · let children : NodeId → List NodeId := fun id => (a.edgesOf id).map Edge.child
      have hnodup := (@Found.Faithful.foldl_noteAll 0 _ Found.faithful_empty children ids).1.nodup
      have hnext := @ih _ (j + 1) ⟨hnodup, fun x hx => ?_⟩
      · rw [Nat.add_right_comm] at hnext
        exact hnext
      · obtain hx | ⟨k, hk, hx⟩ := (Found.faithful_empty.foldl_noteAll _ ids).2.1 hx
        · cases hx
        · obtain ⟨e, he, rfl⟩ := List.mem_map.1 hx
          obtain ⟨c, hc, -⟩ := hfrontier.place k hk
          rw [edgesOf_of_place? hc] at he
          exact hfrontier.child h hk hc he

/-! ## Nodes that agree with a view -/

/-- The worlds at a place, none if there is no such place. -/
def worldsAt (a : Arena R) (k : NodeId) : StateSet :=
  ((a.place? k).map fun c => c.belief.worlds).getD ∅

lemma worldsAt_of_place? (hc : a.place? k = some c) : a.worldsAt k = c.belief.worlds := by
  simp [worldsAt, hc]

/-- The states that show a role the given view. -/
def seeing (u : Upkeep) (role : Role) (view : View) (states : StateSet) : StateSet :=
  .ofList (states.toList.filter fun s => u.game.viewOf s role = view)

variable {role : Role} {view : View} {states : StateSet}

lemma mem_seeing {s : State} :
    s ∈ seeing u role view states ↔ s ∈ states ∧ u.game.viewOf s role = view := by
  rw [seeing, StateSet.mem_ofList, List.mem_filter, Std.ExtTreeSet.mem_toList, decide_eq_true_eq]

lemma agreeing?_eq (hstates : ∀ s ∈ states, u.states s) :
    agreeing? u.game role view states = .ok (seeing u role view states) := by
  let test : State → Except Fault Bool := fun s => return decide ((← u.game.view? s role) = view)
  have hfilter : ∀ l acc : List State, (∀ s ∈ l, u.states s) → List.filterAuxM test l acc =
      .ok ((l.filter fun s => u.game.viewOf s role = view).reverse ++ acc) := by
    intro l
    induction l with
    | nil => exact fun acc _ => rfl
    | cons s l ih =>
      intro acc hl
      have htest : test s = .ok (decide (u.game.viewOf s role = view)) := by
        simp only [test, u.answers.view? (hl s List.mem_cons_self) role]
        rfl
      have hrest := fun acc => ih acc fun t ht => hl t (List.mem_cons_of_mem _ ht)
      rw [List.filterAuxM, htest]
      change List.filterAuxM test l _ = _
      rw [hrest]
      by_cases hs : u.game.viewOf s role = view
      · simp [hs]
      · simp [hs]
  have hmem : ∀ s ∈ states.toList, u.states s := fun s hs => hstates s (Std.ExtTreeSet.mem_toList.1 hs)
  have hall : states.toList.filterM test =
      .ok (states.toList.filter fun s => u.game.viewOf s role = view) := by
    rw [List.filterM, hfilter _ [] hmem]
    simp [bind, Except.bind, pure, Except.pure]
  rw [agreeing?, hall]
  rfl

/-- The candidates are the nodes of a frontier with some worlds that show the view. -/
lemma candidates_run (hfrontier : Frontier u p j a.place? ids) (hsound : a.AllSound u) :
    candidates u.game role view ids a = .ok
      ((ids.map fun k => (k, seeing u role view (a.worldsAt k))).filter fun x => !x.2.isEmpty) a := by
  rw [candidates, Action.bind_of_ok
    (Action.mapM_yields (g := fun k => (k, seeing u role view (a.worldsAt k))) fun k hk => ?_)]
  · rfl
  · obtain ⟨c, hc, -⟩ := hfrontier.place k hk
    have hagreeing := @agreeing?_eq u role view _ (hsound.known k c hc).worlds
    rw [Action.bind_of_ok (belief_run hc), Action.bind_of_ok (Action.lift_of_ok hagreeing a),
      worldsAt_of_place? hc]
    rfl

/-- A node that holds all of the given states, of some nodes. -/
lemma soleHolder?_run (states : StateSet) (hplaces : ∀ k ∈ ids, ∃ c, a.place? k = some c) :
    ∃ r, soleHolder? ids states a = .ok r a ∧
      ∀ k, r = some k → k ∈ ids ∧ ∀ s ∈ states, s ∈ a.worldsAt k := by
  have hrun := Action.mapM_yields (s := a) (f := fun k => do
      return (k, (← belief (R := R) k).worlds)) (g := fun k => (k, a.worldsAt k)) (l := ids) fun k hk => by
    obtain ⟨c, hc⟩ := hplaces k hk
    rw [Action.bind_of_ok (belief_run hc), worldsAt_of_place? hc]
    rfl
  unfold soleHolder?
  rw [Action.bind_of_ok hrun]
  simp only
  cases hfilter : (ids.map fun k => (k, a.worldsAt k)).filter fun x =>
      states.toList.any fun s => x.2.contains s with
  | nil => exact ⟨none, rfl, fun k hk => by cases hk⟩
  | cons x rest =>
    cases rest with
    | cons y rest => exact ⟨none, rfl, fun k hk => by cases hk⟩
    | nil =>
      have hmem : x ∈ ids.map fun k => (k, a.worldsAt k) :=
        List.mem_of_mem_filter (hfilter ▸ List.mem_singleton_self _)
      obtain ⟨k, hk, rfl⟩ := List.mem_map.1 hmem
      refine ⟨_, rfl, fun y hy => ?_⟩
      split at hy
      · rename_i hall
        rw [Option.some.injEq] at hy
        subst hy
        refine ⟨hk, fun s hs => ?_⟩
        exact List.all_eq_true.1 hall s (Std.ExtTreeSet.mem_toList.2 hs)
      · cases hy

end Arena

end GameSearch
