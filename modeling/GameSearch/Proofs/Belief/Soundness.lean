import GameSearch.Proofs.Belief.Place
import GameSearch.Proofs.Evidence
import GameSearch.Proofs.Transitions

/-!
# Sound forests

A place is sound if its edges are the transitions out of its expanded worlds, less those that
disagree with the committed move, and if its children are what its edges say: one child for each
observation, whose worlds are the states that the edges to it lead to.  An operation makes some
places unsound for a while; `Arena.Sound` names the places that need not be sound.
-/

namespace GameSearch

/-- What is expected of the nodes of a forest, beyond what holds in any. -/
structure Upkeep where
  game : Game
  /-- The states that the worlds are taken from. -/
  states : State → Prop
  answers : game.AnswersOn states
  /-- Whether a node is committed to one move at most. -/
  steady : Prop
  /-- Whether the history of a child goes on from that of the node above it. -/
  recalls : Prop

/-- What a role observes of a transition. -/
def Game.observed (game : Game) (role : Role) (turn : Turn) (next : State) : Observation where
  move := turn.find? role
  inControl := next.isInControl role
  view := game.viewOf next role

lemma Game.AnswersOn.observation? {game : Game} {states : State → Prop} {next : State}
    (h : game.AnswersOn states) (hs : states next) (role : Role) (turn : Turn) :
    Arena.observation? game role turn next = .ok (game.observed role turn next) := by
  simp [Arena.observation?, Game.observed, h.view? hs, bind, Except.bind, pure, Except.pure]

namespace Place

variable {u : Upkeep} {id : NodeId} {p q c c' : Place} {e e' : Edge} {w : State} {T T' : Forest}
  {listed : State → List (Turn × State)}

/-- Two places differ at most in their worlds and in what is below them. -/
structure Akin (c c' : Place) : Prop where
  parent : c'.parent = c.parent
  depth : c'.depth = c.depth
  role : c'.role = c.role
  move : c'.move = c.move
  isComplete : c'.belief.isComplete = c.belief.isComplete
  standing : c'.belief.standing = c.belief.standing
  history : c'.belief.history = c.belief.history

lemma Akin.refl (c : Place) : c.Akin c := ⟨rfl, rfl, rfl, rfl, rfl, rfl, rfl⟩

lemma Akin.trans {d : Place} (h : c.Akin c') (h' : c'.Akin d) : c.Akin d :=
  ⟨h'.parent.trans h.parent, h'.depth.trans h.depth, h'.role.trans h.role, h'.move.trans h.move,
    h'.isComplete.trans h.isComplete, h'.standing.trans h.standing, h'.history.trans h.history⟩

/-- Two places differ at most in what is below them. -/
structure Alike (c c' : Place) : Prop extends Akin c c' where
  worlds : c'.belief.worlds = c.belief.worlds

lemma Alike.refl (c : Place) : c.Alike c := ⟨.refl c, rfl⟩

lemma Alike.trans {d : Place} (h : c.Alike c') (h' : c'.Alike d) : c.Alike d :=
  ⟨h.toAkin.trans h'.toAkin, h'.worlds.trans h.worlds⟩

lemma isVisible_eq_of_standing (h : c'.belief.standing = c.belief.standing) :
    c'.belief.isVisible = c.belief.isVisible := by
  simp only [Belief.isVisible, h]

lemma Akin.keyOf (h : c.Akin c') (w : State) (turn : Turn) : c'.keyOf w turn = c.keyOf w turn := by
  simp only [Place.keyOf, isVisible_eq_of_standing h.standing, h.role]

lemma Akin.accepts (h : c.Akin c') (turn : Turn) : c'.accepts turn = c.accepts turn := by
  simp only [Place.accepts, isVisible_eq_of_standing h.standing, h.role, h.move]

/-- The observation that an edge of a place stands for. -/
def seen (u : Upkeep) (p : Place) (e : Edge) : Observation := u.game.observed p.role e.turn e.next

lemma Akin.seen (h : c.Akin c') (e : Edge) : c'.seen u e = c.seen u e := by
  simp only [Place.seen, h.role]

/-- A state is one that the edges to a child lead to. -/
def LeadsTo (p : Place) (child : NodeId) (s : State) : Prop :=
  ∃ e ∈ p.edgeList, e.child = child ∧ e.next = s

/-- A place is the child that an observation leads to. -/
structure ChildOf (u : Upkeep) (id : NodeId) (p : Place) (o : Observation) (next : State → Prop)
    (c : Place) : Prop where
  parent : c.parent = some (Int.ofNat id)
  depth : c.depth = p.depth + 1
  role : c.role = p.role
  move : c.move = none
  isComplete : c.belief.isComplete = p.belief.isComplete
  standing : c.belief.standing = Node.standingOf o.inControl o.view
  worlds : ∀ s, s ∈ c.belief.worlds ↔ next s
  history : u.recalls → c.belief.history = Arena.childHistory p.belief.history p.depth p.role o

lemma ChildOf.congr {o : Observation} {next : State → Prop} (h : ChildOf u id p o next c)
    (hlike : c.Alike c') : ChildOf u id p o next c' where
  parent := hlike.parent.trans h.parent
  depth := hlike.depth.trans h.depth
  role := hlike.role.trans h.role
  move := hlike.move.trans h.move
  isComplete := hlike.isComplete.trans h.isComplete
  standing := hlike.standing.trans h.standing
  worlds s := by rw [hlike.worlds, h.worlds]
  history hr := hlike.history.trans (h.history hr)

lemma ChildOf.congr_parent {o : Observation} {next next' : State → Prop}
    (h : ChildOf u id p o next c) (hlike : p.Akin q) (hnext : ∀ s, next' s ↔ next s) :
    ChildOf u id q o next' c where
  parent := h.parent
  depth := by rw [h.depth, hlike.depth]
  role := by rw [h.role, hlike.role]
  move := h.move
  isComplete := by rw [h.isComplete, hlike.isComplete]
  standing := h.standing
  worlds s := by rw [h.worlds, hnext]
  history hr := by rw [h.history hr, hlike.history, hlike.depth, hlike.role]

/-- The owner of a place is committed, and perhaps not to the move that it was committed to first. -/
def Wavers (u : Upkeep) (p : Place) : Prop :=
  ¬u.steady ∧ p.move ≠ none ∧ p.belief.isVisible = true

lemma Akin.wavers (h : c.Akin c') (hw : c.Wavers u) : c'.Wavers u :=
  ⟨hw.1, by rw [h.move]; exact hw.2.1, (isVisible_eq_of_standing h.standing).trans hw.2.2⟩

/-- The edges of a place are made of the transitions given for each world, and its children are what
the edges say. -/
structure Fits (u : Upkeep) (T : Forest) (listed : State → List (Turn × State)) (id : NodeId)
    (p : Place) : Prop where
  keyed : ∀ e ∈ p.edgeList, ∃ w, e.key = p.keyOf w e.turn
  expanded : ∀ w ∈ p.belief.expanded, w ∈ p.belief.worlds
  pristine : p.edges = none → ∀ w, w ∉ p.belief.expanded
  out : ∀ w, p.out w = (listed w).filter (fun step => p.accepts step.1) ∨
    (p.Wavers u ∧ w ∈ p.belief.expanded ∧ p.out w = [])
  bucket : ∀ e ∈ p.edgeList, p.belief.buckets[p.seen u e]? = some e.child
  used : ∀ o child, p.belief.buckets[o]? = some child → ∃ e ∈ p.edgeList, p.seen u e = o
  same : ∀ e ∈ p.edgeList, ∀ e' ∈ p.edgeList, e.child = e'.child → p.seen u e = p.seen u e'
  child : ∀ e ∈ p.edgeList, ∃ c, T e.child = some c ∧
    ChildOf u id p (p.seen u e) (p.LeadsTo e.child) c

/-- The child for an observation is that of an edge that stands for it. -/
lemma Fits.edge_of_bucket {o : Observation} {child : NodeId} (h : p.Fits u T listed id)
    (hbucket : p.belief.buckets[o]? = some child) :
    ∃ e ∈ p.edgeList, p.seen u e = o ∧ e.child = child := by
  obtain ⟨e, he, hseen⟩ := h.used o child hbucket
  have hchild := h.bucket e he
  rw [hseen, hbucket, Option.some.injEq] at hchild
  exact ⟨e, he, hseen, hchild.symm⟩

/-- The transitions of the worlds that are expanded. -/
def done (u : Upkeep) (p : Place) (w : State) : List (Turn × State) :=
  if w ∈ p.belief.expanded then u.game.transitions w else []

abbrev Sound (u : Upkeep) (T : Forest) (id : NodeId) (p : Place) : Prop := p.Fits u T (p.done u) id

lemma Fits.congr (h : p.Fits u T listed id)
    (hlike : ∀ e ∈ p.edgeList, ∀ c, T e.child = some c → ∃ c', T' e.child = some c' ∧ c.Alike c') :
    p.Fits u T' listed id where
  keyed := h.keyed
  expanded := h.expanded
  pristine := h.pristine
  out := h.out
  bucket := h.bucket
  used := h.used
  same := h.same
  child e he := by
    obtain ⟨c, hc, hchild⟩ := h.child e he
    obtain ⟨c', hc', hlike⟩ := hlike e he c hc
    exact ⟨c', hc', hchild.congr hlike⟩

/-- Only those of the transitions matter that agree with the committed move. -/
lemma Fits.congr_listed {listed' : State → List (Turn × State)} (h : p.Fits u T listed id)
    (hlisted : ∀ x, ((listed' x).filter fun step => p.accepts step.1) =
      (listed x).filter fun step => p.accepts step.1) :
    p.Fits u T listed' id where
  keyed := h.keyed
  expanded := h.expanded
  pristine := h.pristine
  out x := by
    rw [hlisted]
    exact h.out x
  bucket := h.bucket
  used := h.used
  same := h.same
  child := h.child

/-- A place that was never expanded is sound. -/
lemma sound_of_pristine (hedges : p.edges = none) (hexpanded : p.belief.expanded = ∅)
    (hbuckets : p.belief.buckets = ∅) : p.Sound u T id := by
  have hlist := edgeList_of_none hedges
  have hnone : ∀ w, w ∉ p.belief.expanded := by simp [hexpanded]
  refine ⟨by simp [hlist], fun w hw => absurd hw (hnone w), fun _ => hnone, fun w => .inl ?_,
    by simp [hlist], by simp [hbuckets], by simp [hlist], by simp [hlist]⟩
  rw [out_of_edgeList_eq_nil hlist, done, if_neg (hnone w)]
  rfl

/-- The worlds of a place are states of the game, and its history ends at its ply. -/
structure Known (u : Upkeep) (p : Place) : Prop where
  worlds : ∀ s ∈ p.belief.worlds, u.states s
  history : p.belief.history.Recorded p.depth

lemma Known.congr (h : p.Known u) (hworlds : ∀ s ∈ q.belief.worlds, s ∈ p.belief.worlds)
    (hdepth : q.depth = p.depth) (hhistory : q.belief.history = p.belief.history) : q.Known u :=
  ⟨fun s hs => h.worlds s (hworlds s hs), by rw [hdepth, hhistory]; exact h.history⟩

lemma Akin.known (hakin : p.Akin q) (h : p.Known u)
    (hworlds : ∀ s ∈ q.belief.worlds, s ∈ p.belief.worlds) : q.Known u :=
  h.congr hworlds hakin.depth hakin.history

lemma mem_done {step : Turn × State} :
    step ∈ p.done u w ↔ w ∈ p.belief.expanded ∧ step ∈ u.game.transitions w := by
  unfold done
  split <;> simp_all

/-- An edge of a place is a transition out of one of its expanded worlds. -/
lemma Fits.edge (h : p.Sound u T id) (he : e ∈ p.edgeList) :
    ∃ w ∈ p.belief.expanded, e.key = p.keyOf w e.turn ∧ (e.turn, e.next) ∈ u.game.transitions w ∧
      p.accepts e.turn = true := by
  obtain ⟨w, hkey⟩ := h.keyed e he
  have hmem : (e.turn, e.next) ∈ p.out w := mem_out.2 ⟨e, he, by rw [hkey]; rfl, rfl, rfl⟩
  rcases h.out w with hout | ⟨-, -, hout⟩
  · rw [hout, List.mem_filter, mem_done] at hmem
    exact ⟨w, hmem.1.1, hkey, hmem.1.2, hmem.2⟩
  · rw [hout] at hmem
    cases hmem

end Place

namespace Forest

variable {T T' : Forest} {but : NodeId → Prop} {id : NodeId} {depth : Nat}

/-- Every place of a forest was one of another forest, with as many edges at least. -/
def Thins (T T' : Forest) : Prop :=
  ∀ x p', T' x = some p' → ∃ p, T x = some p ∧ p'.depth = p.depth ∧ p'.role = p.role ∧
    ∀ e ∈ p'.edgeList, e ∈ p.edgeList

/-- The exceptions are above a depth, and all places that edges lead from to a place are
exceptions. -/
structure Isolated (but : NodeId → Prop) (id : NodeId) (depth : Nat) (T : Forest) : Prop where
  above : ∀ x q, but x → T x = some q → q.depth < depth
  leads : ∀ x q, T x = some q → ¬but x → ∀ e ∈ q.edgeList, e.child ≠ id

lemma Isolated.congr (h : Isolated but id depth T) (hthins : Thins T T') : Isolated but id depth T' := by
  constructor
  · intro x q hx hq
    obtain ⟨p, hp, hdepth, -⟩ := hthins x q hq
    rw [hdepth]
    exact h.above x p hx hp
  · intro x q hq hx e he
    obtain ⟨p, hp, -, -, hsub⟩ := hthins x q hq
    exact h.leads x p hp hx e (hsub e he)

lemma Isolated.not_but {p : Place} (h : Isolated but id p.depth T) (hp : T id = some p) : ¬but id :=
  fun hid => absurd (h.above id p hid hp) (Nat.lt_irrefl _)

end Forest

namespace Arena

variable {R : Type} {u : Upkeep} {but : NodeId → Prop} {a : Arena R} {id : NodeId} {p c : Place}
  {e : Edge}

/-- Every place is sound, but perhaps for some. -/
structure Sound (u : Upkeep) (but : NodeId → Prop) (a : Arena R) : Prop where
  sane : a.Sane
  graded : ∀ id p e, a.place? id = some p → e ∈ p.edgeList →
    ∃ c, a.place? e.child = some c ∧ c.depth = p.depth + 1 ∧ c.role = p.role
  known : ∀ id p, a.place? id = some p → p.Known u
  kept : ∀ id p, a.place? id = some p → ¬but id → p.Sound u a.place? id

lemma sound_empty : (∅ : Arena R).Sound u but := by
  have hnone : ∀ id p, (∅ : Arena R).place? id = some p → False := fun id p h => by
    simp [place?, find?_empty] at h
  exact ⟨sane_empty, fun id p e h => (hnone id p h).elim, fun id p h => (hnone id p h).elim,
    fun id p h => (hnone id p h).elim⟩

lemma Sound.mono {but' : NodeId → Prop} (h : a.Sound u but) (hsub : ∀ id, but id → but' id) :
    a.Sound u but' :=
  ⟨h.sane, h.graded, h.known, fun id p hp hid => h.kept id p hp fun hb => hid (hsub id hb)⟩

lemma Sound.closed (h : a.Sound u but) : a.Closed := by
  intro id e he
  cases hp : a.place? id with
  | none =>
    rw [h.sane.edgesOf_eq_nil hp] at he
    cases he
  | some p =>
    rw [edgesOf_of_place? hp] at he
    obtain ⟨c, hc, -⟩ := h.graded id p e hp he
    exact h.sane.contains_iff.2 ⟨c, hc⟩

/-- The node above a place that an edge leads to is the one that the edge leads from. -/
lemma Sound.parent (h : a.Sound u but) (hp : a.place? id = some p) (hid : ¬but id)
    (he : e ∈ p.edgeList) (hc : a.place? e.child = some c) : c.parent = some (Int.ofNat id) := by
  obtain ⟨c', hc', hchild⟩ := (h.kept id p hp hid).child e he
  rw [hc, Option.some.injEq] at hc'
  rw [hc']
  exact hchild.parent

/-- A place that edges lead to only from an exception. -/
lemma Sound.isolated_child {k : NodeId} (h : a.Sound u fun x => but x ∨ x = id)
    (hp : a.place? id = some p) (hc : a.place? k = some c) (hparent : c.parent = some (Int.ofNat id))
    (hdepth : c.depth = p.depth + 1) (hbut : ∀ x q, but x → a.place? x = some q → q.depth < p.depth) :
    Forest.Isolated (fun x => but x ∨ x = id) k c.depth a.place? := by
  constructor
  · rintro x q (hx | rfl) hq
    · have := hbut x q hx hq
      omega
    · rw [hp, Option.some.injEq] at hq
      rw [← hq]
      omega
  · intro x q hq hx e he heq
    have hx' := h.parent hq hx he (heq ▸ hc)
    rw [hparent, Option.some.injEq] at hx'
    exact hx (.inr (Int.ofNat.inj hx').symm)

/-- No edge leads from a place to itself. -/
lemma Sound.child_ne (h : a.Sound u but) (hp : a.place? id = some p) (he : e ∈ p.edgeList) :
    e.child ≠ id := by
  intro heq
  obtain ⟨c, hc, hdepth, -⟩ := h.graded id p e hp he
  rw [heq, hp, Option.some.injEq] at hc
  rw [hc] at hdepth
  omega

abbrev AllSound (u : Upkeep) (a : Arena R) : Prop := a.Sound u fun _ => False

/-- A place is changed: it loses its soundness at first, and so do those above it unless what they
rely on is the same. -/
lemma Sound.touch {a' : Arena R} {p' : Place} (h : a.Sound u but) (hp : a.place? id = some p)
    (hsane : a'.Sane) (hplaces : a'.place? = Function.update a.place? id (some p'))
    (hdepth : p'.depth = p.depth) (hrole : p'.role = p.role)
    (hknown : p'.Known u)
    (hedges : ∀ e ∈ p'.edgeList, e ∈ p.edgeList)
    (habove : p.Alike p' ∨
      ∀ x q, a.place? x = some q → ¬but x → ∀ e ∈ q.edgeList, e.child ≠ id) :
    a'.Sound u fun x => but x ∨ x = id := by
  have hself : a'.place? id = some p' := by rw [hplaces, Function.update_self]
  have hother : ∀ x, x ≠ id → a'.place? x = a.place? x := fun x hx => by
    rw [hplaces, Function.update_of_ne hx]
  have hbelow : ∀ {x q e}, a.place? x = some q → e ∈ q.edgeList →
      ∃ c, a'.place? e.child = some c ∧ c.depth = q.depth + 1 ∧ c.role = q.role := by
    intro x q e hq he
    obtain ⟨c, hc, hcdepth, hcrole⟩ := h.graded x q e hq he
    by_cases heid : e.child = id
    · rw [heid, hp, Option.some.injEq] at hc
      exact ⟨p', by rw [heid, hself], by rw [hdepth, hc, hcdepth], by rw [hrole, hc, hcrole]⟩
    · exact ⟨c, by rw [hother _ heid, hc], hcdepth, hcrole⟩
  refine ⟨hsane, ?_, ?_, ?_⟩
  · intro x q e hq he
    by_cases hx : x = id
    · rw [hx, hself, Option.some.injEq] at hq
      rw [← hq] at he ⊢
      rw [hdepth, hrole]
      exact hbelow hp (hedges e he)
    · rw [hother x hx] at hq
      exact hbelow hq he
  · intro x q hq
    by_cases hx : x = id
    · rw [hx, hself, Option.some.injEq] at hq
      rw [← hq]
      exact hknown
    · rw [hother x hx] at hq
      exact h.known x q hq
  · intro x q hq hx
    obtain ⟨hbut, hx⟩ := not_or.1 hx
    rw [hother x hx] at hq
    refine (h.kept x q hq hbut).congr fun e he c hc => ?_
    by_cases heid : e.child = id
    · rcases habove with hlike | hfree
      · rw [heid, hp, Option.some.injEq] at hc
        rw [heid, ← hc]
        exact ⟨p', hself, hlike⟩
      · exact absurd heid (hfree x q hq hbut e he)
    · exact ⟨c, by rw [hother _ heid, hc], .refl c⟩

/-- A place that is sound is no exception. -/
lemma Sound.settle (h : a.Sound u fun x => but x ∨ x = id) (hp : a.place? id = some p)
    (hsound : p.Sound u a.place? id) : a.Sound u but := by
  refine ⟨h.sane, h.graded, h.known, fun x q hq hx => ?_⟩
  by_cases hxid : x = id
  · rw [hxid, hp, Option.some.injEq] at hq
    rw [hxid, ← hq]
    exact hsound
  · exact h.kept x q hq (not_or.2 ⟨hx, hxid⟩)

end Arena

end GameSearch
