import GameSearch.Proofs.Belief.Soundness

/-!
# Expansion of beliefs

The expansion of a world adds its transitions one at a time.  While that goes on, the place is sound
but for the world, whose edges are those of the transitions added so far: `Arena.Expanding` is the
invariant of the loop, `addTransition_yields` its step.  `Forest.Grows` is what expansion leaves as
it is.
-/

namespace GameSearch

/-! ## Growth -/

namespace Place

variable {c c' d : Place}

/-- A place has at least the worlds and the edges of another one, and is akin to it. -/
structure Extends (c c' : Place) : Prop extends Akin c c' where
  worlds : ∀ w ∈ c.belief.worlds, w ∈ c'.belief.worlds
  expanded : ∀ w ∈ c.belief.expanded, w ∈ c'.belief.expanded
  edges : c.edgeList <+: c'.edgeList

lemma Extends.refl (c : Place) : c.Extends c :=
  ⟨.refl c, fun _ h => h, fun _ h => h, List.prefix_refl _⟩

lemma Extends.trans (h : c.Extends c') (h' : c'.Extends d) : c.Extends d :=
  ⟨h.toAkin.trans h'.toAkin, fun w hw => h'.worlds w (h.worlds w hw),
    fun w hw => h'.expanded w (h.expanded w hw), h.edges.trans h'.edges⟩

/-- Some world of a place is expanded. -/
def Begun (c : Place) : Prop := ∃ w, w ∈ c.belief.expanded

lemma Extends.begun (h : c.Extends c') (hbegun : c.Begun) : c'.Begun := hbegun.imp h.expanded

end Place

/-- The places of a forest are still there in another one, with more worlds or edges; edges have been
added at some places only, and worlds only below a depth in the trees of a role. -/
def Forest.Grows (touched : NodeId → Prop) (role : Role) (depth : Nat) (T T' : Forest) : Prop :=
  ∀ id c, T id = some c → ∃ c', T' id = some c' ∧ c.Extends c' ∧
    (touched id ∨ c'.edges = c.edges ∧ c'.belief.expanded = c.belief.expanded) ∧
    (c.role = role ∧ depth < c.depth ∨ c'.belief.worlds = c.belief.worlds)

namespace Forest.Grows

variable {T T' T'' : Forest} {x₁ x₂ x₃ : NodeId → Prop} {role : Role} {i j : Nat}

lemma refl : Forest.Grows x₁ role i T T :=
  fun _ c hc => ⟨c, hc, .refl c, .inr ⟨rfl, rfl⟩, .inr rfl⟩

lemma trans (h : Forest.Grows x₁ role i T T') (h' : Forest.Grows x₂ role j T' T'')
    (h₁ : ∀ id, x₁ id → x₃ id) (h₂ : ∀ id, x₂ id → x₃ id) {k : Nat} (hi : k ≤ i) (hj : k ≤ j) :
    Forest.Grows x₃ role k T T'' := by
  intro id c hc
  obtain ⟨c', hc', hext, hedges, hworlds⟩ := h id c hc
  obtain ⟨c'', hc'', hext', hedges', hworlds'⟩ := h' id c' hc'
  refine ⟨c'', hc'', hext.trans hext', ?_, ?_⟩
  · rcases hedges with hat | ⟨he, hx⟩
    · exact .inl (h₁ id hat)
    · rcases hedges' with hat | ⟨he', hx'⟩
      · exact .inl (h₂ id hat)
      · exact .inr ⟨he'.trans he, hx'.trans hx⟩
  · rcases hworlds with ⟨hr, hd⟩ | hw
    · exact .inl ⟨hr, by omega⟩
    · rcases hworlds' with ⟨hr, hd⟩ | hw'
      · rw [hext.role] at hr
        rw [hext.depth] at hd
        exact .inl ⟨hr, by omega⟩
      · exact .inr (hw'.trans hw)

lemma mono (h : Forest.Grows x₁ role i T T') (h₁ : ∀ id, x₁ id → x₂ id) (hi : j ≤ i) :
    Forest.Grows x₂ role j T T' :=
  h.trans refl h₁ (fun _ h => h) hi (Nat.le_refl j)

/-- A forest grows if it changes at one place, whose worlds stay the same. -/
lemma update {id : NodeId} {p p' : Place} (hp : T id = some p) (hextends : p.Extends p')
    (hworlds : p'.belief.worlds = p.belief.worlds) :
    Forest.Grows (· = id) role i T (Function.update T id (some p')) := by
  intro x c hc
  by_cases hx : x = id
  · rw [hx, hp, Option.some.injEq] at hc
    rw [hx, Function.update_self, ← hc]
    exact ⟨p', rfl, hextends, .inl rfl, .inr hworlds⟩
  · rw [Function.update_of_ne hx]
    exact ⟨c, hc, .refl c, .inr ⟨rfl, rfl⟩, .inr rfl⟩

end Forest.Grows

/-- The place where edges were added has the same worlds as before. -/
lemma Forest.Grows.extended {T T' : Forest} {touched : NodeId → Prop} {id : NodeId} {p q : Place}
    (h : Forest.Grows touched p.role p.depth T T') (hp : T id = some p) (hq : T' id = some q) :
    p.Extends q ∧ p.Alike q := by
  obtain ⟨r, hr, hextends, -, hworlds⟩ := h id p hp
  rw [hq, Option.some.injEq] at hr
  subst hr
  rcases hworlds with ⟨-, hlt⟩ | hworlds
  · omega
  · exact ⟨hextends, hextends.toAkin, hworlds⟩

/-! ## One transition -/

namespace Place

variable {u : Upkeep} {id : NodeId} {p p' c : Place} {e : Edge} {o : Observation} {w next : State}
  {T T' : Forest} {listed : State → List (Turn × State)}

/-- A place has one more edge. -/
structure Gains (p : Place) (o : Observation) (e : Edge) (p' : Place) : Prop where
  alike : p.Alike p'
  expanded : p'.belief.expanded = p.belief.expanded
  pristine : p'.edges ≠ none
  edges : p'.edgeList = p.edgeList ++ [e]
  buckets : ∀ o', p'.belief.buckets[o']? = if o' = o then some e.child else p.belief.buckets[o']?

lemma Gains.out (h : p.Gains o e p') (x : State) :
    p'.out x = p.out x ++ if e.key.world = some x then [(e.turn, e.next)] else [] := by
  simp only [Place.out, h.edges, List.filter_append, List.map_append, List.filter_singleton]
  by_cases hx : e.key.world = some x <;> simp [hx]

lemma Gains.leadsTo (h : p.Gains o e p') (child : NodeId) (s : State) :
    p'.LeadsTo child s ↔ p.LeadsTo child s ∨ (e.child = child ∧ e.next = s) := by
  simp only [LeadsTo, h.edges, List.mem_append, List.mem_singleton, or_and_right, exists_or,
    exists_eq_left]

lemma Gains.mem (h : p.Gains o e p') {x : Edge} : x ∈ p'.edgeList ↔ x ∈ p.edgeList ∨ x = e := by
  simp [h.edges]

lemma Gains.extends (h : p.Gains o e p') : p.Extends p' where
  toAkin := h.alike.toAkin
  worlds s hs := by rwa [h.alike.worlds]
  expanded s hs := by rwa [h.expanded]
  edges := by
    rw [h.edges]
    exact List.prefix_append _ _

/-- A place gains an edge once the child of the edge is noted for its observation. -/
lemma gains_push {q : Place} (hpristine : p.edges ≠ none) (hlike : p.Alike q)
    (hexpanded : q.belief.expanded = p.belief.expanded) (hedges : q.edges = p.edges)
    (hbuckets : ∀ o', q.belief.buckets[o']? = if o' = o then some e.child else p.belief.buckets[o']?) :
    p.Gains o e { q with edges := q.edges.map (·.push e) } := by
  obtain ⟨edges, hsome⟩ := Option.ne_none_iff_exists'.1 hpristine
  refine ⟨⟨⟨hlike.parent, hlike.depth, hlike.role, hlike.move, hlike.isComplete, hlike.standing,
    hlike.history⟩, hlike.worlds⟩, hexpanded, ?_, ?_, hbuckets⟩
  · simp [hedges, hsome]
  · simp [Place.edgeList, hedges, hsome]

/-- Where an edge leads to the child for its observation, all the edges to that child stand for the
same observation. -/
lemma Fits.seen_eq (h : p.Fits u T listed id)
    (hbucket : p.belief.buckets[p.seen u e]? = some e.child ∨
      p.belief.buckets[p.seen u e]? = none ∧ ∀ e' ∈ p.edgeList, e'.child ≠ e.child)
    {x : Edge} (hx : x ∈ p.edgeList) (heq : x.child = e.child) : p.seen u x = p.seen u e := by
  rcases hbucket with hsome | ⟨-, hfree⟩
  · obtain ⟨y, hy, hseen, hchild⟩ := h.edge_of_bucket hsome
    rw [← hseen]
    exact h.same x hx y hy (heq.trans hchild.symm)
  · exact absurd heq (hfree x hx)

/-- An edge for a further transition out of a world makes the edges those of the transitions out of it
up to that one. -/
lemma Fits.out_gains (h : p.Fits u T listed id) (hgains : p.Gains o e p')
    (hkey : e.key = p.keyOf w e.turn) (haccepts : p.accepts e.turn = true)
    (hw : w ∉ p.belief.expanded) (x : State) :
    p'.out x = (Function.update listed w (listed w ++ [(e.turn, e.next)]) x).filter
        (fun step => p'.accepts step.1) ∨
      (p'.Wavers u ∧ x ∈ p'.belief.expanded ∧ p'.out x = []) := by
  have hakin := hgains.alike.toAkin
  have haccepts' : (fun step : Turn × State => p'.accepts step.1) = fun step => p.accepts step.1 :=
    funext fun step => hakin.accepts step.1
  have hworld : e.key.world = some w := by rw [hkey]; rfl
  rw [hgains.out, hgains.expanded, haccepts', hworld]
  by_cases hx : x = w
  · subst hx
    rw [Function.update_self, List.filter_append]
    rcases h.out x with hout | ⟨-, hin, -⟩
    · exact .inl (by simp [hout, haccepts])
    · exact absurd hin hw
  · rw [Function.update_of_ne hx, if_neg (by simpa using Ne.symm hx), List.append_nil]
    exact (h.out x).imp_right fun ⟨hwavers, hrest⟩ => ⟨hakin.wavers hwavers, hrest⟩

/-- An edge to the child for its observation keeps a place as it should be. -/
theorem Fits.gains (h : p.Fits u T listed id) (hgains : p.Gains (p.seen u e) e p')
    (hkey : e.key = p.keyOf w e.turn) (haccepts : p.accepts e.turn = true)
    (hw : w ∉ p.belief.expanded)
    (hbucket : p.belief.buckets[p.seen u e]? = some e.child ∨
      p.belief.buckets[p.seen u e]? = none ∧ ∀ e' ∈ p.edgeList, e'.child ≠ e.child)
    (hothers : ∀ e' ∈ p.edgeList, e'.child ≠ e.child → ∀ c, T e'.child = some c →
      ∃ c', T' e'.child = some c' ∧ c.Alike c')
    (hchild : ∃ c, T' e.child = some c ∧ ChildOf u id p (p.seen u e) (p'.LeadsTo e.child) c) :
    p'.Fits u T' (Function.update listed w (listed w ++ [(e.turn, e.next)])) id where
  keyed x hx := by
    rcases hgains.mem.1 hx with hx | rfl
    · obtain ⟨y, hy⟩ := h.keyed x hx
      exact ⟨y, by rw [hy, hgains.alike.keyOf]⟩
    · exact ⟨w, by rw [hkey, hgains.alike.keyOf]⟩
  expanded x hx := by
    rw [hgains.expanded] at hx
    rw [hgains.alike.worlds]
    exact h.expanded x hx
  pristine hnone := absurd hnone hgains.pristine
  out := h.out_gains hgains hkey haccepts hw
  bucket x hx := by
    rw [hgains.alike.seen, hgains.buckets]
    rcases hgains.mem.1 hx with hx | rfl
    · split
      · rename_i heq
        rcases hbucket with hsome | ⟨hnone, -⟩
        · rw [← h.bucket x hx, heq, hsome]
        · rw [← heq, h.bucket x hx] at hnone
          cases hnone
      · exact h.bucket x hx
    · rw [if_pos rfl]
  used o' child hchild' := by
    rw [hgains.buckets] at hchild'
    split at hchild'
    · rename_i heq
      exact ⟨e, hgains.mem.2 (.inr rfl), by rw [hgains.alike.seen, heq]⟩
    · obtain ⟨x, hx, hxo⟩ := h.used o' child hchild'
      exact ⟨x, hgains.mem.2 (.inl hx), by rw [hgains.alike.seen, hxo]⟩
  same x hx y hy heq := by
    rw [hgains.alike.seen, hgains.alike.seen]
    rcases hgains.mem.1 hx with hx | rfl
    · rcases hgains.mem.1 hy with hy | rfl
      · exact h.same x hx y hy heq
      · exact h.seen_eq hbucket hx heq
    · rcases hgains.mem.1 hy with hy | rfl
      · exact (h.seen_eq hbucket hy heq.symm).symm
      · rfl
  child x hx := by
    rw [hgains.alike.seen]
    by_cases heq : x.child = e.child
    · obtain ⟨c, hc, hof⟩ := hchild
      have hseen : p.seen u x = p.seen u e := by
        rcases hgains.mem.1 hx with hx | rfl
        · exact h.seen_eq hbucket hx heq
        · rfl
      rw [hseen, heq]
      exact ⟨c, hc, hof.congr_parent hgains.alike.toAkin fun _ => Iff.rfl⟩
    · have hx : x ∈ p.edgeList := by
        rcases hgains.mem.1 hx with hx | rfl
        · exact hx
        · exact absurd rfl heq
      obtain ⟨c, hc, hof⟩ := h.child x hx
      obtain ⟨c', hc', hlike⟩ := hothers x hx heq c hc
      refine ⟨c', hc', (hof.congr hlike).congr_parent hgains.alike.toAkin fun s => ?_⟩
      rw [hgains.leadsTo]
      simp [Ne.symm heq]

/-- The child for an observation that was not made before. -/
def offspring (id : NodeId) (p : Place) (o : Observation) (next : State) : Place where
  parent := some (Int.ofNat id)
  depth := p.depth + 1
  role := p.role
  belief := {
    worlds := {next}
    history := Arena.childHistory p.belief.history p.depth p.role o
    isComplete := p.belief.isComplete
    standing := Node.standingOf o.inControl o.view
    nonempty := StateSet.isEmpty_singleton next }

lemma childOf_offspring {next' : State → Prop} (h : ∀ s, next' s ↔ s = next) :
    ChildOf u id p o next' (p.offspring id o next) :=
  ⟨rfl, rfl, rfl, rfl, rfl, rfl, fun s => by rw [h]; exact StateSet.mem_singleton, fun _ => rfl⟩

lemma extends_addWorld (c : Place) (s : State) :
    c.Extends { c with belief := c.belief.addWorld s } :=
  ⟨⟨rfl, rfl, rfl, rfl, rfl, rfl, rfl⟩, fun _ hw => StateSet.mem_insert.2 (.inr hw),
    fun _ hw => hw, List.prefix_refl _⟩

lemma Sound.addWorld (h : c.Sound u T id) (s : State) :
    Place.Sound u T id { c with belief := c.belief.addWorld s } := by
  refine ⟨h.keyed, fun w hw => StateSet.mem_insert.2 (.inr (h.expanded w hw)), h.pristine, h.out,
    h.bucket, h.used, h.same, fun e he => ?_⟩
  obtain ⟨d, hd, hof⟩ := h.child e he
  exact ⟨d, hd, hof.congr_parent (extends_addWorld c s).toAkin fun _ => Iff.rfl⟩

lemma ChildOf.addWorld {next' next'' : State → Prop} (h : ChildOf u id p o next' c)
    (hnext : ∀ s, next'' s ↔ next' s ∨ s = next) :
    ChildOf u id p o next'' { c with belief := c.belief.addWorld next } where
  parent := h.parent
  depth := h.depth
  role := h.role
  move := h.move
  isComplete := h.isComplete
  standing := h.standing
  history := h.history
  worlds s := by
    rw [hnext, ← h.worlds, or_comm]
    exact StateSet.mem_insert

end Place

namespace Node

variable {R : Type}

/-- A node for a belief is one without edges. -/
lemma belief?_yields (parent : Option Int) {depth : Int} (hdepth : 0 ≤ depth) (role : Role)
    {worlds : StateSet} (h : worlds.isEmpty = false) (isComplete : Bool) (standing : Standing) :
    (belief? parent depth role worlds isComplete standing : Except Fault (Node R)) =
      .ok (Place.toNode ⟨parent, depth.toNat, role, ⟨worlds, ∅, ∅, ∅, isComplete, standing, h⟩, none,
        none⟩ none) := by
  simp [belief?, depth?, Int.not_lt.2 hdepth, h, Place.toNode, bind, Except.bind, pure, Except.pure]

end Node

namespace Arena

variable {R : Type} {u : Upkeep} {a : Arena R} {id : NodeId} {p c : Place} {o : Observation}
  {next w : State} {turn : Turn} {but : NodeId → Prop} {step : Turn × State}
  {before : List (Turn × State)}

/-- The first transition with an observation makes a child for it. -/
lemma addBeliefChild_yields (hsane : a.Sane) (hp : a.place? id = some p) (o : Observation)
    (next : State) :
    ∃ child a', addBeliefChild id p.depth p.role p.belief.isComplete p.belief.history o next a =
        .ok child a' ∧ a.place? child = none ∧ a'.Sane ∧
      a'.place? = Function.update (Function.update a.place? child (some (p.offspring id o next))) id
        (some { p with belief := { p.belief with buckets := p.belief.buckets.insert o child } }) := by
  have hne : ({next} : StateSet).isEmpty = false := StateSet.isEmpty_singleton next
  have hbelief := Node.belief?_yields (R := R) (some (Int.ofNat id))
    (Int.natCast_nonneg (p.depth + 1)) p.role hne p.belief.isComplete
    (Node.standingOf o.inControl o.view)
  let q : Place := ⟨some (Int.ofNat id), p.depth + 1, p.role,
    ⟨{next}, ∅, ∅, ∅, p.belief.isComplete, Node.standingOf o.inControl o.view, hne⟩, none, none⟩
  obtain ⟨child, a₁, hadd, hnone, hsane₁, hplaces₁⟩ := add_place_yields hsane q
  have hchild : a₁.place? child = some q := by rw [hplaces₁, Function.update_self]
  obtain ⟨a₂, hrun₂, hsane₂, hplaces₂⟩ := changeBelief_yields
    (fun b => { b with history := childHistory p.belief.history p.depth p.role o }) hsane₁ hchild
  have hne' : id ≠ child := by
    rintro rfl
    rw [hp] at hnone
    cases hnone
  have hid : a₂.place? id = some p := by
    rw [hplaces₂, Function.update_of_ne hne', hplaces₁, Function.update_of_ne hne', hp]
  obtain ⟨a₃, hrun₃, hsane₃, hplaces₃⟩ := changeBelief_yields
    (fun b => { b with buckets := b.buckets.insert o child }) hsane₂ hid
  refine ⟨child, a₃, ?_, hnone, hsane₃, ?_⟩
  · have hadd' : add (Node.belief? (some (Int.ofNat id)) ((p.depth : Int) + 1) p.role {next}
        p.belief.isComplete (Node.standingOf o.inControl o.view)) a = .ok child a₁ := by
      rw [← hadd]
      exact congrArg (fun n => add n a) hbelief
    unfold addBeliefChild
    rw [Action.bind_of_ok hadd', Action.bind_of_ok hrun₂, Action.bind_of_ok hrun₃]
    rfl
  · rw [hplaces₃, hplaces₂, hplaces₁, Function.update_idem]
    rfl

/-- Soundness but for one place, when that place and one below it change. -/
lemma Sound.rewrite {a' : Arena R} {k : NodeId} {p' c' : Place} (h : a.Sound u (· = id))
    (hp : a.place? id = some p) (hk : k ≠ id) (hsane : a'.Sane)
    (hplaces : a'.place? = Function.update (Function.update a.place? k (some c')) id (some p'))
    (hlike : p.Alike p') (hc' : c'.Sound u a'.place? k) (hknown : c'.Known u)
    (hfree : ∀ x q, a.place? x = some q → x ≠ id → ∀ e ∈ q.edgeList, e.child ≠ k)
    (hgraded : ∀ e ∈ p'.edgeList, ∃ c, a'.place? e.child = some c ∧ c.depth = p'.depth + 1 ∧
      c.role = p'.role) : a'.Sound u (· = id) := by
  have hself : a'.place? id = some p' := by rw [hplaces, Function.update_self]
  have hchild : a'.place? k = some c' := by
    rw [hplaces, Function.update_of_ne hk, Function.update_self]
  have hother : ∀ x, x ≠ id → x ≠ k → a'.place? x = a.place? x := fun x hx hxk => by
    rw [hplaces, Function.update_of_ne hx, Function.update_of_ne hxk]
  -- No place but `id` leads to `k`, so what the others lead to is as it was.
  have hbelow : ∀ x q, a.place? x = some q → x ≠ id → ∀ e ∈ q.edgeList, ∀ c,
      a.place? e.child = some c → ∃ c', a'.place? e.child = some c' ∧ c.Alike c' := by
    intro x q hq hx e he c hc
    by_cases heid : e.child = id
    · rw [heid, hp, Option.some.injEq] at hc
      rw [← hc, heid]
      exact ⟨p', hself, hlike⟩
    · exact ⟨c, by rw [hother _ heid (hfree x q hq hx e he), hc], .refl c⟩
  refine ⟨hsane, ?_, ?_, ?_⟩
  · intro x q e hq he
    by_cases hx : x = id
    · rw [hx, hself, Option.some.injEq] at hq
      rw [← hq] at he ⊢
      exact hgraded e he
    · by_cases hxk : x = k
      · rw [hxk, hchild, Option.some.injEq] at hq
        rw [← hq] at he ⊢
        obtain ⟨c, hc, hof⟩ := hc'.child e he
        exact ⟨c, hc, hof.depth, hof.role⟩
      · rw [hother x hx hxk] at hq
        obtain ⟨c, hc, hdepth, hrole⟩ := h.graded x q e hq he
        obtain ⟨c', hc', hlike'⟩ := hbelow x q hq hx e he c hc
        exact ⟨c', hc', by rw [hlike'.depth, hdepth], by rw [hlike'.role, hrole]⟩
  · intro x q hq
    by_cases hx : x = id
    · rw [hx, hself, Option.some.injEq] at hq
      rw [← hq]
      exact hlike.toAkin.known (h.known id p hp) fun s hs => hlike.worlds ▸ hs
    · by_cases hxk : x = k
      · rw [hxk, hchild, Option.some.injEq] at hq
        exact hq ▸ hknown
      · rw [hother x hx hxk] at hq
        exact h.known x q hq
  · intro x q hq hx
    by_cases hxk : x = k
    · rw [hxk, hchild, Option.some.injEq] at hq
      rw [hxk, ← hq]
      exact hc'
    · rw [hother x hx hxk] at hq
      exact (h.kept x q hq hx).congr (hbelow x q hq hx)

/-- A world is being expanded: so far the given transitions out of it have been added. -/
structure Expanding (u : Upkeep) (id : NodeId) (w : State) (before : List (Turn × State))
    (a : Arena R) (p : Place) : Prop where
  sound : a.Sound u (· = id)
  place : a.place? id = some p
  fits : p.Fits u a.place? (Function.update (p.done u) w before) id
  world : w ∈ p.belief.worlds
  fresh : w ∉ p.belief.expanded
  pristine : p.edges ≠ none

/-- The child for an observation exists, and has the next state among its worlds. -/
lemma childFor_yields (h : a.Sound u (· = id)) (hp : a.place? id = some p)
    {listed : State → List (Turn × State)} (hfits : p.Fits u a.place? listed id) (v : Option (Valuation R))
    (o : Observation) (next : State) :
    ∃ k a' c' q, childFor id (p.toNode v) p.belief o next a = .ok k a' ∧ a'.Sane ∧ k ≠ id ∧
      a'.place? = Function.update (Function.update a.place? k (some c')) id (some q) ∧
      p.Alike q ∧ q.belief.expanded = p.belief.expanded ∧ q.edges = p.edges ∧
      (∀ o', q.belief.buckets[o']? = if o' = o then some k else p.belief.buckets[o']?) ∧
      (p.belief.buckets[o]? = none ∧ a.place? k = none ∧ c' = p.offspring id o next ∨
        p.belief.buckets[o]? = some k ∧ ∃ c, a.place? k = some c ∧
          c' = { c with belief := c.belief.addWorld next }) := by
  unfold childFor
  cases hbucket : p.belief.buckets[o]? with
  | none =>
    obtain ⟨k, a', hrun, hnone, hsane, hplaces⟩ := addBeliefChild_yields h.sane hp o next
    refine ⟨k, a', _, _, hrun, hsane, ?_, hplaces, ⟨⟨rfl, rfl, rfl, rfl, rfl, rfl, rfl⟩, rfl⟩, rfl,
      rfl, ?_, .inl ⟨rfl, hnone, rfl⟩⟩
    · rintro rfl
      rw [hp] at hnone
      cases hnone
    · intro o'
      rw [Std.HashMap.getElem?_insert]
      by_cases ho : o' = o
      · simp [ho]
      · simp [ho, Ne.symm ho]
  | some k =>
    obtain ⟨e, he, -, hek⟩ := hfits.edge_of_bucket hbucket
    have hne : k ≠ id := hek ▸ h.child_ne hp he
    obtain ⟨c, hc, -, -⟩ := h.graded id p e hp he
    rw [hek] at hc
    obtain ⟨a', hrun, hsane, hplaces⟩ := changeBelief_yields (·.addWorld next) h.sane hc
    refine ⟨k, a', _, p, ?_, hsane, hne, ?_, .refl p, rfl, rfl, ?_, .inr ⟨rfl, c, hc, rfl⟩⟩
    · simp only
      rw [Action.bind_of_ok (belief_run hc), Action.bind_of_ok hrun]
      rfl
    · rw [hplaces]
      refine (Function.update_eq_self_iff.2 ?_).symm
      rw [Function.update_of_ne (Ne.symm hne), hp]
    · intro o'
      split
      · rename_i ho
        rw [ho, hbucket]
      · rfl

lemma Expanding.state (h : Expanding u id w before a p) (hstep : step ∈ u.game.transitions w) :
    u.states step.2 :=
  u.answers.closed w ((h.sound.known id p h.place).worlds w h.world) step hstep

/-- A transition that disagrees with the committed move is not added. -/
lemma Expanding.reject (h : Expanding u id w before a p) (hrejects : p.accepts step.1 = false) :
    Expanding u id w (before ++ [step]) a p := by
  refine ⟨h.sound, h.place, h.fits.congr_listed fun x => ?_, h.world, h.fresh, h.pristine⟩
  by_cases hx : x = w
  · rw [hx, Function.update_self, Function.update_self, List.filter_append]
    simp [hrejects]
  · rw [Function.update_of_ne hx, Function.update_of_ne hx]

/-- A place is the child that one more edge of another place leads to: it is as the edges to it say, and no
other edges lead there. -/
structure Receives (u : Upkeep) (id : NodeId) (e : Edge) (a a' : Arena R) (p p' c' : Place) : Prop where
  child : Place.ChildOf u id p (p.seen u e) (p'.LeadsTo e.child) c'
  sound : c'.Sound u a'.place? e.child
  known : c'.Known u
  free : ∀ x q, a.place? x = some q → x ≠ id → ∀ y ∈ q.edgeList, y.child ≠ e.child
  bucket : p.belief.buckets[p.seen u e]? = some e.child ∨
    p.belief.buckets[p.seen u e]? = none ∧ ∀ y ∈ p.edgeList, y.child ≠ e.child
  grows : ∀ c, a.place? e.child = some c → c.role = p.role ∧ p.depth < c.depth ∧ c.Extends c' ∧
    c'.edges = c.edges ∧ c'.belief.expanded = c.belief.expanded

/-- A new child receives the first state for an observation. -/
lemma Expanding.receives_offspring {a' : Arena R} {e : Edge} {p' : Place}
    (h : Expanding u id w before a p) (hgains : p.Gains (p.seen u e) e p')
    (hbucket : p.belief.buckets[p.seen u e]? = none) (hnone : a.place? e.child = none)
    (hnext : u.states e.next) :
    Receives u id e a a' p p' (p.offspring id (p.seen u e) e.next) := by
  -- An edge of a sound forest leads to a place, and there was none here.
  have hfree : ∀ x q, a.place? x = some q → ∀ y ∈ q.edgeList, y.child ≠ e.child := by
    intro x q hq y hy heq
    obtain ⟨c, hc, -⟩ := h.sound.graded x q y hq hy
    rw [heq, hnone] at hc
    cases hc
  refine ⟨Place.childOf_offspring fun s => ?_, Place.sound_of_pristine rfl rfl rfl, ?_,
    fun x q hq _ => hfree x q hq, .inr ⟨hbucket, hfree id p h.place⟩, ?_⟩
  · rw [hgains.leadsTo]
    constructor
    · rintro (⟨y, hy, heq, -⟩ | ⟨-, rfl⟩)
      · exact absurd heq (hfree id p h.place y hy)
      · rfl
    · rintro rfl
      exact .inr ⟨rfl, rfl⟩
  · refine ⟨fun s hs => ?_, (h.sound.known id p h.place).history.childHistory p.role _⟩
    rw [StateSet.mem_singleton.1 hs]
    exact hnext
  · intro c hc
    rw [hnone] at hc
    cases hc

/-- The child for an observation receives one more state. -/
lemma Expanding.receives_addWorld {a' : Arena R} {e : Edge} {p' : Place}
    (h : Expanding u id w before a p) (hgains : p.Gains (p.seen u e) e p') (hk : e.child ≠ id)
    (hother : ∀ x, x ≠ id → x ≠ e.child → a'.place? x = a.place? x)
    (hbucket : p.belief.buckets[p.seen u e]? = some e.child) (hc : a.place? e.child = some c)
    (hnext : u.states e.next) :
    Receives u id e a a' p p' { c with belief := c.belief.addWorld e.next } := by
  obtain ⟨y, hy, hyo, hychild⟩ := h.fits.edge_of_bucket hbucket
  obtain ⟨c₀, hc₀, hof⟩ := h.fits.child y hy
  rw [hychild, hc, Option.some.injEq] at hc₀
  subst hc₀
  rw [hyo, hychild] at hof
  refine ⟨hof.addWorld fun s => ?_, ?_, ?_, ?_, .inl hbucket, ?_⟩
  · rw [hgains.leadsTo]
    simp [eq_comm]
  · refine Place.Sound.addWorld ((h.sound.kept _ c hc hk).congr fun z hz d hd => ?_) e.next
    obtain ⟨d', hd', hdepth, -⟩ := h.sound.graded _ c z hc hz
    refine ⟨d, ?_, .refl d⟩
    -- The child is below the place and no place is below itself, so neither is its own child.
    rw [hother, hd]
    · intro hzid
      rw [hzid, h.place, Option.some.injEq] at hd'
      rw [← hd', hof.depth] at hdepth
      omega
    · exact h.sound.child_ne hc hz
  · have hknown := h.sound.known _ c hc
    refine ⟨fun s hs => ?_, hknown.history⟩
    rcases StateSet.mem_insert.1 hs with rfl | hs
    · exact hnext
    · exact hknown.worlds s hs
  · intro x q hq hx z hz hzk
    have hparent := h.sound.parent hq hx hz (hzk ▸ hc)
    rw [hof.parent, Option.some.injEq] at hparent
    exact hx (Int.ofNat.inj hparent).symm
  · intro d hd
    rw [hc, Option.some.injEq] at hd
    subst hd
    exact ⟨hof.role, by rw [hof.depth]; omega, Place.extends_addWorld c e.next, rfl, rfl⟩

/-- A forest grows by an edge and by what its child receives. -/
lemma Receives.forest_grows {a' : Arena R} {e : Edge} {c' p' : Place} (h : Receives u id e a a' p p' c')
    (hgains : p.Gains (p.seen u e) e p') (hp : a.place? id = some p) (hself : a'.place? id = some p')
    (hchild : a'.place? e.child = some c')
    (hother : ∀ x, x ≠ id → x ≠ e.child → a'.place? x = a.place? x) :
    Forest.Grows (· = id) p.role p.depth a.place? a'.place? := by
  intro x c hc
  by_cases hx : x = id
  · rw [hx, hp, Option.some.injEq] at hc
    rw [hx, ← hc]
    exact ⟨p', hself, hgains.extends, .inl rfl, .inr hgains.alike.worlds⟩
  · by_cases hxk : x = e.child
    · rw [hxk] at hc ⊢
      obtain ⟨hrole, hdepth, hext, hsame⟩ := h.grows c hc
      exact ⟨c', hchild, hext, .inr hsame, .inl ⟨hrole, hdepth⟩⟩
    · exact ⟨c, by rw [hother x hx hxk, hc], .refl c, .inr ⟨rfl, rfl⟩, .inr rfl⟩

/-- What one more transition does. -/
theorem addTransition_yields (h : Expanding u id w before a p)
    (hstep : step ∈ u.game.transitions w) :
    ∃ a' p', addTransition u.game id w step.1 step.2 a = .ok ⟨⟩ a' ∧
      Expanding u id w (before ++ [step]) a' p' ∧ p'.belief.expanded = p.belief.expanded ∧
      Forest.Grows (· = id) p.role p.depth a.place? a'.place? := by
  obtain ⟨turn, next⟩ := step
  obtain ⟨v, hnode⟩ := node_run h.place
  unfold addTransition
  rw [Action.bind_of_ok hnode, Action.bind_of_ok (belief_run h.place)]
  have hcommitted : ∀ k, (p.toNode v).isCommitted ⟨p.keyOf w turn, turn, next, k⟩ = p.accepts turn :=
    fun k => Node.isCommitted_toNode rfl v
  simp only [Node.keyOf_toNode, hcommitted, Place.toNode_role]
  cases haccepts : p.accepts turn with
  | false => exact ⟨a, p, rfl, h.reject haccepts, rfl, .refl⟩
  | true =>
    simp only [Bool.not_true, Bool.false_eq_true, if_false]
    have hobservation := u.answers.observation? (h.state hstep) p.role turn
    obtain ⟨k, a₁, c', q, hrun₁, hsane₁, hk, hplaces₁, hlike, hexpanded, hedges, hbuckets, hcase⟩ :=
      childFor_yields h.sound h.place h.fits v (u.game.observed p.role turn next) next
    have hq : a₁.place? id = some q := by rw [hplaces₁, Function.update_self]
    obtain ⟨a₂, hrun₂, hsane₂, hplaces₂⟩ := changeEdges_yields
      (Option.map (·.push ⟨p.keyOf w turn, turn, next, k⟩)) hsane₁ hq
    -- The child comes before the edge, so that the edge leads to a place from the start.
    let e : Edge := ⟨p.keyOf w turn, turn, next, k⟩
    let p' : Place := { q with edges := q.edges.map (·.push e) }
    have hplaces : a₂.place? = Function.update (Function.update a.place? k (some c')) id (some p') := by
      rw [hplaces₂, hplaces₁, Function.update_idem]
    have hgains : p.Gains (p.seen u e) e p' :=
      Place.gains_push h.pristine hlike hexpanded hedges hbuckets
    have hself : a₂.place? id = some p' := by rw [hplaces, Function.update_self]
    have hchild : a₂.place? k = some c' := by
      rw [hplaces, Function.update_of_ne hk, Function.update_self]
    have hother : ∀ x, x ≠ id → x ≠ k → a₂.place? x = a.place? x := fun x hx hxk => by
      rw [hplaces, Function.update_of_ne hx, Function.update_of_ne hxk]
    have hreceives : Receives u id e a a₂ p p' c' := by
      rcases hcase with ⟨hbucket, hnone, rfl⟩ | ⟨hbucket, c, hc, rfl⟩
      · exact h.receives_offspring hgains hbucket hnone (h.state hstep)
      · exact h.receives_addWorld hgains hk hother hbucket hc (h.state hstep)
    -- Of the children of the place, only the one that the new edge leads to has changed.
    have hfits := h.fits.gains hgains rfl haccepts h.fresh hreceives.bucket
      (fun x hx hne c hc =>
        ⟨c, by rw [hother _ (h.sound.child_ne h.place hx) hne, hc], .refl c⟩)
      ⟨c', hchild, hreceives.child⟩
    rw [Function.update_idem, Function.update_self] at hfits
    refine ⟨a₂, p', ?_, ⟨?_, hself, ?_, ?_, ?_, hgains.pristine⟩, hgains.expanded,
      hreceives.forest_grows hgains h.place hself hchild hother⟩
    · rw [Action.bind_of_ok (Action.lift_of_ok hobservation a), Action.bind_of_ok hrun₁]
      exact hrun₂
    · refine h.sound.rewrite h.place hk hsane₂ hplaces hgains.alike hreceives.sound hreceives.known
        hreceives.free fun x hx => ?_
      obtain ⟨c, hc, hof⟩ := hfits.child x hx
      exact ⟨c, hc, hof.depth, hof.role⟩
    · have hdone : p'.done u = p.done u := by
        funext x
        simp only [Place.done, hgains.expanded]
      rwa [hdone]
    · rw [hgains.alike.worlds]
      exact h.world
    · rw [hgains.expanded]
      exact h.fresh

/-! ## Worlds -/

/-- The expansion of a world begins. -/
lemma expanding_nil (h : a.AllSound u) (hp : a.place? id = some p) (hw : w ∈ p.belief.worlds)
    (hfresh : w ∉ p.belief.expanded) :
    ∃ a', change id (fun n => { n with edges := n.edges.or (some #[]) }) a = .ok ⟨⟩ a' ∧
      Expanding u id w [] a' { p with edges := p.edges.or (some #[]) } ∧
      Forest.Grows (· = id) p.role p.depth a.place? a'.place? := by
  obtain ⟨a', hrun, hsane, hplaces⟩ := changeEdges_yields (·.or (some #[])) h.sane hp
  let p' : Place := { p with edges := p.edges.or (some #[]) }
  have hlist : p'.edgeList = p.edgeList := by
    cases hedges : p.edges <;> simp [p', Place.edgeList, hedges]
  have hlike : p.Alike p' := ⟨⟨rfl, rfl, rfl, rfl, rfl, rfl, rfl⟩, rfl⟩
  have hself : a'.place? id = some p' := by rw [hplaces, Function.update_self]
  have hother : ∀ x, x ≠ id → a'.place? x = a.place? x := fun x hx => by
    rw [hplaces, Function.update_of_ne hx]
  have htouch := h.touch hp hsane hplaces rfl rfl (hlike.toAkin.known (h.known id p hp) fun _ hs => hs)
    (fun e he => hlist ▸ he) (.inl hlike)
  have hsound := h.kept id p hp (by simp)
  have hpristine : p'.edges ≠ none := by
    cases hedges : p.edges <;> simp [p', hedges]
  refine ⟨a', hrun, ⟨htouch.mono (by simp), hself, ?_, hw, hfresh, hpristine⟩, ?_⟩
  · have hdone : Function.update (p'.done u) w [] = p.done u := by
      refine Function.update_eq_self_iff.2 ?_
      rw [Place.done, if_neg hfresh]
    refine ⟨?_, hsound.expanded, fun hnone => absurd hnone hpristine, fun x => ?_, ?_, ?_, ?_, ?_⟩
    · rw [hlist]
      exact hsound.keyed
    · rw [hdone, Place.out_eq_of_edges_eq hlist]
      exact hsound.out x
    · rw [hlist]
      exact hsound.bucket
    · rw [hlist]
      exact hsound.used
    · rw [hlist]
      exact hsound.same
    · intro e he
      rw [hlist] at he
      obtain ⟨c, hc, hof⟩ := hsound.child e he
      refine ⟨c, by rw [hother _ (h.child_ne hp he), hc], hof.congr_parent hlike.toAkin fun s => ?_⟩
      change (∃ y ∈ p'.edgeList, _) ↔ _
      rw [hlist]
      rfl
  · rw [hplaces]
    exact .update hp ⟨hlike.toAkin, fun _ h => h, fun _ h => h, hlist ▸ List.prefix_refl _⟩ rfl

/-- The expansion of a world ends. -/
lemma Expanding.finish (h : Expanding u id w (u.game.transitions w) a p) :
    ∃ a', changeBelief id (fun b => { b with expanded := b.expanded.insert w }) a = .ok ⟨⟩ a' ∧
      a'.AllSound u ∧
      a'.place? id = some
        { p with belief := { p.belief with expanded := p.belief.expanded.insert w } } ∧
      Forest.Grows (· = id) p.role p.depth a.place? a'.place? := by
  obtain ⟨a', hrun, hsane, hplaces⟩ := changeBelief_yields
    (fun b => { b with expanded := b.expanded.insert w }) h.sound.sane h.place
  let p' : Place := { p with belief := { p.belief with expanded := p.belief.expanded.insert w } }
  have hlike : p.Alike p' := ⟨⟨rfl, rfl, rfl, rfl, rfl, rfl, rfl⟩, rfl⟩
  have hself : a'.place? id = some p' := by rw [hplaces, Function.update_self]
  have hother : ∀ x, x ≠ id → a'.place? x = a.place? x := fun x hx => by
    rw [hplaces, Function.update_of_ne hx]
  have hmem : ∀ x, x ∈ p'.belief.expanded ↔ x = w ∨ x ∈ p.belief.expanded :=
    fun x => StateSet.mem_insert
  have htouch := h.sound.touch h.place hsane hplaces rfl rfl
    (hlike.toAkin.known (h.sound.known id p h.place) fun _ hs => hs) (fun _ he => he) (.inl hlike)
  refine ⟨a', hrun, (htouch.mono (by simp)).settle hself ?_, hself, ?_⟩
  · have hdone : p'.done u = Function.update (p.done u) w (u.game.transitions w) := by
      funext x
      by_cases hx : x = w
      · rw [hx, Function.update_self, Place.done, if_pos ((hmem w).2 (.inl rfl))]
      · rw [Function.update_of_ne hx]
        simp only [Place.done, hmem, hx, false_or]
    refine ⟨h.fits.keyed, fun x hx => ?_, fun hnone => absurd hnone h.pristine, fun x => ?_,
      h.fits.bucket, h.fits.used, h.fits.same, fun e he => ?_⟩
    · rcases (hmem x).1 hx with rfl | hx
      · exact h.world
      · exact h.fits.expanded x hx
    · rw [hdone]
      rcases h.fits.out x with hout | ⟨hwavers, hx, hout⟩
      · exact .inl hout
      · exact .inr ⟨hwavers, (hmem x).2 (.inr hx), hout⟩
    · obtain ⟨c, hc, hof⟩ := h.fits.child e he
      exact ⟨c, by rw [hother _ (h.sound.child_ne h.place he), hc],
        hof.congr_parent hlike.toAkin fun _ => Iff.rfl⟩
  · rw [hplaces]
    exact .update h.place ⟨hlike.toAkin, fun _ h => h, fun y hy => (hmem y).2 (.inr hy),
      List.prefix_refl _⟩ rfl

/-- A place after some of its worlds were expanded. -/
structure Grown (u : Upkeep) (id : NodeId) (p : Place) (worlds : State → Prop) (a a' : Arena R)
    (p' : Place) : Prop where
  sound : a'.AllSound u
  place : a'.place? id = some p'
  expanded : ∀ x, x ∈ p'.belief.expanded ↔ x ∈ p.belief.expanded ∨ worlds x
  grows : Forest.Grows (· = id) p.role p.depth a.place? a'.place?

lemma Grown.extended {worlds : State → Prop} {a' : Arena R} {p' : Place}
    (h : Grown u id p worlds a a' p') (hp : a.place? id = some p) : p.Extends p' ∧ p.Alike p' :=
  h.grows.extended hp h.place

lemma Grown.refl {worlds : State → Prop} (h : a.AllSound u) (hp : a.place? id = some p)
    (hworlds : ∀ w, worlds w → w ∈ p.belief.expanded) : Grown u id p worlds a a p :=
  ⟨h, hp, fun x => (or_iff_left_of_imp (hworlds x)).symm, .refl⟩

lemma Grown.trans {worlds worlds' : State → Prop} {b c : Arena R} {q r : Place} (h : Grown u id p worlds a b q)
    (hp : a.place? id = some p) (h' : Grown u id q worlds' b c r) :
    Grown u id p (fun x => worlds x ∨ worlds' x) a c r := by
  have hlike := (h.extended hp).2
  have hgrows := h'.grows
  rw [hlike.role, hlike.depth] at hgrows
  exact ⟨h'.sound, h'.place, fun x => by rw [h'.expanded, h.expanded, or_assoc],
    h.grows.trans hgrows (fun _ h => h) (fun _ h => h) (Nat.le_refl _) (Nat.le_refl _)⟩

lemma Grown.congr {worlds worlds' : State → Prop} {b : Arena R} {q : Place} (h : Grown u id p worlds a b q)
    (hworlds : ∀ x, x ∈ p.belief.expanded ∨ worlds' x ↔ x ∈ p.belief.expanded ∨ worlds x) :
    Grown u id p worlds' a b q :=
  ⟨h.sound, h.place, fun x => (h.expanded x).trans (hworlds x).symm, h.grows⟩

/-- Where edges lead, they still lead after more were added. -/
lemma Leads.extends {root k : NodeId} {a' : Arena R} (hsane : a.Sane)
    (h : ∀ id p, a.place? id = some p → ∃ p', a'.place? id = some p' ∧ p.Extends p')
    (hleads : a.Leads root k) : a'.Leads root k := by
  induction hleads with
  | refl => exact .refl
  | @step x e _ he ih =>
    refine ih.step ?_
    cases hp : a.place? x with
    | none =>
      rw [hsane.edgesOf_eq_nil hp] at he
      cases he
    | some p =>
      obtain ⟨p', hp', hextends⟩ := h x p hp
      rw [edgesOf_of_place? hp] at he
      rw [edgesOf_of_place? hp']
      exact hextends.edges.subset he

/-- A world is expanded above each place at which one is. -/
lemma Sound.begun_above {root k : NodeId} {q : Place} (h : a.AllSound u) (hleads : a.Leads root k)
    (hp : a.place? root = some p) (hq : a.place? k = some q) (hbegun : q.Begun) : p.Begun := by
  have hfirst : ∀ {x}, a.Leads root x → x = root ∨ ∃ e, e ∈ a.edgesOf root := by
    intro x hx
    induction hx with
    | refl => exact .inl rfl
    | @step y e _ he ih => exact .inr (ih.elim (fun heq => ⟨e, heq ▸ he⟩) id)
  rcases hfirst hleads with heq | ⟨e, he⟩
  · rw [heq, hp, Option.some.injEq] at hq
    exact hq ▸ hbegun
  · rw [edgesOf_of_place? hp] at he
    obtain ⟨w, hw, -⟩ := (h.kept root p hp (by simp)).edge he
    exact ⟨w, hw⟩

/-- The transitions out of a world are added. -/
theorem addTransitions_yields (h : a.AllSound u) (hp : a.place? id = some p)
    (hw : w ∈ p.belief.worlds) (hfresh : w ∉ p.belief.expanded) :
    ∃ a' p', addTransitions u.game id w a = .ok ⟨⟩ a' ∧ Grown u id p (· = w) a a' p' := by
  obtain ⟨a₁, hrun₁, hstart, hgrows₁⟩ := expanding_nil h hp hw hfresh
  have hsuccessors := u.answers.successors? ((h.known id p hp).worlds w hw)
  let inv : List (Turn × State) → PUnit → Arena R → Prop := fun before _ b =>
    ∃ q, Expanding u id w before b q ∧ q.belief.expanded = p.belief.expanded ∧
      q.role = p.role ∧ q.depth = p.depth ∧ Forest.Grows (· = id) p.role p.depth a.place? b.place?
  obtain ⟨_, a₂, hrun₂, q, hexpanding, hexpanded, hrole, hdepth, hgrows₂⟩ :=
    @Action.forIn_yields _ _ _ (u.game.transitions w)
      (fun step _ => do addTransition u.game id w step.1 step.2; pure (.yield ⟨⟩)) inv
      (by
        rintro before step after ⟨⟩ b hlist ⟨q, hexpanding, hexpanded, hrole, hdepth, hgrows⟩
        obtain ⟨b', q', hrun, hexpanding', hexpanded', hgrows'⟩ :=
          addTransition_yields hexpanding (hlist ▸ List.mem_append_right _ (List.mem_cons_self))
        obtain ⟨hextends, -⟩ := hgrows'.extended hexpanding.place hexpanding'.place
        refine ⟨⟨⟩, b', ?_, q', hexpanding', ?_, ?_, ?_, ?_⟩
        · rw [Action.bind_of_ok hrun]
          rfl
        · rw [hexpanded', hexpanded]
        · rw [hextends.role, hrole]
        · rw [hextends.depth, hdepth]
        · rw [hrole, hdepth] at hgrows'
          exact hgrows.trans hgrows' (fun _ h => h) (fun _ h => h) (Nat.le_refl _) (Nat.le_refl _))
      ⟨⟩ a₁ ⟨_, hstart, rfl, rfl, rfl, hgrows₁⟩
  obtain ⟨a₃, hrun₃, hsound₃, hplace₃, hgrows₃⟩ := hexpanding.finish
  refine ⟨a₃, _, ?_, hsound₃, hplace₃, fun x => ?_, ?_⟩
  · unfold addTransitions
    rw [Action.bind_of_ok hrun₁, Action.bind_of_ok (Action.lift_of_ok hsuccessors a₁),
      Action.bind_of_ok hrun₂]
    exact hrun₃
  · rw [← hexpanded, or_comm]
    exact StateSet.mem_insert
  · rw [hrole, hdepth] at hgrows₃
    exact hgrows₂.trans hgrows₃ (fun _ h => h) (fun _ h => h) (Nat.le_refl _) (Nat.le_refl _)

/-- The expansion of one of the worlds of a belief. -/
theorem expandWorld_yields (h : a.AllSound u) (hp : a.place? id = some p)
    (hw : w ∈ p.belief.worlds) :
    ∃ a' p', expandWorld u.game id w a = .ok ⟨⟩ a' ∧ Grown u id p (· = w) a a' p' := by
  unfold expandWorld
  rw [Action.bind_of_ok (belief_run hp)]
  by_cases hin : w ∈ p.belief.expanded
  · refine ⟨a, p, ?_, .refl h hp fun x hx => hx ▸ hin⟩
    rw [if_pos (show p.belief.expanded.contains w = true from hin)]
    rfl
  · have hcontains : p.belief.worlds.contains w = true := hw
    obtain ⟨a', p', hrun, hgrown⟩ := addTransitions_yields h hp hw hin
    refine ⟨a', p', ?_, hgrown⟩
    rw [if_neg (show ¬p.belief.expanded.contains w = true from hin), hcontains]
    exact hrun

lemma Grown.expandNext {before : List State} {b : Arena R} {q : Place}
    (h : Grown u id p (· ∈ before) a b q) (hp : a.place? id = some p) (hw : w ∈ p.belief.worlds)
    (hnew : w ∉ before) :
    ∃ b' q', (if (!p.belief.expanded.contains w) = true then do
        addTransitions u.game id w
        pure (ForInStep.yield ⟨⟩)
      else pure (ForInStep.yield ⟨⟩) : Action (Arena R) (ForInStep PUnit)) b = .ok (.yield ⟨⟩) b' ∧
      Grown u id p (· ∈ before ++ [w]) a b' q' := by
  by_cases hin : w ∈ p.belief.expanded
  · have hcontains : p.belief.expanded.contains w = true := hin
    refine ⟨b, q, by simp [hcontains], h.congr fun x => ?_⟩
    rw [List.mem_append, List.mem_singleton]
    constructor
    · rintro (hx | hx | rfl)
      · exact .inl hx
      · exact .inr hx
      · exact .inl hin
    · rintro (hx | hx)
      · exact .inl hx
      · exact .inr (.inl hx)
  · have hlike := (h.extended hp).2
    have hfresh : w ∉ q.belief.expanded := by
      rw [h.expanded]
      exact not_or.2 ⟨hin, hnew⟩
    obtain ⟨b', q', hrun, hgrown⟩ := addTransitions_yields h.sound h.place (hlike.worlds ▸ hw) hfresh
    have hcontains : p.belief.expanded.contains w = false := Bool.eq_false_iff.2 hin
    refine ⟨b', q', ?_, (h.trans hp hgrown).congr fun x => by rw [List.mem_append, List.mem_singleton]⟩
    rw [hcontains, Bool.not_false, if_pos rfl, Action.bind_of_ok hrun]
    rfl

/-- The expansion of all worlds of a belief. -/
theorem expandBelief_yields (h : a.AllSound u) (hp : a.place? id = some p) :
    ∃ a' p', expandBelief u.game id a = .ok ⟨⟩ a' ∧ Grown u id p (· ∈ p.belief.worlds) a a' p' ∧
      p'.edges ≠ none := by
  have hsound := h.kept id p hp (by simp)
  obtain ⟨v, hnode⟩ := node_run hp
  unfold expandBelief
  rw [Action.bind_of_ok hnode, Node.isExpanded_toNode]
  by_cases hdone : (p.edges.isSome && p.belief.isExpanded) = true
  · obtain ⟨hedges, hsize⟩ := Bool.and_eq_true_iff.1 hdone
    have hall : p.belief.expanded = p.belief.worlds :=
      StateSet.eq_of_subset_of_size_eq hsound.expanded (by simpa [Belief.isExpanded] using hsize)
    refine ⟨a, p, ?_, .refl h hp fun x hx => hall ▸ hx, Option.isSome_iff_ne_none.1 hedges⟩
    rw [if_pos hdone]
    rfl
  · rw [if_neg hdone, Action.bind_of_ok (belief_run hp)]
    let inv : List State → PUnit → Arena R → Prop := fun before _ b =>
      ∃ q, Grown u id p (· ∈ before) a b q
    obtain ⟨_, a', hrun, p', hgrown⟩ :=
      @Action.forIn_yields _ _ _ p.belief.worlds.toList
        (fun w _ =>
          if (!p.belief.expanded.contains w) = true then do
            addTransitions u.game id w
            pure (ForInStep.yield ⟨⟩)
          else pure (ForInStep.yield ⟨⟩)) inv
        (by
          rintro before w after ⟨⟩ b hlist ⟨q, hgrown⟩
          obtain ⟨b', q', hrun, hgrown'⟩ := hgrown.expandNext hp (StateSet.mem_of_toList_eq hlist)
            (StateSet.not_mem_of_toList_eq hlist)
          exact ⟨⟨⟩, b', hrun, q', hgrown'⟩)
        ⟨⟩ a ⟨p, .refl h hp (by simp)⟩
    have hgrown' : Grown u id p (· ∈ p.belief.worlds) a a' p' :=
      ⟨hgrown.sound, hgrown.place, fun x => by rw [hgrown.expanded, Std.ExtTreeSet.mem_toList],
        hgrown.grows⟩
    refine ⟨a', p', ?_, hgrown', fun hnone => ?_⟩
    · rw [Action.bind_of_ok hrun]
      rfl
    · obtain ⟨w, hw⟩ := StateSet.isEmpty_eq_false_iff.1 p.belief.nonempty
      exact (hgrown.sound.kept id p' hgrown.place (by simp)).pristine hnone w
        ((hgrown'.expanded w).2 (.inr hw))

end Arena

end GameSearch
