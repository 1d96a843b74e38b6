import GameSearch.Agent.MultiObserver
import GameSearch.Proofs.Agent.Trees
import GameSearch.Proofs.ByRole

/-!
# Trees side by side

An agent that searches from every point of view keeps a tree for each role in one arena.  `Grove` says
what the roots of these trees are to each other: none is below the ply of the agent's own root, and only
the agent is committed to moves.  A root keeps the state in which the play was at its ply, if it is given
as part of the `course` of the play.  While roots change hands, some nodes above them are not sound; the
sweep at the end removes these.
-/

namespace GameSearch

namespace Place

variable {u : Upkeep} {p q : Place}

/-- A place says that its owner is in control if and only if that is so, in every world. -/
def InCharge (p : Place) : Prop :=
  ∀ w ∈ p.belief.worlds, w.isInControl p.role = p.belief.isVisible

lemma InCharge.congr (h : p.InCharge) (hstanding : q.belief.standing = p.belief.standing)
    (hrole : q.role = p.role) (hworlds : ∀ w ∈ q.belief.worlds, w ∈ p.belief.worlds) : q.InCharge := by
  intro w hw
  rw [isVisible_eq_of_standing hstanding, hrole]
  exact h w (hworlds w hw)

lemma Alike.inCharge (h : p.Alike q) (hp : p.InCharge) : q.InCharge :=
  hp.congr h.standing h.role fun _ hw => h.worlds ▸ hw

lemma inCharge_of_standing {v : State → View}
    (h : ∀ w ∈ p.belief.worlds, p.belief.standing = Node.standingOf (w.isInControl p.role) (v w)) :
    p.InCharge := by
  intro w hw
  rw [Belief.isVisible, h w hw, Node.standingOf]
  cases w.isInControl p.role <;> rfl

lemma Shows.inCharge (h : p.Shows u) : p.InCharge := inCharge_of_standing h

end Place

namespace Arena

variable {R : Type} {u : Upkeep} {but but' : NodeId → Prop} {own role : Role}
  {course : Nat → State → Prop} {depth depth' : Nat} {trees : ByRole NodeId} {a a' a'' : Arena R}
  {root id k : NodeId} {p q q' : Place}

/-- A node is the root of the tree of a role, whatever has become of what was above it. -/
structure Root (but : NodeId → Prop) (own : Role) (course : Nat → State → Prop) (depth : Nat)
    (a : Arena R) (role : Role) (root : NodeId) (p : Place) : Prop where
  place : a.place? root = some p
  owner : p.role = role
  parent : p.parent = none
  le : p.depth ≤ depth
  above : ∀ x q, but x → a.place? x = some q → q.role = role → q.depth < p.depth
  move : role ≠ own → p.move = none
  holds : role ≠ own → ∀ s, course p.depth s → s ∈ p.belief.worlds
  level : role = own → p.depth = depth
  inCharge : role = own → p.InCharge

/-- The trees of an agent, whose own tree is rooted at the given ply. -/
structure Grove (u : Upkeep) (but : NodeId → Prop) (own : Role) (course : Nat → State → Prop)
    (trees : ByRole NodeId) (depth : Nat) (a : Arena R) : Prop where
  sound : a.Sound u but
  root : ∀ (role : Role) (root : NodeId), trees[role]? = some root → ∃ p, Root but own course depth a role root p

lemma Root.congr {p' : Place} (h : Root but own course depth a role root p)
    (hp : a'.place? root = some p') (halike : p.Alike p') (hle : depth ≤ depth')
    (hlevel : role = own → depth = depth')
    (habove : ∀ x q, but' x → a'.place? x = some q → q.role = role → q.depth < p'.depth) :
    Root but' own course depth' a' role root p' where
  place := hp
  owner := halike.role.trans h.owner
  parent := halike.parent.trans h.parent
  le := by rw [halike.depth]; exact h.le.trans hle
  above := habove
  move hne := halike.move.trans (h.move hne)
  holds hne s hs := by
    rw [halike.worlds]
    exact h.holds hne s (halike.depth ▸ hs)
  level hown := by rw [halike.depth, h.level hown, hlevel hown]
  inCharge hown := halike.inCharge (h.inCharge hown)

/-- What is below a root is sound. -/
lemma Root.not_but (h : Root but own course depth a role root p) (hq : a.place? id = some q)
    (hrole : q.role = role) (hle : p.depth ≤ q.depth) : ¬but id := by
  intro hid
  have := h.above id q hid hq hrole
  omega

/-! ## Growth -/

/-- The trees have grown below their roots. -/
structure Deepens (trees : ByRole NodeId) (a a' : Arena R) : Prop where
  places : ∀ id p, a.place? id = some p → ∃ p', a'.place? id = some p' ∧ p.Extends p'
  roots : ∀ (role : Role) (root : NodeId) p, trees[role]? = some root → a.place? root = some p →
    ∃ p', a'.place? root = some p' ∧ p.Alike p'

lemma Deepens.refl : Deepens trees a a :=
  ⟨fun _ p hp => ⟨p, hp, .refl p⟩, fun _ _ p _ hp => ⟨p, hp, .refl p⟩⟩

lemma Deepens.trans (h : Deepens trees a a') (h' : Deepens trees a' a'') : Deepens trees a a'' := by
  constructor
  · intro id p hp
    obtain ⟨p', hp', hextends⟩ := h.places id p hp
    obtain ⟨p'', hp'', hextends'⟩ := h'.places id p' hp'
    exact ⟨p'', hp'', hextends.trans hextends'⟩
  · intro role root p hroot hp
    obtain ⟨p', hp', halike⟩ := h.roots role root p hroot hp
    obtain ⟨p'', hp'', halike'⟩ := h'.roots role root p' hroot hp'
    exact ⟨p'', hp'', halike.trans halike'⟩

lemma Revalued.deepens (h : Revalued a a') : Deepens trees a a' :=
  ⟨fun _ p hp => ⟨p, by rw [h.places, hp], .refl p⟩, fun _ _ p _ hp => ⟨p, by rw [h.places, hp], .refl p⟩⟩

lemma Deepens.leads (h : Deepens trees a a') (hsane : a.Sane) (hleads : a.Leads root id) :
    a'.Leads root id :=
  hleads.extends hsane h.places

/-- Growth below the roots keeps what they are to each other. -/
lemma Grove.deepens (h : Grove u (fun _ => False) own course trees depth a)
    (hdeepens : Deepens trees a a') (hsound : a'.AllSound u) :
    Grove u (fun _ => False) own course trees depth a' := by
  refine ⟨hsound, fun role root hroot => ?_⟩
  obtain ⟨p, hp⟩ := h.root role root hroot
  obtain ⟨p', hp', halike⟩ := hdeepens.roots role root p hroot hp.place
  exact ⟨p', hp.congr hp' halike (Nat.le_refl _) (fun _ => rfl) fun _ _ hfalse => hfalse.elim⟩

/-- Where edges lead from a root. -/
lemma Grove.leads (h : Grove u but own course trees depth a) (hroot : trees[role]? = some root)
    (hleads : a.Leads root id) : ∃ p q, Root but own course depth a role root p ∧
      a.place? id = some q ∧ q.role = role ∧ p.depth ≤ q.depth ∧ ¬but id := by
  obtain ⟨p, hp⟩ := h.root role root hroot
  obtain ⟨q, hq, hdepth, hrole⟩ := h.sound.leads hp.place hleads
  have howner : q.role = role := hrole.trans hp.owner
  exact ⟨p, q, hp, hq, howner, hdepth, hp.not_but hq howner hdepth⟩

lemma Grove.grown {worlds : State → Prop} (h : Grove u (fun _ => False) own course trees depth a)
    (hroot : trees[role]? = some root) (hleads : a.Leads root id) (hq : a.place? id = some q)
    (hgrown : Grown u id q worlds a a' q') : Deepens trees a a' := by
  constructor
  · intro x c hc
    obtain ⟨c', hc', hextends, -⟩ := hgrown.grows x c hc
    exact ⟨c', hc', hextends⟩
  · intro role' root' p' hroot' hp'
    obtain ⟨c', hc', hextends, -, hworlds⟩ := hgrown.grows root' p' hp'
    refine ⟨c', hc', hextends.toAkin, ?_⟩
    rcases hworlds with ⟨hrole, hlt⟩ | hworlds
    · obtain ⟨p, r, hp, hr, howner, hdepth, -⟩ := h.leads hroot hleads
      obtain ⟨p'', hp''⟩ := h.root role' root' hroot'
      rw [hq, Option.some.injEq] at hr
      rw [hp''.place, Option.some.injEq] at hp'
      have hsame : role' = role := by rw [← hp''.owner, hp', hrole, hr, howner]
      subst hsame
      rw [hroot, Option.some.injEq] at hroot'
      subst hroot'
      have heq : p'' = p := Option.some.inj (hp''.place.symm.trans hp.place)
      rw [← hp', heq, hr] at hlt
      omega
    · exact hworlds

/-- A node that edges lead to from a root is expanded. -/
lemma Grove.expandBelief (h : Grove u (fun _ => False) own course trees depth a)
    (hroot : trees[role]? = some root) (hleads : a.Leads root id) (hq : a.place? id = some q) :
    ∃ a' q', Arena.expandBelief u.game id a = .ok ⟨⟩ a' ∧
      Grown u id q (· ∈ q.belief.worlds) a a' q' ∧ q'.edges ≠ none ∧ Deepens trees a a' ∧
      Grove u (fun _ => False) own course trees depth a' := by
  obtain ⟨a', q', hrun, hgrown, hedges⟩ := expandBelief_yields h.sound hq
  have hdeepens := h.grown hroot hleads hq hgrown
  exact ⟨a', q', hrun, hgrown, hedges, hdeepens, h.deepens hdeepens hgrown.sound⟩

lemma expand_eq (game : Game) (hq : a.place? id = some q) :
    Arena.expand game id a = Arena.expandBelief game id a := by
  obtain ⟨v, hnode⟩ := node_run hq
  rw [Arena.expand, Action.bind_of_ok hnode]
  rfl

/-- Only a root is committed to a move. -/
lemma Grove.root_or_free (h : Grove u but own course trees depth a) (hroot : trees[role]? = some root)
    (hleads : a.Leads root id) (hq : a.place? id = some q) : id = root ∨ q.move = none := by
  cases hleads with
  | refl => exact .inl rfl
  | @step x e hx he =>
    obtain ⟨p, r, -, hr, -, -, hbut⟩ := h.leads hroot hx
    rw [edgesOf_of_place? hr] at he
    obtain ⟨c, hc, hof⟩ := (h.sound.kept x r hr hbut).child e he
    rw [hq, Option.some.injEq] at hc
    exact .inr (hc ▸ hof.move)

/-! ## New roots -/

lemma thins_detached (hq : a.place? k = some q) (hplaces : a'.place? = Function.update a.place? k
    (some q.detached)) : Forest.Thins a.place? a'.place? := by
  rw [hplaces]
  exact .update hq rfl rfl fun _ he => he

/-- A node becomes the root of the tree of its role, at the same or a later ply. -/
theorem detach_grove (hsound : a.Sound u but)
    (hroots : ∀ (role : Role) (root : NodeId), role ≠ q.role → trees[role]? = some root →
      ∃ p, Root but own course depth a role root p)
    (hq : a.place? k = some q)
    (habove : ∀ x r, but x → a.place? x = some r → r.role = q.role → r.depth < q.depth)
    (hle : q.depth ≤ depth) (hmove : q.role ≠ own → q.move = none)
    (hholds : q.role ≠ own → ∀ s, course q.depth s → s ∈ q.belief.worlds)
    (hlevel : q.role = own → q.depth = depth) (hinCharge : q.role = own → q.InCharge) :
    ∃ a', detach k a = .ok ⟨⟩ a' ∧ Grove u (fun x => but x ∨ a.Precedes k x) own course
      (trees.insert q.role k) depth a' ∧ a'.place? = Function.update a.place? k (some q.detached) := by
  have hk : ¬but k := fun hbut => absurd (habove k q hbut hq rfl) (Nat.lt_irrefl _)
  obtain ⟨a', hrun, hsound', hplaces⟩ := detach_yields hsound hq hk
  have hthins := thins_detached hq hplaces
  refine ⟨a', hrun, ⟨hsound', fun role root hroot => ?_⟩, hplaces⟩
  rw [Std.ExtTreeMap.getElem?_insert] at hroot
  split at hroot
  · -- the tree that gets a new root
    rename_i hrole
    rw [Std.compare_eq_iff_eq] at hrole
    rw [Option.some.injEq] at hroot
    subst hrole hroot
    refine ⟨q.detached, by rw [hplaces, Function.update_self], rfl, rfl, hle, ?_, hmove, hholds, hlevel,
      hinCharge⟩
    intro x r hx hr hrole
    obtain ⟨r', hr', hdepth, hrole', -⟩ := hthins x r hr
    rw [hdepth]
    rcases hx with hx | hx
    · exact habove x r' hx hr' (hrole' ▸ hrole)
    · exact (hsound.precedes hq hx hr').2
  · -- another tree, to which none of the nodes above the new root belongs
    rename_i hrole
    have hne : role ≠ q.role := fun heq => hrole (Std.compare_eq_iff_eq.2 heq.symm)
    obtain ⟨p, hp⟩ := hroots role root hne hroot
    have hother : root ≠ k := by
      rintro rfl
      rw [hp.place, Option.some.injEq] at hq
      exact hne (by rw [← hp.owner, hq])
    refine ⟨p, hp.congr (by rw [hplaces, Function.update_of_ne hother, hp.place]) (.refl p)
      (Nat.le_refl _) (fun _ => rfl) fun x r hx hr hrole => ?_⟩
    obtain ⟨r', hr', hdepth, hrole', -⟩ := hthins x r hr
    rw [hdepth]
    rcases hx with hx | hx
    · exact hp.above x r' hx hr' (hrole' ▸ hrole)
    · exact absurd ((hrole'.symm.trans hrole).symm.trans (hsound.precedes hq hx hr').1) hne

/-- The node that was found for a later ply becomes the root of the agent's own tree. -/
theorem Grove.reached {ply : Int} (h : Grove u (fun _ => False) own course trees depth a)
    (hreached : Reached u own ply k q a a') (hply : (depth : Int) ≤ ply) (hinCharge : q.InCharge) :
    ∃ a'' but', detach k a' = .ok ⟨⟩ a'' ∧ Grove u but' own course (trees.insert own k) ply.toNat a'' ∧
      a''.place? k = some q.detached := by
  obtain ⟨but', hsound, hisolated, hroles⟩ := hreached.sound
  have hlevel := hreached.level
  obtain ⟨a'', hrun, hgrove, hplaces⟩ := @detach_grove _ u but' own course ply.toNat trees a' k q hsound
    (fun role root hne hroot => by
      rw [hreached.owner] at hne
      obtain ⟨p, hp⟩ := h.root role root hroot
      obtain ⟨p', hp', halike⟩ := hreached.spares root p hp.place (hp.owner ▸ hne)
      refine ⟨p', hp.congr hp' halike (by omega) (fun heq => absurd heq hne) fun x r hx hr hrole => ?_⟩
      exact absurd (hrole.symm.trans ((hroles x r hx hr).trans hreached.owner)) hne)
    hreached.place (fun x r hx hr _ => hisolated.above x r hx hr) (by omega)
    (fun hne => absurd hreached.owner hne) (fun hne => absurd hreached.owner hne) (fun _ => by omega)
    fun _ => hinCharge
  rw [hreached.owner] at hgrove
  exact ⟨a'', _, hrun, hgrove, by rw [hplaces, Function.update_self]⟩

/-- After a sweep all that is left is sound. -/
theorem Grove.sweep (h : Grove u but own course trees depth a) :
    Grove u (fun _ => False) own course trees depth (a.sweep trees.values).2 ∧
      ∀ (role : Role) (root : NodeId), trees[role]? = some root →
        (a.sweep trees.values).2.place? root = a.place? root := by
  have hkept : ∀ (role : Role) (root : NodeId), trees[role]? = some root →
      (a.sweep trees.values).2.place? root = a.place? root := by
    intro role root hroot
    obtain ⟨p, hp⟩ := h.root role root hroot
    exact (h.sound.place?_sweep trees.values root).1
      ⟨root, ByRole.mem_values.2 ⟨role, hroot⟩, h.sound.sane.contains_iff.2 ⟨p, hp.place⟩, .refl⟩
  refine ⟨⟨h.sound.sweep fun x hx => ?_, fun role root hroot => ?_⟩, hkept⟩
  · obtain ⟨root, hin, -, hleads⟩ := hx
    obtain ⟨role, hroot⟩ := ByRole.mem_values.1 hin
    obtain ⟨-, -, -, -, -, -, hbut⟩ := h.leads hroot hleads
    exact hbut
  · obtain ⟨p, hp⟩ := h.root role root hroot
    exact ⟨p, hp.congr ((hkept role root hroot).trans hp.place) (.refl p) (Nat.le_refl _) (fun _ => rfl)
      fun _ _ hfalse => hfalse.elim⟩

/-! ## Catching up -/

/-- The nodes some plies below a node from which edges lead there. -/
lemma expandedBelow_places {plies d : Nat} {frontier next : List NodeId}
    (h : a.Sound u but) (hfrontier : ∀ x ∈ frontier, a.Leads root x ∧ ∃ c, a.place? x = some c ∧ c.depth = d)
    (hnext : MultiObserver.expandedBelow a plies frontier = some next) :
    ∀ x ∈ next, a.Leads root x ∧ ∃ c, a.place? x = some c ∧ c.depth = d + plies := by
  induction plies generalizing frontier d with
  | zero =>
    cases hnext
    exact hfrontier
  | succ plies ih =>
    rw [MultiObserver.expandedBelow] at hnext
    simp only at hnext
    split at hnext
    · split at hnext
      · cases hnext
      · rw [show d + (plies + 1) = d + 1 + plies by omega]
        refine ih (fun x hx => ?_) hnext
        obtain ⟨n, hn, hx⟩ := List.mem_flatMap.1 (List.mem_eraseDups.1 hx)
        obtain ⟨y, hy, hfind⟩ := List.mem_filterMap.1 hn
        obtain ⟨hleads, c, hc, hdepth⟩ := hfrontier y hy
        obtain ⟨e, he, rfl⟩ := List.mem_map.1 (List.mem_eraseDups.1 hx)
        have he' : e ∈ a.edgesOf y := by
          rw [edgesOf, hfind]
          exact he
        refine ⟨hleads.step he', ?_⟩
        rw [edgesOf_of_place? hc] at he'
        obtain ⟨c', hc', hdepth', -⟩ := h.graded y c e hc he'
        exact ⟨c', hc', by omega⟩
    · cases hnext

/-- The tree of another role gets the only node as its root that all worlds of the agent's own root can
be at. -/
theorem Grove.catchUp {frontier : List NodeId} {worlds : StateSet}
    (h : Grove u but own course trees depth a) (hne : role ≠ own)
    (hroot : Root but own course depth a role root p) (htree : trees[role]? = some root)
    (hlt : p.depth < depth)
    (hfrontier : MultiObserver.expandedBelow a (depth - p.depth) [root] = some frontier)
    (hk : k ∈ frontier) (hheld : ∀ s ∈ worlds, s ∈ a.worldsAt k)
    (hcourse : ∀ s, course depth s → s ∈ worlds) :
    ∃ a' q, a.place? k = some q ∧ q.role = role ∧ detach k a = .ok ⟨⟩ a' ∧
      Grove u (fun x => but x ∨ a.Precedes k x) own course (trees.insert role k) depth a' ∧
      a'.place? = Function.update a.place? k (some q.detached) := by
  obtain ⟨hleads, q, hq, hdepth⟩ := expandedBelow_places h.sound
    (fun x hx => by
      rw [List.mem_singleton.1 hx]
      exact ⟨.refl, p, hroot.place, rfl⟩) hfrontier k hk
  have hdepth : q.depth = depth := by omega
  obtain ⟨-, q', -, hq', hrole, -, -⟩ := h.leads htree hleads
  rw [hq, Option.some.injEq] at hq'
  subst hq'
  have hfree : q.move = none := by
    rcases h.root_or_free htree hleads hq with hsame | hfree
    · rw [hsame, hroot.place, Option.some.injEq] at hq
      rw [hq] at hlt
      omega
    · exact hfree
  rw [worldsAt_of_place? hq] at hheld
  obtain ⟨a', hrun, hgrove, hplaces⟩ := @detach_grove _ u but own course depth trees a k q h.sound
    (fun role' root' _ hroot' => h.root role' root' hroot') hq
    (fun x r hx hr hrole' => by
      have := hroot.above x r hx hr (hrole'.trans hrole)
      omega)
    (Nat.le_of_eq hdepth) (fun _ => hfree) (fun _ s hs => hheld s (hcourse s (hdepth ▸ hs)))
    (fun heq => absurd (hrole.symm.trans heq) hne) fun heq => absurd (hrole.symm.trans heq) hne
  rw [hrole] at hgrove
  exact ⟨a', q, hq, hrole, hrun, hgrove, hplaces⟩

end Arena

end GameSearch
