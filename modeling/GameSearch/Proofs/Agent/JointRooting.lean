import GameSearch.Proofs.Agent.JointAccounting

/-!
# New roots for several trees

When the agent's own tree is developed or committed, each tree may get a new root further down.  Until the
final sweep edges from above still lead to it; what is below the roots is never below a former root of the
same role.
-/

namespace GameSearch

namespace Arena

variable {R : Type} {a a' b : Arena R} {role own : Role} {id k root : NodeId} {trees : ByRole NodeId}
  {roots : NodeId → Prop}

/-- A node belongs to a role, but is no deeper than the root of the tree of that role. -/
def Above (a : Arena R) (trees : ByRole NodeId) (id : NodeId) : Prop :=
  ∃ (role : Role) (root : NodeId) (s t : Station), trees[role]? = some root ∧ a.station? root = some s ∧
    a.station? id = some t ∧ t.role = role ∧ t.depth ≤ s.depth

/-- The roots themselves are no deeper. -/
lemma Owns.above (h : a.Owns role k) (hroot : trees[role]? = some k) : a.Above trees k := by
  obtain ⟨s, hs, hrole⟩ := h
  exact ⟨role, k, s, s, hroot, hs, hs, hrole, Nat.le_refl _⟩

/-- When a root moves down, what was no deeper still is no deeper. -/
lemma Shaped.above_insert (h : a.Shaped) (hroot : trees[role]? = some root) (hleads : a.Leads root k)
    (habove : a.Above trees id) : a.Above (trees.insert role k) id := by
  obtain ⟨role', root', s, t, hroot', hs, ht, hrole, hle⟩ := habove
  by_cases heq : role = role'
  · subst heq
    rw [hroot, Option.some.injEq] at hroot'
    subst hroot'
    obtain ⟨s', hs', hdepth⟩ := h.depth_le hs hleads
    exact ⟨role, k, s', t, Std.ExtTreeMap.getElem?_insert_self, hs', ht, hrole, hle.trans hdepth⟩
  · refine ⟨role', root', s, t, ?_, hs, ht, hrole, hle⟩
    rw [Std.ExtTreeMap.getElem?_insert, if_neg (by simpa using heq), hroot']

/-- No edge below the roots leads to such a node. -/
lemma Shaped.not_above (h : a.Shaped) (howns : a.Owns role root) (hroot : trees[role]? = some root)
    (hleads : a.Leads root k) {e : Edge} (he : e ∈ a.edgesOf k) : ¬a.Above trees e.child := by
  rintro ⟨role', root', s', t, hroot', hs', ht, hrole', hle⟩
  obtain ⟨s, hs, hchild⟩ := h.child he
  rw [ht, Option.some.injEq] at hchild
  have hsame : role = role' := (h.owns_leads howns (hleads.step he)).unique ⟨t, ht, hrole'⟩
  subst hsame
  rw [hroot, Option.some.injEq] at hroot'
  subst hroot'
  obtain ⟨s'', hs'', hdepth⟩ := h.depth_le hs' hleads
  rw [hs, Option.some.injEq] at hs''
  subst hs''
  rw [hchild] at hle
  exact absurd (hdepth.trans_lt (Nat.lt_succ_self s.depth)) (Nat.not_lt.2 hle)

lemma owns_iff : a.Owns role k ↔ ∃ n, a.find? k = some n ∧ n.role = role := by
  constructor
  · rintro ⟨s, hs, hrole⟩
    obtain ⟨n, hn, rfl⟩ := station?_eq_some.1 hs
    exact ⟨n, hn, hrole⟩
  · rintro ⟨n, hn, hrole⟩
    exact ⟨_, station?_of_find? hn, hrole⟩

/-- Nodes that are detached keep their owners. -/
lemma Detaches.owns_iff (h : Detaches roots a a') : a'.Owns role k ↔ a.Owns role k := by
  rw [Arena.owns_iff, Arena.owns_iff]
  rcases h.node k with hsame | ⟨-, hdetached⟩
  · rw [hsame]
  · rw [hdetached]
    cases a.find? k with
    | none => simp
    | some n => simp [Node.detached]

lemma Heads.insert {depth : Nat} (h : a.Heads trees) (hk : a.station? k = some ⟨none, depth, role⟩) :
    a.Heads (trees.insert role k) := by
  intro role' root hroot
  rw [Std.ExtTreeMap.getElem?_insert] at hroot
  split at hroot
  · rename_i hsame
    rw [Std.compare_eq_iff_eq] at hsame
    cases hroot
    exact ⟨depth, hsame ▸ hk⟩
  · exact h role' root hroot

/-- A node of a role becomes the root of its tree. -/
lemma Heads.detach (h : a.Heads trees) (hk : a.Owns role k) (hrun : Arena.detach k a = .ok ⟨⟩ a') :
    a'.Heads (trees.insert role k) := by
  obtain ⟨n, hn, rfl⟩ := detach_eq_ok hrun
  have hself : (a.update k Node.detached).station? k = some ⟨none, n.depth, n.role⟩ := by
    rw [station?, find?_update, if_pos rfl, hn]
    rfl
  have hkept : (a.update k Node.detached).Heads trees := by
    intro role' root hroot
    obtain ⟨depth, hs⟩ := h role' root hroot
    by_cases heq : root = k
    · rw [heq, station?_of_find? hn, Option.some.injEq] at hs
      have hrole : n.role = role' := congrArg Station.role hs
      exact ⟨n.depth, by rw [heq, hself, hrole]⟩
    · exact ⟨depth, by rw [station?, find?_update, if_neg heq]; exact hs⟩
  exact hkept.insert (hk.of_find? hn ▸ hself)

lemma soleChild?_eq_ok (h : a.soleChild? id = .ok k) : k = id ∨ ∃ e ∈ a.edgesOf id, e.child = k := by
  cases hn : a.find? id with
  | none =>
    rw [soleChild?, node?, hn] at h
    cases h
  | some n =>
    rcases soleChild?_of_find? hn with hstays | ⟨e, he, hchild, -⟩
    · rw [hstays] at h
      cases h
      exact .inl rfl
    · rw [hchild] at h
      cases h
      exact .inr ⟨e, edgesOf_of_find? hn ▸ he, rfl⟩

/-- The nodes some plies below a node that edges lead to. -/
lemma leads_of_expandedBelow {plies : Nat} {frontier next : List NodeId}
    (hfrontier : ∀ x ∈ frontier, a.Leads root x)
    (hnext : MultiObserver.expandedBelow a plies frontier = some next) : ∀ x ∈ next, a.Leads root x := by
  induction plies generalizing frontier with
  | zero =>
    cases hnext
    exact hfrontier
  | succ plies ih =>
    rw [MultiObserver.expandedBelow] at hnext
    simp only at hnext
    split at hnext
    · split at hnext
      · cases hnext
      · refine ih (fun x hx => ?_) hnext
        obtain ⟨n, hn, hx⟩ := List.mem_flatMap.1 (List.mem_eraseDups.1 hx)
        obtain ⟨y, hy, hfind⟩ := List.mem_filterMap.1 hn
        obtain ⟨e, he, rfl⟩ := Node.mem_children.1 hx
        exact (hfrontier y hy).step (edgesOf_of_find? hfind ▸ he)
    · cases hnext

end Arena

namespace MultiObserver

open TreeAgent

variable {R ε : Type} {x y z : Hosted (TreeAgent MultiObserver R ε) ε} {b : Arena R} {role own other : Role}
  {k root : NodeId} {ply : Int} {view : View} {move : Move} {game : Game}

/-- While roots change hands: apart from what was detached the arena is as given. -/
structure Uproots (b : Arena R) (y : Hosted (TreeAgent MultiObserver R ε) ε) : Prop where
  detaches : Arena.Detaches (b.Above y.own.memory.trees) b y.own.arena
  heads : y.own.arena.Heads y.own.memory.trees

/-- A node becomes the root of the tree of its role. -/
lemma reroot_eq_ok (hdetaches : Arena.Detaches (b.Above (y.own.memory.trees.insert role k)) b y.own.arena)
    (hheads : y.own.arena.Heads y.own.memory.trees) (hk : y.own.arena.Owns role k)
    (hrun : (MultiObserver.reroot role k : Deliberation MultiObserver R ε Unit) y = .ok ⟨⟩ z) : Uproots b z := by
  obtain ⟨_, y₁, hremember, h₁⟩ := Action.bind_eq_ok.1 hrun
  cases hremember
  obtain ⟨a, hdetach, rfl⟩ := onArena_eq_ok.1 h₁
  exact ⟨hdetaches.detach ((hdetaches.owns_iff.1 hk).above Std.ExtTreeMap.getElem?_insert_self) hdetach,
    hheads.detach hk hdetach⟩

/-- The tree of another role gets a new root below the old one, or none. -/
theorem catchUp_eq_ok (hb : b.Shaped) (h : Uproots b y)
    (hrun : (catchUp own other ply : Deliberation MultiObserver R ε Unit) y = .ok ⟨⟩ z) : Uproots b z := by
  obtain ⟨memory, y₁, hmemory, h₁⟩ := Action.bind_eq_ok.1 hrun
  cases hmemory
  obtain ⟨root, hroot, h₂⟩ := Action.lift_bind_eq_ok.1 h₁
  have hroot := root?_eq_ok hroot
  obtain ⟨a, y₂, hget, h₃⟩ := Action.bind_eq_ok.1 h₂
  obtain ⟨a', hsame, rfl⟩ := onArena_eq_ok.1 hget
  cases hsame
  obtain ⟨r, -, h₄⟩ := Action.lift_bind_eq_ok.1 h₃
  simp only at h₄
  split at h₄
  · cases h₄
    exact h
  · cases hfrontier : expandedBelow y.own.arena (ply - r.depth).toNat [root] with
    | none =>
      rw [hfrontier] at h₄
      cases h₄
      exact h
    | some frontier =>
      rw [hfrontier] at h₄
      obtain ⟨ownRoot, -, h₅⟩ := Action.lift_bind_eq_ok.1 h₄
      obtain ⟨worlds, -, h₆⟩ := Action.lift_bind_eq_ok.1 h₅
      obtain ⟨holder, y₃, hholder, h₇⟩ := Action.bind_eq_ok.1 h₆
      obtain ⟨a'', hsole, rfl⟩ := onArena_eq_ok.1 hholder
      obtain ⟨rfl, hin⟩ := Arena.soleHolder?_eq_ok hsole
      cases holder with
      | none =>
        cases h₇
        exact h
      | some k =>
        have hleads : y.own.arena.Leads root k :=
          Arena.leads_of_expandedBelow (by simpa using .refl) hfrontier k (hin k rfl)
        have hleads' := h.detaches.leads_iff.1 hleads
        have hk : b.Owns other k := hb.owns_leads (h.detaches.owns_iff.1 (h.heads.owns hroot)) hleads'
        exact reroot_eq_ok (h.detaches.mono fun id => hb.above_insert hroot hleads') h.heads
          (h.detaches.owns_iff.2 hk) h₇

/-- After the sweep the trees stand. -/
theorem tidy_eq_ok (hb : b.Shaped) (h : Uproots b y)
    (hrun : (tidy : Deliberation MultiObserver R ε Unit) y = .ok ⟨⟩ z) : Stands z ∧ b.Inherits z.own.arena := by
  obtain ⟨_, y₁, hforget, h₁⟩ := Action.bind_eq_ok.1 hrun
  cases hforget
  obtain ⟨memory, y₂, hmemory, h₂⟩ := Action.bind_eq_ok.1 h₁
  cases hmemory
  obtain ⟨a, hsweep, rfl⟩ := onArena_eq_ok.1 h₂
  cases hsweep
  have hclosed := h.detaches.closed hb.closed
  refine ⟨⟨hb.sweep h.detaches fun r hr _ k hk e he => ?_, fun role root hroot => ?_, .inr fun role w id hid => ?_⟩,
    h.detaches.inherits hb.closed⟩
  · obtain ⟨role, hroot⟩ := ByRole.mem_values.1 hr
    exact hb.not_above (h.detaches.owns_iff.1 (h.heads.owns hroot)) hroot hk he
  · obtain ⟨depth, hs⟩ := h.heads role root hroot
    obtain ⟨n, hn, -⟩ := Arena.station?_eq_some.1 hs
    have hkept : y.own.arena.Kept y.own.memory.trees.values root :=
      ⟨root, ByRole.mem_values.2 ⟨role, hroot⟩, Arena.contains_iff.2 ⟨n, hn⟩, .refl⟩
    exact ⟨depth, (congrArg (Option.map Node.station) ((Arena.find?_sweep hclosed _).1 hkept)).trans hs⟩
  · have hnone : (∅ : Std.HashMap (Role × State) NodeId)[(role, w)]? = none := Std.HashMap.getElem?_empty
    cases hnone.symm.trans hid

/-- The agent's own tree gets a new root, the others may get new ones too, and what is above them is removed. -/
theorem Stands.develop [Scalar R] [Dice ε] (h : Stands x)
    (hrun : (MultiObserver.develop ply view : Deliberation MultiObserver R ε Unit) x = .ok ⟨⟩ y) :
    Stands y ∧ x.own.arena.Inherits y.own.arena := by
  obtain ⟨_, x₁, hview, h₁⟩ := Action.bind_eq_ok.1 hrun
  cases hview
  obtain ⟨agent, x₂, hread, h₂⟩ := Action.bind_eq_ok.1 h₁
  cases hread
  obtain ⟨role, -, h₃⟩ := Action.lift_bind_eq_ok.1 h₂
  obtain ⟨memory, x₃, hmemory, h₄⟩ := Action.bind_eq_ok.1 h₃
  cases hmemory
  obtain ⟨root, hroot, h₅⟩ := Action.lift_bind_eq_ok.1 h₄
  have hroot := root?_eq_ok hroot
  obtain ⟨n, x₄, hnode, h₆⟩ := Action.bind_eq_ok.1 h₅
  obtain ⟨a, hn, rfl⟩ := onArena_eq_ok.1 hnode
  obtain ⟨-, rfl⟩ := Arena.node_eq_ok.1 hn
  obtain ⟨agent, x₅, hread, h₇⟩ := Action.bind_eq_ok.1 h₆
  cases hread
  obtain ⟨game, -, h₈⟩ := Action.lift_bind_eq_ok.1 h₇
  obtain ⟨k, x₆, hfound, h₉⟩ := Action.bind_eq_ok.1 h₈
  obtain ⟨t, hdevelop, rfl⟩ := onTrees_eq_ok.1 hfound
  obtain ⟨_, x₇, hreroot, h₁₀⟩ := Action.bind_eq_ok.1 h₉
  have hfinds := Arena.develop_eq_ok (s := TreeAgent.trees x) h.shaped (h.heads.owns hroot) hdevelop
  have hheads : t.own.Heads x.own.memory.trees := h.heads.grows hfinds.toGrows
  have hrerooted : Uproots t.own x₇ := reroot_eq_ok (.refl hfinds.shaped.orderly) hheads hfinds.owns hreroot
  obtain ⟨memory, x₈, hmemory, h₁₁⟩ := Action.bind_eq_ok.1 h₁₀
  cases hmemory
  obtain ⟨_, x₉, hloop, htidy⟩ := Action.bind_eq_ok.1 h₁₁
  have huproots : Uproots t.own x₉ := by
    refine Action.forIn_eq_ok (I := fun _ _ z => Uproots t.own z) ?_ hrerooted hloop
    intro before other after _ z r z' _ hz hround
    split at hround
    · obtain ⟨_, z₁, hcatchUp, h₁₂⟩ := Action.bind_eq_ok.1 hround
      cases h₁₂
      exact ⟨⟨⟩, rfl, catchUp_eq_ok hfinds.shaped hz hcatchUp⟩
    · cases hround
      exact ⟨⟨⟩, rfl, hz⟩
  obtain ⟨hstands, hinherits⟩ := tidy_eq_ok hfinds.shaped huproots htidy
  exact ⟨hstands, hinherits.grows hfinds.toGrows⟩

/-- So is what is above the new root of the agent's own tree when that has been committed. -/
theorem Stands.commit [Scalar R] (h : Stands x)
    (hrun : (MultiObserver.commit move : Deliberation MultiObserver R ε Unit) x = .ok ⟨⟩ y) :
    Stands y ∧ x.own.arena.Inherits y.own.arena := by
  obtain ⟨agent, x₁, hread, h₁⟩ := Action.bind_eq_ok.1 hrun
  cases hread
  obtain ⟨role, -, h₂⟩ := Action.lift_bind_eq_ok.1 h₁
  obtain ⟨memory, x₂, hmemory, h₃⟩ := Action.bind_eq_ok.1 h₂
  cases hmemory
  obtain ⟨root, hroot, h₄⟩ := Action.lift_bind_eq_ok.1 h₃
  have hroot := root?_eq_ok hroot
  obtain ⟨n, x₃, hnode, h₅⟩ := Action.bind_eq_ok.1 h₄
  obtain ⟨a, hn, rfl⟩ := onArena_eq_ok.1 hnode
  obtain ⟨-, rfl⟩ := Arena.node_eq_ok.1 hn
  obtain ⟨_, x₄, hmove, h₆⟩ := Action.bind_eq_ok.1 h₅
  cases hmove
  obtain ⟨_, x₅, hcommitted, h₇⟩ := Action.bind_eq_ok.1 h₆
  obtain ⟨a, hcommit, rfl⟩ := onArena_eq_ok.1 hcommitted
  obtain ⟨_, x₆, htrimmed, h₈⟩ := Action.bind_eq_ok.1 h₇
  obtain ⟨b, htrim, rfl⟩ := onArena_eq_ok.1 htrimmed
  obtain ⟨arena, x₇, hget, h₉⟩ := Action.bind_eq_ok.1 h₈
  obtain ⟨b', hsame, rfl⟩ := onArena_eq_ok.1 hget
  cases hsame
  obtain ⟨k, hk, h₁₀⟩ := Action.lift_bind_eq_ok.1 h₉
  obtain ⟨_, x₈, hreroot, htidy⟩ := Action.bind_eq_ok.1 h₁₀
  have hfirst := Arena.respects_commit _ _ _ hcommit h.shaped
  have hsecond := Arena.respects_trim _ _ _ htrim hfirst.shaped
  have hgrows : x.own.arena.Grows b := hfirst.toGrows.trans hsecond.toGrows
  have howns := (h.heads.owns hroot).grows hgrows
  have hk : b.Owns role k := by
    obtain rfl | ⟨e, he, rfl⟩ := Arena.soleChild?_eq_ok hk
    · exact howns
    · exact hsecond.shaped.owns_child howns he
  have hheads : b.Heads x.own.memory.trees := h.heads.grows hgrows
  have hrerooted : Uproots b x₈ := reroot_eq_ok (.refl hsecond.shaped.orderly) hheads hk hreroot
  obtain ⟨hstands, hinherits⟩ := tidy_eq_ok hsecond.shaped hrerooted htidy
  exact ⟨hstands, hinherits.grows hgrows⟩

/-! ## The first roots -/

/-- The roles of a game take part in its search. -/
def Takes (game : Game) (role : Role) : Prop := role ∈ game.roles ∧ role ≠ chance

/-- While trees are planted, for some roles so far; the others that take part may still have numbers from an
earlier match. -/
structure Plants (game : Game) (before : List Role) (y : Hosted (TreeAgent MultiObserver R ε) ε) : Prop where
  shaped : y.own.arena.Shaped
  takes : ∀ role ∈ y.own.memory.trees, Takes game role
  planted : ∀ (role : Role) (root : NodeId), role ∈ before → y.own.memory.trees[role]? = some root →
    y.own.arena.station? root = some ⟨none, 0, role⟩
  unvalued : ∀ id, y.own.arena.valuation? id = none

lemma Plants.add {before : List Role} {n : Node R} {a : Arena R} (h : Plants game before y)
    (htakes : Takes game role) (hbare : n.Bare) (hstation : n.station = ⟨none, 0, role⟩)
    (hadd : Arena.add (.ok n) y.own.arena = .ok k a) :
    Plants game (before ++ [role]) (withMemory (withTrees y ⟨a, y.host⟩)
      { y.own.memory with trees := y.own.memory.trees.insert role k }) := by
  obtain ⟨n', hn', hadded⟩ := h.shaped.orderly.add_eq_ok hadd
  cases hn'
  have hexpanded := hadded.expanded h.shaped hbare
  have hself : a.station? k = some ⟨none, 0, role⟩ := by rw [Arena.station?_of_find? hadded.self, hstation]
  refine ⟨hexpanded.shaped, fun role' hrole => ?_, fun role' root hrole hroot => ?_,
    fun id => (hexpanded.valuation id).trans (h.unvalued id)⟩
  · rcases Std.ExtTreeMap.mem_insert.1 hrole with hsame | hrole
    · exact Std.compare_eq_iff_eq.1 hsame ▸ htakes
    · exact h.takes role' hrole
  change (y.own.memory.trees.insert role k)[role']? = some root at hroot
  rw [Std.ExtTreeMap.getElem?_insert] at hroot
  split at hroot
  · rename_i hsame
    rw [Std.compare_eq_iff_eq] at hsame
    cases hroot
    exact hsame ▸ hself
  · rename_i hother
    have hin : role' ∈ before := by
      rcases List.mem_append.1 hrole with hrole | hrole
      · exact hrole
      · exact absurd (Std.compare_eq_iff_eq.2 (List.mem_singleton.1 hrole).symm) hother
    exact hexpanded.station _ _ (h.planted role' root hin hroot)

/-- A role whose tree has a root takes part. -/
lemma Plants.takes_of_root {before : List Role} (h : Plants game before y)
    (hroot : y.own.memory.trees[role]? = some root) : Takes game role :=
  h.takes role (Std.ExtTreeMap.mem_iff_isSome_getElem?.2 (by rw [hroot]; rfl))

/-- There is no tree for chance. -/
lemma Plants.skip {before : List Role} (h : Plants game before y) (hchance : ¬role ≠ chance) :
    Plants game (before ++ [role]) y := by
  refine ⟨h.shaped, h.takes, fun role' root hrole hroot => ?_, h.unvalued⟩
  refine h.planted role' root ((List.mem_append.1 hrole).resolve_right fun hsame => ?_) hroot
  exact hchance (List.mem_singleton.1 hsame ▸ (h.takes_of_root hroot).2)

/-- When all roles have been visited, the trees stand. -/
lemma Plants.stands (h : Plants game game.roles y) : Stands y := by
  have hunmoved : Unmoved y := fun role root hroot =>
    h.planted role root (h.takes_of_root hroot).1 hroot
  exact ⟨h.shaped, fun role root hroot => ⟨0, hunmoved role root hroot⟩, .inl hunmoved⟩

/-- A match begins with a tree for each role that takes part in it, and no others unless they were there. -/
theorem plant_eq_ok (hgame : x.own.seat.game = some game) (hseated : x.own.seat.role = some own)
    (hempty : x.own.arena = ∅) (htakes : ∀ role ∈ x.own.memory.trees, Takes game role)
    (hrun : (MultiObserver.plant : Deliberation MultiObserver R ε Unit) x = .ok ⟨⟩ y) :
    Stands y ∧ ∀ id, y.own.arena.valuation? id = none := by
  obtain ⟨⟨game', role⟩, x₁, hpair, h₁⟩ := Action.bind_eq_ok.1 hrun
  cases (gameAndRole_run hgame hseated label).symm.trans hpair
  obtain ⟨_, x₂, hloop, h₂⟩ := Action.bind_eq_ok.1 h₁
  have hnone : Plants game [] x := by
    refine ⟨hempty ▸ Arena.shaped_empty, htakes, fun _ _ hin => absurd hin List.not_mem_nil, fun id => ?_⟩
    rw [hempty, Arena.valuation?, Arena.find?_empty]
    rfl
  have hall : Plants game game.roles x₂ := by
    refine Action.forIn_eq_ok (I := fun before _ z => Plants game before z) ?_ hnone hloop
    intro before other after _ z r z' hl hz hround
    split at hround
    · rename_i hother
      obtain ⟨n, hn, h₃⟩ := Action.lift_bind_eq_ok.1 hround
      obtain ⟨hbare, hstation⟩ := SingleObserver.firstBelief?_eq_ok hn
      obtain ⟨root, z₁, hplanted, h₄⟩ := Action.bind_eq_ok.1 h₃
      obtain ⟨a, hadd, rfl⟩ := onArena_eq_ok.1 hplanted
      obtain ⟨_, z₂, hremember, h₅⟩ := Action.bind_eq_ok.1 h₄
      cases hremember
      cases h₅
      exact ⟨⟨⟩, rfl, hz.add ⟨by simp [hl], hother⟩ hbare hstation hadd⟩
    · rename_i hchance
      cases hround
      exact ⟨⟨⟩, rfl, hz.skip hchance⟩
  obtain ⟨memory, x₃, hmemory, h₃⟩ := Action.bind_eq_ok.1 h₂
  cases hmemory
  split at h₃
  · cases h₃
  · cases h₃
    exact ⟨hall.stands, hall.unvalued⟩

/-- An agent has no tree for a role that does not take part in a match of the given rules. -/
def Clean (x : Hosted (TreeAgent MultiObserver R ε) ε) (ruleset : Ruleset) : Prop :=
  ∀ game, x.own.seat.source ruleset = .ok (some game) → ∀ role ∈ x.own.memory.trees, Takes game role

/-- An agent with a tree for each role accounts for its simulations, if no tree is left of a role that does not take
part in the match. -/
theorem audited [Scalar R] [Host ε] :
    Audited (Clean : Hosted (TreeAgent MultiObserver R ε) ε → Ruleset → Prop) Stands where
  prepare hclean hrun := by
    obtain ⟨game, hsource, hplant⟩ := prepare_eq_ok hrun
    have htakes := hclean game hsource
    exact plant_eq_ok (x := seated _ game _ _ _) rfl rfl rfl htakes hplant
  elsewhere h hxy := h.undisturbed hxy
  develop h hrun := h.develop hrun
  recount h hrun := h.simulateTo hrun
  commit h hrun := h.commit hrun

end MultiObserver

end GameSearch
