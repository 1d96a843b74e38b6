import GameSearch.Proofs.Agent.Accounting
import GameSearch.Proofs.Agent.Grove

/-!
# Ways down several trees

A simulation from every point of view reaches one node in each tree, to which edges lead from the root,
whatever the game answers: the nodes that worlds are located at are below the roots, and from there each
joint turn follows an edge in every tree.
-/

namespace GameSearch

namespace Arena

variable {R : Type} {a a' : Arena R} {nodes nodes' nodes'' : ByRole NodeId} {role : Role} {id k : NodeId}
  {game : Game}

/-- In the tree of each role edges lead from the one node to the other. -/
structure Descends (a : Arena R) (nodes nodes' : ByRole NodeId) : Prop where
  below : ∀ (role : Role) k, nodes'[role]? = some k → ∃ id, nodes[role]? = some id ∧ a.Leads id k
  each : ∀ (role : Role) id, nodes[role]? = some id → ∃ k, nodes'[role]? = some k

lemma Descends.refl : a.Descends nodes nodes :=
  ⟨fun _ k hk => ⟨k, hk, .refl⟩, fun _ id hid => ⟨id, hid⟩⟩

lemma Descends.trans (h : a.Descends nodes nodes') (h' : a.Descends nodes' nodes'') : a.Descends nodes nodes'' := by
  constructor
  · intro role k hk
    obtain ⟨id, hid, hleads⟩ := h'.below role k hk
    obtain ⟨root, hroot, hleads'⟩ := h.below role id hid
    exact ⟨root, hroot, hleads'.trans hleads⟩
  · intro role id hid
    obtain ⟨k, hk⟩ := h.each role id hid
    exact h'.each role k hk

lemma Descends.expanded (h : a.Descends nodes nodes') (hexpanded : Expanded a a') : a'.Descends nodes nodes' :=
  ⟨fun role k hk => (h.below role k hk).imp fun _ hid => ⟨hid.1, hexpanded.leads hid.2⟩, h.each⟩

/-- The nodes that have been found for one role after the other. -/
lemma descends_ofList {found : List (Role × NodeId)} (hroles : found.map Prod.fst = nodes.toList.map Prod.fst)
    (hbelow : ∀ c ∈ found, ∃ id, nodes[c.1]? = some id ∧ a.Leads id c.2) :
    a.Descends nodes (Std.ExtTreeMap.ofList found) := by
  have hnodup : (found.map Prod.fst).Nodup := by
    rw [hroles, Std.ExtTreeMap.map_fst_toList_eq_keys]
    exact Std.ExtTreeMap.nodup_keys
  constructor
  · intro role k hk
    exact hbelow _ ((ByRole.getElem?_ofList hnodup).1 hk)
  · intro role id hid
    have hin : role ∈ found.map Prod.fst := by
      rw [hroles, List.mem_map]
      exact ⟨(role, id), Std.ExtTreeMap.mem_toList_iff_getElem?_eq_some.2 hid, rfl⟩
    obtain ⟨⟨role', k⟩, hk, rfl⟩ := List.mem_map.1 hin
    exact ⟨k, (ByRole.getElem?_ofList hnodup).2 hk⟩

/-- The roots of the trees are their owners', and there is nothing above them. -/
def Heads (a : Arena R) (trees : ByRole NodeId) : Prop := ∀ (role : Role) (root : NodeId),
  trees[role]? = some root → ∃ depth, a.station? root = some ⟨none, depth, role⟩

lemma Heads.owns {root : NodeId} (h : a.Heads nodes) (hroot : nodes[role]? = some root) : a.Owns role root := by
  obtain ⟨depth, hs⟩ := h role root hroot
  exact ⟨_, hs, rfl⟩

lemma Heads.grows (h : a.Heads nodes) (hgrows : Grows a a') : a'.Heads nodes := fun role root hroot =>
  (h role root hroot).imp fun _ hs => hgrows.station _ _ hs

end Arena

namespace MultiObserver

open TreeAgent

variable {R ε : Type} {x y z : Hosted (TreeAgent MultiObserver R ε) ε} {a : Arena R} {game : Game}
  {own other role : Role} {world : State} {id k root : NodeId}

/-! ## Locating worlds -/

/-- All trees are rooted at the beginning of the match. -/
def Unmoved (x : Hosted (TreeAgent MultiObserver R ε) ε) : Prop := ∀ (role : Role) (root : NodeId),
  x.own.memory.trees[role]? = some root → x.own.arena.station? root = some ⟨none, 0, role⟩

/-- Worlds were located below the roots. -/
def Located (x : Hosted (TreeAgent MultiObserver R ε) ε) : Prop := ∀ (role : Role) (w : State) (id : NodeId),
  x.own.memory.locations[(role, w)]? = some id →
    ∃ root, x.own.memory.trees[role]? = some root ∧ x.own.arena.Leads root id

/-- The trees of an agent have roots, above which there is nothing.  At the beginning of a match worlds are
found in the roots, so that it does not matter then where they were located before the match. -/
structure Stands (x : Hosted (TreeAgent MultiObserver R ε) ε) : Prop where
  shaped : x.own.arena.Shaped
  heads : x.own.arena.Heads x.own.memory.trees
  located : Unmoved x ∨ Located x

lemma Stands.undisturbed (h : Stands x) (hxy : TreeAgent.Undisturbed x y) : Stands y := by
  constructor
  · rw [hxy.arena]
    exact h.shaped
  · rw [hxy.arena, hxy.memory]
    exact h.heads
  · unfold Unmoved Located
    rw [hxy.arena, hxy.memory]
    exact h.located

/-- The trees have grown, and keep their roots. -/
structure Ranges (x y : Hosted (TreeAgent MultiObserver R ε) ε) : Prop where
  stands : Stands y
  trees : y.own.memory.trees = x.own.memory.trees
  expanded : Arena.Expanded x.own.arena y.own.arena

lemma Stands.ranges (h : Stands x) : Ranges x x := ⟨h, rfl, .refl h.shaped⟩

lemma Ranges.trans (h : Ranges x y) (h' : Ranges y z) : Ranges x z :=
  ⟨h'.stands, h'.trees.trans h.trees, h.expanded.trans h'.expanded⟩

/-- Trees that are expanded keep their roots. -/
lemma Stands.expanded (h : Stands x) (hmemory : y.own.memory = x.own.memory)
    (hexpanded : Arena.Expanded x.own.arena y.own.arena) : Ranges x y := by
  refine ⟨⟨hexpanded.shaped, ?_, ?_⟩, by rw [hmemory], hexpanded⟩
  · rw [hmemory]
    exact h.heads.grows hexpanded.toGrows
  · unfold Unmoved Located
    rw [hmemory]
    exact h.located.imp (fun hunmoved role root hroot => hexpanded.station _ _ (hunmoved role root hroot))
      fun hlocated role w id hid => (hlocated role w id hid).imp fun _ hr => ⟨hr.1, hexpanded.leads hr.2⟩

/-- A world was located at a node below the root. -/
lemma Stands.remember (h : Stands x) (hlocated : Located x) (hroot : x.own.memory.trees[other]? = some root)
    (hleads : x.own.arena.Leads root k) :
    Ranges x (withMemory x { x.own.memory with locations := x.own.memory.locations.insert (other, world) k }) := by
  refine ⟨⟨h.shaped, h.heads, .inr fun role w id hid => ?_⟩, rfl, .refl h.shaped⟩
  rw [withMemory, Std.HashMap.getElem?_insert] at hid
  split at hid
  · rename_i hsame
    rw [beq_iff_eq, Prod.mk.injEq] at hsame
    obtain ⟨rfl, -⟩ := hsame
    exact ⟨root, hroot, Option.some.inj hid ▸ hleads⟩
  · exact hlocated role w id hid

lemma root?_eq_ok {memory : MultiObserver} (h : memory.root? role = .ok root) :
    memory.trees[role]? = some root := by
  unfold root? at h
  cases hroot : memory.trees[role]? with
  | none =>
    rw [hroot] at h
    cases h
  | some r =>
    rw [hroot] at h
    exact congrArg some (Except.ok.inj h)

/-- The edge for a turn is one of the edges. -/
lemma mem_of_bind_turnIndex? {edges : Array Edge} {s : Option State} {turn : Turn} {e : Edge}
    (h : ((Arena.turnIndex? edges s turn).bind fun i => edges[i]?) = some e) : e ∈ edges.toList := by
  rw [Arena.turnIndex?, ← Array.find?_eq_bind_findIdx?_getElem?] at h
  exact Array.mem_toList_iff.2 (Array.mem_of_find?_eq_some h)

/-- Following a development leads down the tree. -/
lemma follow_eq_ok {d : Development} {ply : Int} {a' : Arena R} (h : a.Shaped)
    (hrun : follow game role id ply d a = .ok k a') : Arena.Expanded a a' ∧ a'.Leads id k := by
  induction d generalizing a id ply with
  | nil =>
    cases hrun
    exact ⟨.refl h, .refl⟩
  | cons first rest ih =>
    obtain ⟨s, turn⟩ := first
    cases turn with
    | none =>
      cases hrun
      exact ⟨.refl h, .refl⟩
    | some turn =>
      cases rest with
      | nil =>
        cases hrun
        exact ⟨.refl h, .refl⟩
      | cons step rest =>
        rw [follow] at hrun
        obtain ⟨_, a₁, hexpand, h₁⟩ := Action.bind_eq_ok.1 hrun
        rw [Action.bind_of_ok (Action.get_run a₁)] at h₁
        obtain ⟨edges, hedges, h₂⟩ := Action.lift_bind_eq_ok.1 h₁
        have hfirst := Arena.respects_expand _ _ _ hexpand h
        cases hedge : (Arena.turnIndex? edges (some s) turn).bind fun i => edges[i]? with
        | none =>
          rw [hedge] at h₂
          cases h₂
        | some e =>
          rw [hedge] at h₂
          obtain ⟨hrest, hleads⟩ := ih hfirst.shaped h₂
          have he : e ∈ a₁.edgesOf id := Arena.edgesOf_of_edges? hedges ▸ mem_of_bind_turnIndex? hedge
          exact ⟨hfirst.trans hrest, .trans (.step .refl (hrest.edgesOf he)) hleads⟩

/-- Two roots of different plies are not both at the beginning of the match. -/
lemma Stands.located_of_depth_ne {n m : Node R} (h : Stands x) (hroot : x.own.memory.trees[other]? = some root)
    (hn : x.own.arena.node? root = .ok n) (hown : x.own.memory.trees[own]? = some k)
    (hm : x.own.arena.node? k = .ok m) (hne : n.depth ≠ m.depth) : Located x := by
  refine h.located.resolve_left fun hunmoved => hne ?_
  have hdepth : ∀ {role : Role} {id n}, x.own.memory.trees[role]? = some id → x.own.arena.node? id = .ok n →
      n.depth = 0 := by
    intro role id n hid hn
    have hs := hunmoved role id hid
    rw [Arena.station?_of_find? (Arena.node?_eq_ok hn), Option.some.injEq] at hs
    exact congrArg Station.depth hs
  rw [hdepth hroot hn, hdepth hown hm]

/-- A world is located by following a development, which is remembered. -/
lemma Stands.follow {d : Development} {ply : Int} {a : Arena R} {host : ε} (h : Stands x) (hlocated : Located x)
    (hroot : x.own.memory.trees[other]? = some root)
    (hrun : MultiObserver.follow game other root ply d x.own.arena = .ok k a)
    (hy : y = withMemory (withTrees x ⟨a, host⟩)
      { x.own.memory with locations := x.own.memory.locations.insert (other, world) k }) :
    Ranges x y ∧ y.own.arena.Leads root k := by
  obtain ⟨hexpanded, hleads⟩ := follow_eq_ok h.shaped hrun
  have hgrown : Ranges x (withTrees x ⟨a, host⟩) := h.expanded rfl hexpanded
  have hlocated' : Located (withTrees x ⟨a, host⟩) := fun role w id hid =>
    (hlocated role w id hid).imp fun _ hr => ⟨hr.1, hexpanded.leads hr.2⟩
  subst hy
  exact ⟨hgrown.trans (hgrown.stands.remember hlocated' hroot hleads), hleads⟩

/-- A world is located below the root of a role. -/
theorem locate_eq_ok [Dice ε] (h : Stands x)
    (hrun : (locate game own other world : Deliberation MultiObserver R ε NodeId) x = .ok k y) :
    Ranges x y ∧ ∃ root, x.own.memory.trees[other]? = some root ∧ y.own.arena.Leads root k := by
  obtain ⟨memory, x₁, hmemory, h₁⟩ := Action.bind_eq_ok.1 hrun
  cases hmemory
  obtain ⟨root, hroot, h₂⟩ := Action.lift_bind_eq_ok.1 h₁
  have hroot := root?_eq_ok hroot
  obtain ⟨arena, x₂, hget, h₃⟩ := Action.bind_eq_ok.1 h₂
  obtain ⟨a, hsame, rfl⟩ := onArena_eq_ok.1 hget
  cases hsame
  obtain ⟨b, -, h₄⟩ := Action.lift_bind_eq_ok.1 h₃
  obtain ⟨r, hr, h₅⟩ := Action.lift_bind_eq_ok.1 h₄
  obtain ⟨ownRoot, hownRoot, h₆⟩ := Action.lift_bind_eq_ok.1 h₅
  obtain ⟨r', hr', h₇⟩ := Action.lift_bind_eq_ok.1 h₆
  simp only at h₇
  split at h₇
  · split at h₇
    · cases h₇
      exact ⟨h.ranges, k, hroot, .refl⟩
    · obtain ⟨_, _, hthrow, -⟩ := Action.bind_eq_ok.1 h₇
      cases hthrow
  · rename_i hlevel
    have hlocated := h.located_of_depth_ne hroot hr (root?_eq_ok hownRoot) hr' hlevel
    cases hlocation : x.own.memory.locations[(other, world)]? with
    | some id =>
      rw [hlocation] at h₇
      cases h₇
      exact ⟨h.ranges, hlocated other world k hlocation⟩
    | none =>
      rw [hlocation] at h₇
      obtain ⟨developments, -, h₈⟩ := Action.lift_bind_eq_ok.1 h₇
      split at h₈
      · obtain ⟨_, _, hthrow, -⟩ := Action.bind_eq_ok.1 h₈
        cases hthrow
      · obtain ⟨d, x₃, hchoose, h₉⟩ := Action.bind_eq_ok.1 h₈
        obtain ⟨host, -, rfl⟩ := Hosted.onHost_eq_ok.1 hchoose
        obtain ⟨id, x₄, hfound, h₁₀⟩ := Action.bind_eq_ok.1 h₉
        obtain ⟨a, hfollow, rfl⟩ := onArena_eq_ok.1 hfound
        obtain ⟨_, x₅, hremember, h₁₁⟩ := Action.bind_eq_ok.1 h₁₀
        cases hremember
        cases h₁₁
        obtain ⟨hranges, hleads⟩ := h.follow hlocated hroot hfollow rfl
        exact ⟨hranges, root, hroot, hleads⟩

/-- Each role has a node that describes a world, below its root. -/
theorem locateAll_eq_ok [Dice ε] {nodes : ByRole NodeId} (h : Stands x)
    (hrun : (locateAll game own world : Deliberation MultiObserver R ε (ByRole NodeId)) x = .ok nodes y) :
    Ranges x y ∧ y.own.arena.Descends x.own.memory.trees nodes := by
  obtain ⟨memory, x₁, hmemory, h₁⟩ := Action.bind_eq_ok.1 hrun
  cases hmemory
  obtain ⟨found, x₂, hfound, h₂⟩ := Action.bind_eq_ok.1 h₁
  cases h₂
  obtain ⟨hranges, hroles, hbelow⟩ := Action.mapM_eq_ok
    (I := fun (before : List (Role × NodeId)) found z => Ranges x z ∧ found.map Prod.fst = before.map Prod.fst ∧
      ∀ c ∈ found, ∃ root, x.own.memory.trees[c.1]? = some root ∧ z.own.arena.Leads root c.2) (by
    rintro before ⟨role, root⟩ after found z c z' hl ⟨hz, hroles, hbelow⟩ hround
    have hroot : x.own.memory.trees[role]? = some root :=
      Std.ExtTreeMap.mem_toList_iff_getElem?_eq_some.1 (by simp [hl])
    -- what the round adds
    have hadd : Ranges z z' → c.1 = role → (∃ r, z.own.memory.trees[role]? = some r ∧ z'.own.arena.Leads r c.2) →
        Ranges x z' ∧ (found ++ [c]).map Prod.fst = (before ++ [(role, root)]).map Prod.fst ∧
          ∀ c' ∈ found ++ [c], ∃ root, x.own.memory.trees[c'.1]? = some root ∧ z'.own.arena.Leads root c'.2 := by
      rintro hz' rfl ⟨r, hr, hleads⟩
      refine ⟨hz.trans hz', by simp [hroles], fun c' hc' => ?_⟩
      rcases List.mem_append.1 hc' with hc' | hc'
      · exact (hbelow c' hc').imp fun _ hroot => ⟨hroot.1, hz'.expanded.leads hroot.2⟩
      · rw [List.mem_singleton.1 hc']
        exact ⟨r, hz.trees ▸ hr, hleads⟩
    simp only at hround
    split at hround
    · cases hround
      exact hadd hz.stands.ranges rfl ⟨root, hz.trees.symm ▸ hroot, .refl⟩
    · obtain ⟨id, z₁, hlocate, h₃⟩ := Action.bind_eq_ok.1 hround
      cases h₃
      obtain ⟨hz', hleads⟩ := locate_eq_ok hz.stands hlocate
      exact hadd hz' rfl hleads) ⟨h.ranges, rfl, by simp⟩ hfound
  exact ⟨hranges, Arena.descends_ofList hroles hbelow⟩

/-! ## Joint turns -/

variable [Scalar R] [Dice ε] {selector : Selector R ε} {joint : JointNode} {s t : Hosted (Arena R) ε}

lemma respects_selectMove : Action.Respects (Hosted.OnOwn (· = ·))
    (selectMove game selector joint role : Action (Hosted (Arena R) ε) Play) := by
  unfold selectMove
  split
  · exact Action.respects_lift_bind fun moves => (Hosted.respects_onHost _).bind fun _ => Action.respects_pure _
  · refine (Hosted.respects_onOwn Action.respects_get).bind fun a => ?_
    exact (Hosted.respects_onHost _).bind fun key => Action.respects_lift_bind fun _ => Action.respects_pure _

omit [Scalar R] in
lemma edgeFor?_eq_ok {turn : Turn} {e : Edge} (h : edgeFor? a world turn role id = .ok e) : e ∈ a.edgesOf id := by
  unfold edgeFor? at h
  cases hedges : a.edges? id with
  | error f =>
    rw [hedges] at h
    cases h
  | ok edges =>
    simp only [hedges, bind, Except.bind] at h
    rw [Arena.edgesOf_of_edges? hedges]
    cases hedge : (Arena.turnIndex? edges (some world) turn).bind fun i => edges[i]? with
    | none =>
      simp only [Option.bind] at hedge h
      rw [hedge] at h
      cases h
    | some e' =>
      simp only [Option.bind] at hedge h
      rw [hedge] at h
      cases h
      exact mem_of_bind_turnIndex? hedge

omit [Scalar R] [Dice ε] in
/-- The edges that a joint turn takes, one in each tree, lead on from the nodes. -/
lemma edgesFor_eq_ok {a : Arena R} {nodes : ByRole NodeId} {turn : Turn} {edges : List (Role × Edge)}
    (hrun : (nodes.toList.mapM fun (role, id) => do return (role, ← edgeFor? a world turn role id) :
      Action (Hosted (Arena R) ε) (List (Role × Edge))) s = .ok edges t) :
    t = s ∧ a.Descends nodes (.ofList (edges.map fun c => (c.1, c.2.child))) := by
  obtain ⟨rfl, hroles, hbelow⟩ := Action.mapM_eq_ok
    (I := fun (before : List (Role × NodeId)) edges s' => s' = s ∧ edges.map Prod.fst = before.map Prod.fst ∧
      ∀ c ∈ edges, ∃ id, nodes[c.1]? = some id ∧ c.2 ∈ a.edgesOf id) (by
    rintro before ⟨role, id⟩ after edges s' c s'' hl ⟨rfl, hroles, hbelow⟩ hround
    obtain ⟨e, he, h₁⟩ := Action.lift_bind_eq_ok.1 hround
    cases h₁
    refine ⟨rfl, by simp [hroles], fun c hc => ?_⟩
    rcases List.mem_append.1 hc with hc | hc
    · exact hbelow c hc
    · rw [List.mem_singleton.1 hc]
      exact ⟨id, Std.ExtTreeMap.mem_toList_iff_getElem?_eq_some.1 (by simp [hl]), edgeFor?_eq_ok he⟩)
    ⟨rfl, rfl, by simp⟩ hrun
  refine ⟨rfl, Arena.descends_ofList (by rw [List.map_map, ← hroles]; rfl) fun c hc => ?_⟩
  obtain ⟨⟨role, e⟩, he, rfl⟩ := List.mem_map.1 hc
  obtain ⟨id, hid, hin⟩ := hbelow (role, e) he
  exact ⟨id, hid, .step .refl hin⟩

/-- A joint turn follows an edge in each tree. -/
theorem advance_eq_ok {found : Option JointNode} (hrun : advance game selector joint s = .ok found t) :
    t.own = s.own ∧ ∀ next, found = some next → s.own.Descends joint.nodes next.nodes := by
  unfold advance at hrun
  obtain ⟨ended, -, h₁⟩ := Action.lift_bind_eq_ok.1 hrun
  split at h₁
  · cases h₁
    exact ⟨rfl, fun _ hnext => by cases hnext⟩
  · obtain ⟨a, s₁, hget, h₂⟩ := Action.bind_eq_ok.1 h₁
    obtain ⟨own, hget, rfl⟩ := Hosted.onOwn_eq_ok.1 hget
    cases hget
    obtain ⟨expanded, s₂, hexpanded, h₃⟩ := Action.bind_eq_ok.1 h₂
    have hsame : s₂.own = s.own := by
      refine (Action.respects_allM (R := Hosted.OnOwn (· = ·)) (fun node _ => ?_) _ _ _ hexpanded).symm
      exact Action.respects_lift_bind fun _ => Action.respects_pure _
    split at h₃
    · cases h₃
      exact ⟨hsame, fun _ hnext => by cases hnext⟩
    · obtain ⟨control, -, h₄⟩ := Action.lift_bind_eq_ok.1 h₃
      obtain ⟨plays, s₃, hplays, h₅⟩ := Action.bind_eq_ok.1 h₄
      have hsame' : s₃.own = s.own :=
        (Action.respects_mapM (R := Hosted.OnOwn (· = ·)) (fun role _ => respects_selectMove) _ _ _
          hplays).symm.trans hsame
      obtain ⟨edges, s₄, hedges, h₆⟩ := Action.bind_eq_ok.1 h₅
      obtain ⟨rfl, hdescends⟩ := edgesFor_eq_ok hedges
      cases hlast : edges.getLast? with
      | none =>
        rw [hlast] at h₆
        cases h₆
      | some last =>
        rw [hlast] at h₆
        cases h₆
        refine ⟨hsame', fun next hnext => ?_⟩
        cases hnext
        exact hdescends

/-- Descending leads down each tree. -/
theorem descend_eq_ok {fuel : Nat} {reached : JointNode} (hrun : descend game selector fuel joint s = .ok reached t) :
    t.own = s.own ∧ s.own.Descends joint.nodes reached.nodes := by
  induction fuel generalizing joint s with
  | zero => cases hrun
  | succ fuel ih =>
    rw [descend] at hrun
    obtain ⟨found, s₁, hadvance, h₁⟩ := Action.bind_eq_ok.1 hrun
    obtain ⟨hsame, hnext⟩ := advance_eq_ok hadvance
    cases found with
    | none =>
      cases h₁
      exact ⟨hsame, .refl⟩
    | some next =>
      obtain ⟨hsame', hrest⟩ := ih h₁
      rw [hsame] at hsame' hrest
      exact ⟨hsame', (hnext next rfl).trans hrest⟩

/-- The nodes that a simulation reaches are below the roots, one for each. -/
theorem select_eq_ok (h : Stands x)
    (hrun : (select : Deliberation MultiObserver R ε JointNode) x = .ok joint y) :
    Ranges x y ∧ y.own.arena.Descends x.own.memory.trees joint.nodes := by
  obtain ⟨⟨game, role⟩, x₁, hpair, h₁⟩ := Action.bind_eq_ok.1 hrun
  obtain rfl := gameAndRole_eq_ok hpair
  obtain ⟨memory, x₂, hmemory, h₂⟩ := Action.bind_eq_ok.1 h₁
  cases hmemory
  obtain ⟨root, -, h₃⟩ := Action.lift_bind_eq_ok.1 h₂
  obtain ⟨n, x₃, hnode, h₄⟩ := Action.bind_eq_ok.1 h₃
  obtain ⟨a, hn, rfl⟩ := onArena_eq_ok.1 hnode
  obtain ⟨-, rfl⟩ := Arena.node_eq_ok.1 hn
  obtain ⟨world, x₄, hworld, h₅⟩ := Action.bind_eq_ok.1 h₄
  obtain ⟨host, -, rfl⟩ := Hosted.onHost_eq_ok.1 hworld
  obtain ⟨nodes, x₅, hnodes, h₆⟩ := Action.bind_eq_ok.1 h₅
  have hdrawn : Ranges x₁ ⟨x₁.own, host⟩ := h.expanded rfl (.refl h.shaped)
  obtain ⟨hranges, hdescends⟩ := locateAll_eq_ok hdrawn.stands hnodes
  obtain ⟨selector, x₆, hselector, h₇⟩ := Action.bind_eq_ok.1 h₆
  cases hselector
  obtain ⟨t, hdescend, rfl⟩ := onTrees_eq_ok.1 h₇
  obtain ⟨bound, s₁, hbound, h₈⟩ := Action.bind_eq_ok.1 hdescend
  obtain ⟨b, hget, rfl⟩ := Hosted.onOwn_eq_ok.1 hbound
  cases hget
  obtain ⟨hsame, hdescends'⟩ := descend_eq_ok h₈
  have hrest : Ranges x₅ (withTrees x₅ t) :=
    hranges.stands.expanded rfl (show Arena.Expanded x₅.own.arena t.own from hsame ▸ .refl hranges.stands.shaped)
  refine ⟨(hdrawn.trans hranges).trans hrest, ?_⟩
  exact (hdescends.expanded hrest.expanded).trans (hdescends'.expanded hrest.expanded)

end MultiObserver

end GameSearch
