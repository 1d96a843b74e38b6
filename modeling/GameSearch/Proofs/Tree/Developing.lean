import GameSearch.Proofs.Agent.Trees
import GameSearch.Proofs.Belief.Frontier
import GameSearch.Proofs.Perfect.Following
import GameSearch.Proofs.Tree.Pruning

/-!
# Trees whose root is developed

Developing a node keeps the shape of its arena, whatever the game answers, and the node for the later ply
belongs to the same role.
-/

namespace GameSearch.Arena

variable {R ε : Type} {a a' : Arena R} {id k : NodeId} {n : Node R} {game : Game} {role : Role} {ply : Int}
  {view : View} {states : StateSet} {ids : List NodeId} {observed : Evidence}

/-! ## Owners -/

/-- A node belongs to a role. -/
def Owns (a : Arena R) (role : Role) (k : NodeId) : Prop := ∃ s, a.station? k = some s ∧ s.role = role

lemma Owns.grows (h : a.Owns role k) (hgrows : Grows a a') : a'.Owns role k := by
  obtain ⟨s, hs, hrole⟩ := h
  exact ⟨s, hgrows.station k s hs, hrole⟩

lemma Owns.of_find? (h : a.Owns role id) (hn : a.find? id = some n) : n.role = role := by
  obtain ⟨s, hs, hrole⟩ := h
  rw [station?_of_find? hn, Option.some.injEq] at hs
  rw [← hrole, ← hs]
  rfl

lemma Shaped.owns_child {e : Edge} (h : a.Shaped) (hid : a.Owns role id) (he : e ∈ a.edgesOf id) :
    a.Owns role e.child := by
  obtain ⟨s, hs, hchild⟩ := h.child he
  obtain ⟨s', hs', hrole⟩ := hid
  rw [hs, Option.some.injEq] at hs'
  exact ⟨_, hchild, hs' ▸ hrole⟩

lemma Shaped.owns_leads (h : a.Shaped) (hid : a.Owns role id) (hleads : a.Leads id k) : a.Owns role k := by
  induction hleads with
  | refl => exact hid
  | step _ he ih => exact h.owns_child ih he

/-! ## New roots -/

lemma respects_addBelief {isComplete : Bool} : Action.Respects Reshapes
    (addBelief role ply view states isComplete : Action (Arena R) NodeId) := by
  unfold addBelief
  simp only
  refine Action.Respects.ite (fun _ => ?_) fun _ => ?_
  · exact (Action.respects_throw _).bind fun _ =>
      (respects_add fun _ hn => Node.bare_of_belief? hn).mono fun _ _ => Expands.reshapes
  · exact (respects_add fun _ hn => Node.bare_of_belief? hn).mono fun _ _ => Expands.reshapes

lemma owns_of_addBelief {isComplete : Bool} (h : a.Shaped)
    (hrun : addBelief role ply view states isComplete a = .ok k a') : a'.Owns role k := by
  unfold addBelief at hrun
  simp only at hrun
  split at hrun
  · obtain ⟨_, _, hthrow, -⟩ := Action.bind_eq_ok.1 hrun
    cases hthrow
  · obtain ⟨n, hn, hadded⟩ := h.orderly.add_eq_ok hrun
    obtain ⟨b, -, rfl⟩ := Node.belief?_eq_ok hn
    exact ⟨_, station?_of_find? hadded.self, rfl⟩

/-- A node of a role has been found or made. -/
structure Finds (a : Arena R) (role : Role) (k : NodeId) (a' : Arena R) : Prop extends Reshaped a a' where
  owns : a'.Owns role k

lemma Finds.then {a'' : Arena R} (h : Finds a role k a') (h' : Reshaped a' a'') : Finds a role k a'' :=
  ⟨⟨h.toGrows.trans h'.toGrows, h'.shaped⟩, h.owns.grows h'.toGrows⟩

lemma Reshaped.finds {a'' : Arena R} (h : Reshaped a a') (h' : Finds a' role k a'') : Finds a role k a'' :=
  ⟨⟨h.toGrows.trans h'.toGrows, h'.shaped⟩, h'.owns⟩

lemma addBelief_finds {isComplete : Bool} (h : a.Shaped)
    (hrun : addBelief role ply view states isComplete a = .ok k a') : Finds a role k a' :=
  ⟨respects_addBelief a k a' hrun h, owns_of_addBelief h hrun⟩

lemma resample_finds (h : a.Shaped) (hrun : resample game role ply view observed a = .ok k a') :
    Finds a role k a' := by
  obtain ⟨⟨states, isComplete⟩, -, hrun⟩ := Action.lift_bind_eq_ok.1 hrun
  simp only at hrun
  split at hrun
  · obtain ⟨_, _, hthrow, -⟩ := Action.bind_eq_ok.1 hrun
    cases hthrow
  · exact addBelief_finds h hrun

lemma respects_observeAt : Action.Respects Reshapes (observeAt id view states : Action (Arena R) Unit) := by
  refine Action.Respects.bind (respects_reviseBelief fun b => ?_) fun _ =>
    respects_restrict.bind fun _ => respects_trimBelief
  unfold Belief.observe
  split <;> rfl

lemma observeAt_finds (h : a.Shaped) (hk : a.Owns role k) (hrun : observeAt k view states a = .ok ⟨⟩ a') :
    Finds a role k a' := by
  have hreshaped := respects_observeAt a ⟨⟩ a' hrun h
  exact ⟨hreshaped, hk.grows hreshaped.toGrows⟩

/-! ## Growing the tree -/

/-- The nodes found below nodes of a role belong to it. -/
lemma growFrontier_eq_ok {r : Option (List NodeId)} (h : a.Shaped) (hids : ∀ id ∈ ids, a.Owns role id)
    (hrun : growFrontier game ids a = .ok r a') :
    Reshaped a a' ∧ ∀ next, r = some next → ∀ k ∈ next, a'.Owns role k := by
  unfold growFrontier at hrun
  obtain ⟨⟨ended, found⟩, a₁, hloop, hrest⟩ := Action.bind_eq_ok.1 hrun
  have hloop := Action.forIn_value_eq_ok
    (I := fun (s : Option (Option (List NodeId)) × Found) b => Reshaped a b ∧
      (∀ r, s.1 = some r → r = none) ∧ s.2.Faithful ∧ ∀ k ∈ s.2.order.toList, b.Owns role k)
    (by
      rintro id hid ⟨ended, found⟩ b r b' ⟨hb, hended, hfaithful, hfound⟩ hround
      obtain ⟨belief, b₁, hbelief, h₁⟩ := Action.bind_eq_ok.1 hround
      obtain ⟨-, rfl⟩ := belief_eq_ok.1 hbelief
      split at h₁
      · cases h₁
        exact ⟨hb, fun r hr => (Option.some.inj hr).symm, hfaithful, hfound⟩
      · obtain ⟨_, b₂, hexpand, h₂⟩ := Action.bind_eq_ok.1 h₁
        rw [Action.bind_of_ok (Action.get_run b₂)] at h₂
        obtain ⟨edges, hedges, h₄⟩ := Action.lift_bind_eq_ok.1 h₂
        rw [Action.bind_of_ok (noteEdges_run _ _ _)] at h₄
        cases h₄
        have hstep := respects_expandBelief _ _ _ hexpand hb.shaped
        have hlist := edgesOf_of_edges? hedges
        refine ⟨⟨hb.toGrows.trans hstep.toGrows, hstep.shaped⟩, fun r hr => (by cases hr),
          hfaithful.noteAll _, fun k hk => ?_⟩
        rcases hfaithful.mem_noteAll.1 hk with hk | hk
        · exact (hfound k hk).grows hstep.toGrows
        · obtain ⟨e, he, rfl⟩ := List.mem_map.1 hk
          exact hstep.shaped.owns_child (((hids id hid).grows hb.toGrows).grows hstep.toGrows)
            (hlist.symm ▸ he))
    (b := (none, {})) ⟨⟨.refl, h⟩, fun r hr => (by cases hr), Found.faithful_empty, by simp⟩ hloop
  obtain ⟨hreshaped, hended, -, hfound⟩ := hloop
  cases ended with
  | some r' =>
    cases hrest
    rw [hended r rfl]
    exact ⟨hreshaped, fun next hnext => by cases hnext⟩
  | none =>
    simp only at hrest
    split at hrest
    · cases hrest
      exact ⟨hreshaped, fun next hnext => by cases hnext⟩
    · cases hrest
      refine ⟨hreshaped, fun next hnext => ?_⟩
      cases hnext
      exact hfound

lemma growFrontiers_eq_ok {plies : Nat} {r : Option (List NodeId)} (h : a.Shaped)
    (hids : ∀ id ∈ ids, a.Owns role id) (hrun : growFrontiers game plies ids a = .ok r a') :
    Reshaped a a' ∧ ∀ next, r = some next → ∀ k ∈ next, a'.Owns role k := by
  induction plies generalizing a ids with
  | zero =>
    cases hrun
    exact ⟨⟨.refl, h⟩, fun next hnext => Option.some.inj hnext ▸ hids⟩
  | succ plies ih =>
    rw [growFrontiers] at hrun
    obtain ⟨grown, a₁, hgrow, hrest⟩ := Action.bind_eq_ok.1 hrun
    obtain ⟨hfirst, hgrown⟩ := growFrontier_eq_ok h hids hgrow
    cases grown with
    | none =>
      cases hrest
      exact ⟨hfirst, fun next hnext => by cases hnext⟩
    | some next =>
      obtain ⟨hsecond, hnext⟩ := ih hfirst.shaped (hgrown next rfl) hrest
      exact ⟨⟨hfirst.toGrows.trans hsecond.toGrows, hsecond.shaped⟩, hnext⟩

/-- The results of a query about some nodes, each with its node. -/
lemma mapM_node_eq_ok {α : Type} {f : NodeId → Action (Arena R) (NodeId × α)} {found : List (NodeId × α)}
    (hf : ∀ id b r b', f id b = .ok r b' → b' = b ∧ r.1 = id) (hrun : ids.mapM f a = .ok found a') :
    a' = a ∧ ∀ c ∈ found, c.1 ∈ ids := by
  refine Action.mapM_eq_ok (I := fun before found b => b = a ∧ ∀ c ∈ found, c.1 ∈ before) ?_ ⟨rfl, by simp⟩ hrun
  rintro before id after found b c b' - ⟨rfl, hfound⟩ hround
  obtain ⟨rfl, rfl⟩ := hf _ _ _ _ hround
  refine ⟨rfl, fun d hd => ?_⟩
  rcases List.mem_append.1 hd with hd | hd
  · exact List.mem_append_left _ (hfound d hd)
  · rw [List.mem_singleton.1 hd]
    simp

lemma candidates_eq_ok {found : List (NodeId × StateSet)}
    (hrun : candidates game role view ids a = .ok found a') : a' = a ∧ ∀ c ∈ found, c.1 ∈ ids := by
  obtain ⟨all, a₁, hall, hrest⟩ := Action.bind_eq_ok.1 hrun
  cases hrest
  obtain ⟨hsame, hmem⟩ := mapM_node_eq_ok (fun id b r b' hround => by
    obtain ⟨belief, b₁, hbelief, h₁⟩ := Action.bind_eq_ok.1 hround
    obtain ⟨-, rfl⟩ := belief_eq_ok.1 hbelief
    obtain ⟨states, -, h₂⟩ := Action.lift_bind_eq_ok.1 h₁
    cases h₂
    exact ⟨rfl, rfl⟩) hall
  exact ⟨hsame, fun c hc => hmem c (List.mem_filter.1 hc).1⟩

lemma soleHolder?_eq_ok {r : Option NodeId} (hrun : soleHolder? ids states a = .ok r a') :
    a' = a ∧ ∀ k, r = some k → k ∈ ids := by
  obtain ⟨all, a₁, hall, hrest⟩ := Action.bind_eq_ok.1 hrun
  obtain ⟨rfl, hmem⟩ := mapM_node_eq_ok (fun id b r b' hround => by
    obtain ⟨belief, b₁, hbelief, h₁⟩ := Action.bind_eq_ok.1 hround
    obtain ⟨-, rfl⟩ := belief_eq_ok.1 hbelief
    cases h₁
    exact ⟨rfl, rfl⟩) hall
  simp only at hrest
  cases hfilter : all.filter fun x => states.toList.any fun s => x.2.contains s with
  | nil =>
    rw [hfilter] at hrest
    cases hrest
    exact ⟨rfl, fun k hk => by cases hk⟩
  | cons x rest =>
    rw [hfilter] at hrest
    cases rest with
    | cons y rest =>
      cases hrest
      exact ⟨rfl, fun k hk => by cases hk⟩
    | nil =>
      have hin : x ∈ all := List.mem_of_mem_filter (hfilter ▸ List.mem_singleton_self _)
      cases hrest
      refine ⟨rfl, fun k hk => ?_⟩
      split at hk
      · exact Option.some.inj hk ▸ hmem x hin
      · cases hk

/-- The node found in the tree, or made for the nodes that were found. -/
lemma developThroughTree_eq_ok {r : Option NodeId} (h : a.Shaped) (hid : a.Owns role id)
    (hrun : developThroughTree game id ply view a = .ok r a') :
    Reshaped a a' ∧ ∀ k, r = some k → a'.Owns role k := by
  obtain ⟨n, a₁, hnode, h₁⟩ := Action.bind_eq_ok.1 hrun
  obtain ⟨hn, rfl⟩ := node_eq_ok.1 hnode
  have hrole := hid.of_find? hn
  obtain ⟨grown, a₂, hgrow, h₂⟩ := Action.bind_eq_ok.1 h₁
  obtain ⟨hfirst, hgrown⟩ := growFrontiers_eq_ok h (by simpa using hid) hgrow
  cases grown with
  | none =>
    cases h₂
    exact ⟨hfirst, fun k hk => by cases hk⟩
  | some frontier =>
    obtain ⟨found, a₃, hfound, h₃⟩ := Action.bind_eq_ok.1 h₂
    obtain ⟨rfl, hmem⟩ := candidates_eq_ok hfound
    match found, h₃, hmem with
    | [], h₃, _ => cases h₃
    | [(found, states)], h₃, hmem =>
      obtain ⟨_, a₄, hobserve, h₄⟩ := Action.bind_eq_ok.1 h₃
      cases h₄
      have hfinds := observeAt_finds hfirst.shaped (hgrown frontier rfl found (hmem (found, states) (by simp)))
        hobserve
      refine ⟨(hfirst.finds hfinds).toReshaped, fun k hk => ?_⟩
      exact Option.some.inj hk ▸ hfinds.owns
    | c :: c' :: found, h₃, _ =>
      obtain ⟨k, a₄, hadd, h₄⟩ := Action.bind_eq_ok.1 h₃
      cases h₄
      have hfinds := addBelief_finds hfirst.shaped hadd
      refine ⟨(hfirst.finds hfinds).toReshaped, fun k hk => ?_⟩
      exact Option.some.inj hk ▸ hrole ▸ hfinds.owns

/-! ## Listing developments -/

/-- The nodes some plies below nodes of a role belong to it. -/
lemma Shaped.owns_nodesBelow {limit plies : Nat} (h : a.Shaped) (hids : ∀ id ∈ ids, a.Owns role id) :
    ∀ k ∈ a.nodesBelow limit plies ids, a.Owns role k := by
  induction plies generalizing ids with
  | zero => exact hids
  | succ plies ih =>
    intro k hk
    rw [nodesBelow] at hk
    split at hk
    · cases hk
    · refine ih (fun x hx => ?_) k hk
      simp only [Found.foldl_note_eq] at hx
      obtain ⟨-, hmem⟩ := Found.faithful_empty.foldl_noteAll (fun id => (a.edgesOf id).map Edge.child) ids
      rcases hmem.1 hx with hx | ⟨id, hid, hx⟩
      · simp at hx
      · obtain ⟨e, he, rfl⟩ := List.mem_map.1 hx
        exact h.owns_child (hids id hid) he

lemma developThroughDevelopments_eq_ok (h : a.Shaped) (hid : a.Owns role id)
    (hrun : developThroughDevelopments game id ply view observed a = .ok k a') : Finds a role k a' := by
  obtain ⟨n, a₁, hnode, h₁⟩ := Action.bind_eq_ok.1 hrun
  obtain ⟨hn, rfl⟩ := node_eq_ok.1 hnode
  have hrole := hid.of_find? hn
  obtain ⟨b, a₂, hbelief, h₂⟩ := Action.bind_eq_ok.1 h₁
  obtain ⟨-, rfl⟩ := belief_eq_ok.1 hbelief
  obtain ⟨states, -, h₃⟩ := Action.lift_bind_eq_ok.1 h₂
  split at h₃
  · simp only at h₃
    split at h₃
    · obtain ⟨_, _, hthrow, -⟩ := Action.bind_eq_ok.1 h₃
      cases hthrow
    · exact hrole ▸ resample_finds h h₃
  · rw [Action.bind_of_ok (Action.get_run a₂)] at h₃
    obtain ⟨holder, a₃, hholder, h₄⟩ := Action.bind_eq_ok.1 h₃
    obtain ⟨rfl, hmem⟩ := soleHolder?_eq_ok hholder
    cases holder with
    | none => exact hrole ▸ addBelief_finds h h₄
    | some found =>
      have hfound : a₃.Owns role found :=
        h.owns_nodesBelow (by simpa using hid) found (hmem found rfl)
      simp only at h₄
      have hobserve : ∀ {b b' : Arena R}, b.Shaped → b.Owns role found →
          (do
            observeAt found view states
            pure found : Action (Arena R) NodeId) b = .ok k b' → Finds b role k b' := by
        intro b b' hb howns hrun
        obtain ⟨_, b₁, hobserve, h₅⟩ := Action.bind_eq_ok.1 hrun
        cases h₅
        exact observeAt_finds hb howns hobserve
      split at h₄
      · obtain ⟨_, a₄, hmark, h₅⟩ := Action.bind_eq_ok.1 h₄
        have hmarked := respects_markSampled _ _ _ hmark h
        exact hmarked.finds (hobserve hmarked.shaped (hfound.grows hmarked.toGrows) h₅)
      · exact hobserve h hfound h₄

lemma developHere_eq_ok (h : a.Shaped) (hid : a.Owns role id)
    (hrun : developHere game id ply view observed a = .ok k a') : Finds a role k a' := by
  obtain ⟨n, a₁, hnode, h₁⟩ := Action.bind_eq_ok.1 hrun
  obtain ⟨hn, rfl⟩ := node_eq_ok.1 hnode
  have hrole := hid.of_find? hn
  obtain ⟨b, a₂, hbelief, h₂⟩ := Action.bind_eq_ok.1 h₁
  obtain ⟨-, rfl⟩ := belief_eq_ok.1 hbelief
  split at h₂
  · cases h₂
    exact ⟨⟨.refl, h⟩, hid⟩
  · obtain ⟨states, -, h₃⟩ := Action.lift_bind_eq_ok.1 h₂
    split at h₃
    · simp only at h₃
      split at h₃
      · obtain ⟨_, _, hthrow, -⟩ := Action.bind_eq_ok.1 h₃
        cases hthrow
      · exact hrole ▸ resample_finds h h₃
    · obtain ⟨_, a₃, hobserve, h₄⟩ := Action.bind_eq_ok.1 h₃
      cases h₄
      exact observeAt_finds h hid hobserve

/-! ## Developing a root -/

lemma developBelief_eq_ok (h : a.Shaped) (hid : a.Owns role id)
    (hrun : developBelief game id ply view a = .ok k a') : Finds a role k a' := by
  obtain ⟨n, a₁, hnode, h₁⟩ := Action.bind_eq_ok.1 hrun
  obtain ⟨hn, rfl⟩ := node_eq_ok.1 hnode
  obtain ⟨b, a₂, hbelief, h₂⟩ := Action.bind_eq_ok.1 h₁
  obtain ⟨-, rfl⟩ := belief_eq_ok.1 hbelief
  -- what is left to do once the node has been found
  have hrecord : ∀ {found : NodeId} {c c' : Arena R}, Finds a₂ role found c →
      (do
        changeBelief found fun b' => { b' with history := observedUpTo n b ply view }
        pure found : Action (Arena R) NodeId) c = .ok k c' → Finds a₂ role k c' := by
    intro found c c' hfound hrun
    obtain ⟨_, c₁, hchange, h₃⟩ := Action.bind_eq_ok.1 hrun
    cases h₃
    exact hfound.then (changeBelief_expanded hfound.shaped hchange fun _ => rfl).toReshaped
  simp only at h₂
  split at h₂
  · obtain ⟨_, _, hthrow, -⟩ := Action.bind_eq_ok.1 h₂
    cases hthrow
  · split at h₂
    · obtain ⟨found, a₃, hhere, h₃⟩ := Action.bind_eq_ok.1 h₂
      exact hrecord (developHere_eq_ok h hid hhere) h₃
    · obtain ⟨_, a₃, htrim, h₃⟩ := Action.bind_eq_ok.1 h₂
      have htrimmed := respects_trimBelief _ _ _ htrim h
      have hid' := hid.grows htrimmed.toGrows
      obtain ⟨r, a₄, htree, h₄⟩ := Action.bind_eq_ok.1 h₃
      obtain ⟨hgrown, hfound⟩ := developThroughTree_eq_ok htrimmed.shaped hid' htree
      cases r with
      | some found => exact hrecord (htrimmed.finds ⟨hgrown, hfound found rfl⟩) h₄
      | none =>
        obtain ⟨found, a₅, hlist, h₅⟩ := Action.bind_eq_ok.1 h₄
        have hlisted := developThroughDevelopments_eq_ok hgrown.shaped (hid'.grows hgrown.toGrows) hlist
        exact hrecord (htrimmed.finds (hgrown.finds hlisted)) h₅

/-- Following a development from a node of a role leads to a node of that role. -/
lemma followPerfect_eq_ok {inTree : Bool} {depth : Nat} {d : Development} (h : a.Shaped)
    (hid : a.Owns role id) (hrun : followPerfect role id inTree depth d a = .ok k a') : Finds a role k a' := by
  induction d generalizing a id inTree depth with
  | nil =>
    cases hrun
    exact ⟨⟨.refl, h⟩, hid⟩
  | cons first rest ih =>
    obtain ⟨s, turn⟩ := first
    cases turn with
    | none =>
      cases hrun
      exact ⟨⟨.refl, h⟩, hid⟩
    | some turn =>
      cases rest with
      | nil =>
        cases hrun
        exact ⟨⟨.refl, h⟩, hid⟩
      | cons step rest =>
        rw [followPerfect, Action.bind_of_ok (Action.get_run a)] at hrun
        cases hedge : if inTree then a.edgeFor? id turn else none with
        | some e =>
          rw [hedge] at hrun
          obtain ⟨n, hn, -⟩ := station?_eq_some.1 hid.choose_spec.1
          obtain ⟨he, -⟩ := mem_of_edgeFor? hn (Option.ite_none_right_eq_some.1 hedge).2
          exact ih h (h.owns_child hid (edgesOf_of_find? hn ▸ he)) hrun
        | none =>
          rw [hedge] at hrun
          obtain ⟨next, a₁, hadd, hrest⟩ := Action.bind_eq_ok.1 hrun
          obtain ⟨n, hn, hadded⟩ := h.orderly.add_eq_ok hadd
          have hfirst := (hadded.expanded h (Node.bare_of_perfect? hn)).toReshaped
          refine hfirst.finds (ih hfirst.shaped ⟨_, station?_of_find? hadded.self, ?_⟩ hrest)
          rw [Node.perfect?_eq_ok hn]
          rfl

lemma developPerfect_eq_ok (h : a.Shaped) (hid : a.Owns role id)
    (hrun : developPerfect game id ply view a = .ok k a') : Finds a role k a' := by
  rw [developPerfect, Action.bind_of_ok (Action.get_run a)] at hrun
  obtain ⟨s, hs, h₁⟩ := Action.lift_bind_eq_ok.1 hrun
  obtain ⟨n, turn, hn, hknowledge⟩ := state?_eq_ok.1 hs
  rw [Action.bind_of_ok (node_of_find? hn)] at h₁
  have hrole := hid.of_find? hn
  simp only at h₁
  split at h₁
  · obtain ⟨_, _, hthrow, -⟩ := Action.bind_eq_ok.1 h₁
    cases hthrow
  · split at h₁
    · obtain ⟨shown, -, h₂⟩ := Action.lift_bind_eq_ok.1 h₁
      split at h₂
      · obtain ⟨_, _, hthrow, -⟩ := Action.bind_eq_ok.1 h₂
        cases hthrow
      · rw [Action.bind_of_ok trimPerfect_run] at h₂
        cases h₂
        have hreshaped := h.trimPerfect hn ⟨s, turn, hknowledge⟩
        exact ⟨hreshaped, hid.grows hreshaped.toGrows⟩
    · obtain ⟨d, -, h₂⟩ := Action.lift_bind_eq_ok.1 h₁
      cases d with
      | none => cases h₂
      | some d => exact hrole ▸ followPerfect_eq_ok h (hrole ▸ hid) h₂

lemma respects_limitWorlds [Dice ε] : Action.Respects (Hosted.OnOwn Reshapes)
    (limitWorlds id : Action (Hosted (Arena R) ε) Unit) := by
  refine (Hosted.respects_onOwn respects_belief).bind fun b => ?_
  refine Action.Respects.ite (fun _ => ?_) fun _ => Action.respects_pure _
  exact (Hosted.respects_onHost _).bind fun sample => Hosted.respects_onOwn respects_setSample

/-- Developing a node of either kind finds a node of the same role. -/
theorem develop_eq_ok [Dice ε] {s t : Hosted (Arena R) ε} (h : s.own.Shaped) (hid : s.own.Owns role id)
    (hrun : develop game id ply view s = .ok k t) : Finds s.own role k t.own := by
  obtain ⟨n, s₁, hnode, h₁⟩ := Action.bind_eq_ok.1 hrun
  obtain ⟨a, hn, rfl⟩ := Hosted.onOwn_eq_ok.1 hnode
  obtain ⟨-, rfl⟩ := node_eq_ok.1 hn
  cases hknowledge : n.knowledge with
  | perfect state turn =>
    rw [hknowledge] at h₁
    obtain ⟨a, hdevelop, rfl⟩ := Hosted.onOwn_eq_ok.1 h₁
    exact developPerfect_eq_ok h hid hdevelop
  | belief b =>
    rw [hknowledge] at h₁
    obtain ⟨found, s₂, hdevelop, h₂⟩ := Action.bind_eq_ok.1 h₁
    obtain ⟨a, hbelief, rfl⟩ := Hosted.onOwn_eq_ok.1 hdevelop
    obtain ⟨_, s₃, hlimit, h₃⟩ := Action.bind_eq_ok.1 h₂
    cases h₃
    have hfinds := developBelief_eq_ok h hid hbelief
    exact hfinds.then (respects_limitWorlds _ _ _ hlimit hfinds.shaped)

end GameSearch.Arena
