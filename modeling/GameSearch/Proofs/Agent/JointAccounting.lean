import GameSearch.Proofs.Agent.JointDescent

/-!
# What an agent with a tree for each role counts

A simulation from every point of view ends at one node in each tree, and each of these nodes takes in the
utility of its owner, with all nodes above it.  The trees have no node in common, so that no node takes in
two utilities.
-/

namespace GameSearch

namespace Arena

variable {R : Type} {a a' b c : Arena R} {role role' : Role} {id k : NodeId} {finals : List (NodeId × R)}

lemma Owns.unique (h : a.Owns role k) (h' : a.Owns role' k) : role = role' := by
  obtain ⟨s, hs, hrole⟩ := h
  obtain ⟨s', hs', hrole'⟩ := h'
  rw [hs, Option.some.injEq] at hs'
  rw [← hrole, ← hrole', hs']

section Credited

open Classical

/-- The utilities of the final nodes that a node is above. -/
noncomputable def brings (a : Arena R) (finals : List (NodeId × R)) (id : NodeId) : List R :=
  (finals.filter fun final => a.Leads id final.1).map Prod.snd

/-- Where no node is above two final nodes, a simulation brings each node what it is credited with. -/
lemma Shaped.credit_eq (h : a.Shaped) (hid : a.contains id = true)
    (hapart : finals.Pairwise fun f g => ¬(a.Leads id f.1 ∧ a.Leads id g.1)) :
    a.credit finals id = a.brings finals id := by
  unfold credit brings
  simp only [h.mem_subtree hid]
  induction finals with
  | nil => rfl
  | cons final finals ih =>
    obtain ⟨hfirst, hrest⟩ := List.pairwise_cons.1 hapart
    by_cases hleads : a.Leads id final.1
    · have hnone : finals.filter (fun f => a.Leads id f.1) = [] :=
        List.filter_eq_nil_iff.2 fun f hf hleads' => hfirst f hf ⟨hleads, of_decide_eq_true hleads'⟩
      simp [hleads, hnone]
    · simpa [hleads] using ih hrest

lemma Revalued.brings (h : Revalued a a') (id : NodeId) : a'.brings finals id = a.brings finals id := by
  unfold Arena.brings
  rw [List.filter_congr fun final _ => decide_eq_decide.2 h.leads_iff]

/-- A node above a final node is credited once. -/
lemma Shaped.length_credit {final : NodeId × R} (h : a.Shaped) (hid : a.contains id = true) (hfinal : final ∈ finals)
    (hleads : a.Leads id final.1) : (a.credit finals id).length = 1 := by
  unfold credit
  have hsome : (finals.find? fun final => final.1 ∈ a.subtree id).isSome = true :=
    List.find?_isSome.2 ⟨final, hfinal, by simp [h.mem_subtree hid, hleads]⟩
  obtain ⟨found, hfound⟩ := Option.isSome_iff_exists.1 hsome
  rw [hfound]
  rfl

variable [Scalar R] {utility : R}

/-- Each final node has taken in its utility, with all nodes above it. -/
structure Credited (finals : List (NodeId × R)) (a a' : Arena R) : Prop extends Revalued a a' where
  valuation : ∀ id, a'.valuation? id = (a.brings finals id).foldl Valuation.take (a.valuation? id)

lemma Credited.nil : Credited [] a a := ⟨.refl, fun _ => rfl⟩

lemma Credited.snoc (h : Credited finals a b) (hcredits : Credits (b.Leads · k) utility b c) :
    Credited (finals ++ [(k, utility)]) a c := by
  refine ⟨h.toRevalued.trans hcredits.toRevalued, fun id => ?_⟩
  unfold brings
  rw [List.filter_append, List.map_append, List.foldl_append]
  by_cases hleads : a.Leads id k
  · rw [hcredits.taken id (h.leads_iff.2 hleads), h.valuation]
    simp [brings, hleads]
  · rw [hcredits.kept id fun hb => hleads (h.leads_iff.1 hb), h.valuation]
    simp [brings, hleads]

end Credited

end Arena

namespace MultiObserver

open TreeAgent

variable {R ε : Type} [Scalar R] {x y z : Hosted (TreeAgent MultiObserver R ε) ε} {joint : JointNode}
  {utilities : ByRole R}

/-! ## A simulation -/

/-- The final nodes of some roles, with their utilities. -/
def finals (utilities : ByRole R) (nodes : List (Role × NodeId)) : List (NodeId × R) :=
  nodes.filterMap fun (role, id) => utilities[role]?.map fun utility => (id, utility)

/-- The final nodes take in the utilities of their owners, with all nodes above them. -/
def creditAll (utilities : ByRole R) (nodes : List (Role × NodeId)) : Deliberation MultiObserver R ε PUnit := do
  for (role, id) in nodes do
    match utilities[role]? with
    | none => throw .outOfRange
    | some utility =>
      TreeAgent.onArena (Arena.propagate id utility)
      TreeAgent.onArena (Arena.backpropagate id utility)

/-- A simulation that tells at which nodes it ended, and which utilities it found for their owners. -/
def simulateTo [Dice ε] : Deliberation MultiObserver R ε (List (NodeId × R)) := do
  let game ← (← Hosted.read).seat.game? label
  let joint ← select
  for (_, id) in joint.nodes.toList do
    TreeAgent.onArena (Arena.expand game id)
  let evaluator ← TreeAgent.theEvaluator
  let utilities ← Hosted.onHost (evaluator.evaluateAll game joint.world joint.nodes.keys)
  creditAll utilities joint.nodes.toList
  return finals utilities joint.nodes.toList

instance [Host ε] : Recounts MultiObserver R ε where
  roots memory := memory.trees.values
  recount := simulateTo
  recount_step := by
    simp only [simulateTo, creditAll, bind_assoc, pure_bind]
    rfl

/-- The trees have taken in some utilities. -/
structure Credited (finals : List (NodeId × R)) (x y : Hosted (TreeAgent MultiObserver R ε) ε) : Prop where
  memory : y.own.memory = x.own.memory
  arena : Arena.Credited finals x.own.arena y.own.arena

/-- Taking in utilities keeps the shape of the trees and their roots. -/
lemma Credited.stands {finals : List (NodeId × R)} (hcredited : Credited finals x y) (h : Stands x) : Stands y := by
  refine ⟨hcredited.arena.shaped h.shaped, ?_, ?_⟩
  · rw [hcredited.memory]
    exact fun role root hroot => (h.heads role root hroot).imp fun _ hs =>
      (hcredited.arena.station? root).trans hs
  · unfold Unmoved Located
    rw [hcredited.memory]
    exact h.located.imp
      (fun hunmoved role root hroot => (hcredited.arena.station? root).trans (hunmoved role root hroot))
      fun hlocated role w id hid => (hlocated role w id hid).imp fun _ hr => ⟨hr.1, hcredited.arena.leads_iff.2 hr.2⟩

/-- A final node takes in the utility of its owner. -/
lemma Credited.propagate {finals : List (NodeId × R)} {role : Role} {root id : NodeId} {utility : R}
    {a b : Arena R} (hcredited : Credited finals x y) (h : Stands x)
    (hroot : x.own.memory.trees[role]? = some root) (hleads : x.own.arena.Leads root id)
    (hself : Arena.propagate id utility y.own.arena = .ok ⟨⟩ a) (hup : Arena.backpropagate id utility a = .ok ⟨⟩ b) :
    Arena.Credited (finals ++ [(id, utility)]) x.own.arena b := by
  have hy := hcredited.stands h
  obtain ⟨depth, hs⟩ := hy.heads role root (by rw [hcredited.memory, hroot])
  exact hcredited.arena.snoc
    (Arena.backpropagate_credits hy.shaped hs rfl (hcredited.arena.leads_iff.2 hleads) hself hup)

/-- Each final node has its utility, which it has taken in. -/
theorem creditAll_eq_ok (h : Stands x) (hdescends : x.own.arena.Descends x.own.memory.trees joint.nodes)
    (hrun : (creditAll utilities joint.nodes.toList : Deliberation MultiObserver R ε PUnit) x = .ok ⟨⟩ y) :
    Credited (finals utilities joint.nodes.toList) x y ∧
      ∀ node ∈ joint.nodes.toList, ∃ utility, utilities[node.1]? = some utility := by
  refine Action.forIn_eq_ok (I := fun before _ z => Credited (finals utilities before) x z ∧
    ∀ node ∈ before, ∃ utility, utilities[node.1]? = some utility) ?_ ⟨⟨rfl, .nil⟩, by simp⟩
    (by simpa only [creditAll, bind_pure_unit] using hrun)
  rintro before ⟨role, id⟩ after _ z r z' hl ⟨hz, hhave⟩ hround
  cases hutility : utilities[role]? with
  | none =>
    simp only [hutility] at hround
    cases hround
  | some utility =>
    simp only [hutility] at hround
    obtain ⟨_, z₁, hfirst, h₁⟩ := Action.bind_eq_ok.1 hround
    obtain ⟨a, hself, rfl⟩ := onArena_eq_ok.1 hfirst
    obtain ⟨_, z₂, hsecond, h₂⟩ := Action.bind_eq_ok.1 h₁
    obtain ⟨b, hup, rfl⟩ := onArena_eq_ok.1 hsecond
    cases h₂
    obtain ⟨root, hroot, hleads⟩ :=
      hdescends.below role id (Std.ExtTreeMap.mem_toList_iff_getElem?_eq_some.1 (by simp [hl]))
    have hmore : finals utilities (before ++ [(role, id)]) = finals utilities before ++ [(id, utility)] := by
      simp [finals, hutility]
    refine ⟨⟨⟩, rfl, ⟨hz.memory, hmore ▸ hz.propagate h hroot hleads hself hup⟩, fun node hnode => ?_⟩
    rcases List.mem_append.1 hnode with hnode | hnode
    · exact hhave node hnode
    · rw [List.mem_singleton.1 hnode]
      exact ⟨utility, hutility⟩

omit [Scalar R] in
/-- No node is above final nodes of two roles. -/
lemma Stands.apart (h : Stands x) (hdescends : x.own.arena.Descends x.own.memory.trees joint.nodes) {id : NodeId}
    (hid : x.own.arena.contains id = true) : (finals utilities joint.nodes.toList).Pairwise fun f g =>
      ¬(x.own.arena.Leads id f.1 ∧ x.own.arena.Leads id g.1) := by
  have hnodup : (joint.nodes.toList.map Prod.fst).Nodup := by
    rw [Std.ExtTreeMap.map_fst_toList_eq_keys]
    exact Std.ExtTreeMap.nodup_keys
  obtain ⟨n, hn⟩ := Arena.contains_iff.1 hid
  -- a node above a final node belongs to the same role
  have howner : ∀ {role : Role} {k : NodeId}, (role, k) ∈ joint.nodes.toList → x.own.arena.Leads id k →
      n.role = role := by
    intro role k hk hleads
    obtain ⟨root, hroot, hbelow⟩ := hdescends.below role k (Std.ExtTreeMap.mem_toList_iff_getElem?_eq_some.1 hk)
    have hrole := h.shaped.owns_leads (h.heads.owns hroot) hbelow
    exact (h.shaped.owns_leads ⟨_, Arena.station?_of_find? hn, rfl⟩ hleads).unique hrole
  rw [finals, List.pairwise_filterMap]
  refine ((List.pairwise_map.1 hnodup).imp_of_mem ?_)
  rintro ⟨role, k⟩ ⟨role', k'⟩ hk hk' hne final hfinal final' hfinal' ⟨hleads, hleads'⟩
  obtain ⟨utility, -, rfl⟩ := Option.map_eq_some_iff.1 hfinal
  obtain ⟨utility', -, rfl⟩ := Option.map_eq_some_iff.1 hfinal'
  exact hne ((howner hk hleads).symm.trans (howner hk' hleads'))

/-- A simulation in all trees is counted. -/
theorem Ranges.tallies [Host ε] (hz : Ranges x z)
    (hdescends : z.own.arena.Descends x.own.memory.trees joint.nodes)
    (hcredited : Credited (finals utilities joint.nodes.toList) z y)
    (hhave : ∀ node ∈ joint.nodes.toList, ∃ utility, utilities[node.1]? = some utility) :
    Tallies (finals utilities joint.nodes.toList) x y := by
  have hdescends' : z.own.arena.Descends z.own.memory.trees joint.nodes := hz.trees.symm ▸ hdescends
  have hshaped := (hcredited.stands hz.stands).shaped
  have hleads : ∀ {id k}, y.own.arena.Leads id k ↔ z.own.arena.Leads id k := hcredited.arena.leads_iff
  have hlive : ∀ {id}, y.own.arena.contains id = true → z.own.arena.contains id = true := by
    intro id hid
    obtain ⟨n', hn'⟩ := Arena.contains_iff.1 hid
    obtain ⟨n, hn, -⟩ := hcredited.arena.exists_find? hn'
    exact Arena.contains_iff.2 ⟨n, hn⟩
  have hbrings : ∀ id, y.own.arena.contains id = true →
      y.own.arena.credit (finals utilities joint.nodes.toList) id =
        z.own.arena.brings (finals utilities joint.nodes.toList) id := by
    intro id hid
    rw [hshaped.credit_eq hid ((hz.stands.apart hdescends' (hlive hid)).imp fun hnot hboth =>
      hnot ⟨hleads.1 hboth.1, hleads.1 hboth.2⟩), hcredited.arena.brings]
  refine ⟨fun id n hn => ?_, ?_, fun root hroot => ?_⟩
  · rw [hbrings id (Arena.contains_iff.2 ⟨n, hn⟩), ← Arena.valuation?_of_find? hn, hcredited.arena.valuation,
      hz.expanded.valuation]
  · change y.own.memory.trees.values = x.own.memory.trees.values
    rw [hcredited.memory, hz.trees]
  · obtain ⟨role, hrole⟩ := ByRole.mem_values.1 hroot
    obtain ⟨depth, hs⟩ := (hcredited.stands hz.stands).heads role root (by rw [hcredited.memory, hz.trees, hrole])
    obtain ⟨n, hn, -⟩ := Arena.station?_eq_some.1 hs
    have hid : y.own.arena.contains root = true := Arena.contains_iff.2 ⟨n, hn⟩
    obtain ⟨k, hk⟩ := hdescends.each role root hrole
    obtain ⟨r, hr, hbelow⟩ := hdescends.below role k hk
    rw [hrole, Option.some.injEq] at hr
    subst hr
    have hin := Std.ExtTreeMap.mem_toList_iff_getElem?_eq_some.2 hk
    obtain ⟨utility, hutility⟩ := hhave _ hin
    have hfinal : (k, utility) ∈ finals utilities joint.nodes.toList :=
      List.mem_filterMap.2 ⟨_, hin, by simp [hutility]⟩
    exact ⟨hid, hshaped.length_credit hid hfinal (hleads.2 hbelow)⟩

/-- Every simulation is counted. -/
theorem Stands.simulateTo [Host ε] {found : List (NodeId × R)} (h : Stands x)
    (hrun : (simulateTo : Deliberation MultiObserver R ε (List (NodeId × R))) x = .ok found y) :
    Stands y ∧ Tallies found x y := by
  obtain ⟨agent, x₁, hread, h₁⟩ := Action.bind_eq_ok.1 hrun
  cases hread
  obtain ⟨game, -, h₂⟩ := Action.lift_bind_eq_ok.1 h₁
  obtain ⟨joint, x₂, hselect, h₃⟩ := Action.bind_eq_ok.1 h₂
  obtain ⟨hranges, hdescends⟩ := select_eq_ok h hselect
  obtain ⟨_, x₃, hexpand, h₄⟩ := Action.bind_eq_ok.1 h₃
  have hexpanded : Ranges x₂ x₃ := by
    refine Action.forIn_eq_ok (I := fun _ _ z => Ranges x₂ z) ?_ hranges.stands.ranges hexpand
    rintro before ⟨role, id⟩ after _ z r z' - hz hround
    obtain ⟨_, z₁, hround₁, h₅⟩ := Action.bind_eq_ok.1 hround
    obtain ⟨a, hgrow, rfl⟩ := onArena_eq_ok.1 hround₁
    cases h₅
    exact ⟨⟨⟩, rfl, hz.trans (hz.stands.expanded rfl (Arena.respects_expand _ _ _ hgrow hz.stands.shaped))⟩
  obtain ⟨evaluator, x₄, hevaluator, h₅⟩ := Action.bind_eq_ok.1 h₄
  cases hevaluator
  obtain ⟨utilities, x₅, hutilities, h₆⟩ := Action.bind_eq_ok.1 h₅
  obtain ⟨host, -, rfl⟩ := Hosted.onHost_eq_ok.1 hutilities
  have hz : Ranges x ⟨x₃.own, host⟩ := hranges.trans (hexpanded.trans
    (hexpanded.stands.expanded rfl (.refl hexpanded.stands.shaped)))
  obtain ⟨_, x₆, hcredit, h₇⟩ := Action.bind_eq_ok.1 h₆
  cases h₇
  have hdescends' := hdescends.expanded hexpanded.expanded
  obtain ⟨hcredited, hhave⟩ := creditAll_eq_ok hz.stands (hz.trees.symm ▸ hdescends') hcredit
  exact ⟨hcredited.stands hz.stands, hz.tallies hdescends' hcredited hhave⟩

end MultiObserver

end GameSearch
