import GameSearch.Proofs.Agent.Location

/-!
# Simulations in step

A simulation draws a world of the agent's own root, locates it in all trees and descends them in step.
The nodes that it reaches describe one world, and no tree lacks an edge on the way.
-/

namespace GameSearch

namespace TreeAgent

variable {μ R ε α : Type} {never : Fault → Prop} {x : Hosted (TreeAgent μ R ε) ε}
  {P : α → Hosted (TreeAgent μ R ε) ε → Prop}

lemma ensures_onTrees {action : Action (Hosted (Arena R) ε) α}
    (h : Action.Ensures never action (trees x) fun r t => P r (withTrees x t)) :
    Action.Ensures never (onTrees action : Deliberation μ R ε α) x P := by
  unfold Action.Ensures at h
  cases hrun : action (trees x) with
  | ok r t =>
    rw [hrun] at h
    exact Action.ensures_of_ok (onTrees_of_ok hrun) h
  | error f t =>
    rw [hrun] at h
    exact Action.ensures_of_error (onTrees_of_error hrun) h

lemma ensures_onArena {action : Action (Arena R) α}
    (h : Action.Ensures never action x.own.arena fun r a => P r (withTrees x ⟨a, x.host⟩)) :
    Action.Ensures never (onArena action : Deliberation μ R ε α) x P :=
  ensures_onTrees (Hosted.ensures_onOwn h)

end TreeAgent

/-- An evaluator does not fail for certain reasons in some states of a game. -/
def Evaluator.Spares {R ε : Type} (evaluator : Evaluator R ε) (game : Game) (states : State → Prop)
    (never : Fault → Prop) : Prop :=
  ∀ w roles s f t, states w → evaluator.evaluateAll game w roles s = .error f t → ¬never f

namespace MultiObserver

open Arena TreeAgent

variable {R ε : Type} {u : Upkeep} {own role : Role} {course : Nat → State → Prop}
  {never : Fault → Prop} {x y : Hosted (TreeAgent MultiObserver R ε) ε} {root id : NodeId} {p q : Place}
  {trees : ByRole NodeId} {joint : JointNode}

/-- The nodes that a simulation reaches are in step, in a world that follows one of the agent's own
root. -/
structure Gathered (u : Upkeep) (p : Place) (trees : ByRole NodeId) (a : Arena R) (joint : JointNode) :
    Prop where
  inStep : ∃ n, InStep a trees (p.depth + n) joint ∧
    ∃ w ∈ p.belief.worlds, u.game.After n w joint.world
  state : u.states joint.world

lemma Gathered.deepens {a a' : Arena R} (h : Gathered u p trees a joint) (hsane : a.Sane)
    (hdeepens : Deepens trees a a') : Gathered u p trees a' joint := by
  obtain ⟨n, hstep, hafter⟩ := h.inStep
  refine ⟨⟨n, ⟨hstep.roles, fun role root id hroot hid => ?_⟩, hafter⟩, h.state⟩
  exact (hstep.node role root id hroot hid).deepens hsane hdeepens

lemma Gathered.node {a : Arena R} (h : Gathered u p trees a joint) (hid : joint.nodes[role]? = some id) :
    ∃ r q, trees[role]? = some r ∧ a.Leads r id ∧ a.place? id = some q := by
  obtain ⟨n, hstep, -⟩ := h.inStep
  obtain ⟨r, hr⟩ : ∃ r, trees[role]? = some r := by
    rw [← Option.isSome_iff_exists, ← Std.ExtTreeMap.mem_iff_isSome_getElem?, ← hstep.roles,
      Std.ExtTreeMap.mem_iff_isSome_getElem?, hid]
    rfl
  obtain ⟨hleads, q, hq, -⟩ := hstep.node role r id hr hid
  exact ⟨r, q, hr, hleads, hq⟩

/-- What an agent has after the way of a simulation. -/
structure Sought (u : Upkeep) (own : Role) (course : Nat → State → Prop) (root : NodeId) (p : Place)
    (x : Hosted (TreeAgent MultiObserver R ε) ε) (joint : JointNode)
    (y : Hosted (TreeAgent MultiObserver R ε) ε) : Prop where
  stays : ∃ q, At u own course y root q ∧ p.Alike q
  deeper : Deeper x y
  reached : Gathered u p x.own.memory.trees y.own.arena joint

lemma Sought.deepens {a : Arena R} (h : Sought u own course root p x joint y)
    (hdeepens : Deepens y.own.memory.trees y.own.arena a) (hsound : a.AllSound u) (host : ε) :
    Sought u own course root p x joint (withTrees y ⟨a, host⟩) := by
  obtain ⟨q, hq, halike⟩ := h.stays
  obtain ⟨q', hq', halike', hdeeper⟩ := hq.deepens hdeepens hsound host
  refine ⟨⟨q', hq', halike.trans halike'⟩, h.deeper.trans hdeeper, ?_⟩
  exact h.reached.deepens hq.grove.sound.sane (h.deeper.trees ▸ hdeepens)

lemma Sought.revalued {a : Arena R} (h : Sought u own course root p x joint y) (hrevalued : Revalued y.own.arena a) :
    Sought u own course root p x joint (withTrees y ⟨a, y.host⟩) := by
  obtain ⟨q, hq, -⟩ := h.stays
  exact h.deepens hrevalued.deepens (hrevalued.sound hq.grove.sound) y.host

lemma Sought.unchanged (h : Sought u own course root p x joint y) (host : ε) :
    Sought u own course root p x joint ⟨y.own, host⟩ := by
  obtain ⟨q, hq, -⟩ := h.stays
  exact h.deepens .refl hq.grove.sound host

variable [Scalar R] [Dice ε]

/-- Where the worlds that can be drawn can be located, the way of a simulation leads to nodes that are in
step. -/
theorem wander_ensures (h : At u own course x root p) (hle : p.depth ≤ 2147483647)
    (harguments : (controlOf own).arguments? = .ok [own]) (hspares : x.own.selector.Spares never)
    (hlocatable : ∀ w host, Dice.choose p.belief.worlds.toList x.host = .ok w host →
      (∃ f, never f ∧ f.kind = .mismatch) → Locatable u.game own p.depth w x) :
    Action.Ensures never (select : Deliberation MultiObserver R ε JointNode) x fun joint y =>
      Sought u own course root p x joint y := by
  obtain ⟨v, hnode⟩ := node_run h.place
  obtain ⟨w, host, hchoose, hw⟩ := p.draw_run x.host
  have hroot? : x.own.memory.root? own = .ok root := by rw [root?, h.planted]
  unfold select
  refine Action.ensures_bind_of_ok (gameAndRole_run h.game h.seated label) ?_
  refine Action.ensures_bind_of_ok memorized_run ?_
  refine Action.ensures_bind_of_ok (Action.lift_of_ok hroot? x) ?_
  refine Action.ensures_bind_of_ok (onArena_of_ok hnode) ?_
  refine Action.ensures_bind_of_ok (Hosted.onHost_eq_ok.2 ⟨host, hchoose, rfl⟩) ?_
  have hhost : Deeper x ⟨x.own, host⟩ := ⟨rfl, rfl, rfl, rfl, rfl, rfl, rfl, .refl⟩
  have hx : At u own course ⟨x.own, host⟩ root p := h.undisturbed ⟨rfl, rfl, rfl⟩
  refine (locateAll_ensures hx hle hw (hlocatable w host hchoose)).bind fun nodes y hnodes => ?_
  obtain ⟨q, hq, halike, hdeeper, hstep⟩ := hnodes
  have hpoised : Poised u own course y.own.memory.trees q.depth p.depth y.own.arena ⟨nodes, w⟩ :=
    ⟨hq.grove, hdeeper.trees.symm ▸ hstep, (h.grove.sound.known root p h.place).worlds w hw⟩
  have hown : own ∈ y.own.memory.trees :=
    Std.ExtTreeMap.mem_iff_isSome_getElem?.2 (by rw [hq.planted]; rfl)
  refine Action.ensures_bind_of_ok (a := y.own.selector) (t := y) rfl ?_
  refine ensures_onTrees (Action.ensures_bind_of_ok (Hosted.onOwn_eq_ok.2 ⟨y.own.arena, rfl, rfl⟩) ?_)
  rw [hdeeper.selector]
  refine (descend_ensures (s := TreeAgent.trees y) hspares hpoised hown harguments).mono fun joint t hjoint => ?_
  obtain ⟨hsame, n, hreached, hafter⟩ := hjoint
  obtain ⟨a, host⟩ := t
  simp only at hsame
  subst hsame
  obtain ⟨q', hq', halike', hdeeper'⟩ := hq.deepens .refl hq.grove.sound host
  refine ⟨⟨q', hq', halike.trans halike'⟩, (hhost.trans hdeeper).trans hdeeper',
    ⟨n, ?_, w, hw, hafter⟩, hreached.state⟩
  exact hdeeper.trees ▸ hreached.inStep

/-! ## Values -/

section Values

variable {a : Arena R} {utility : R} (hnever : ∀ f, never f → f.LacksEdge ∨ f.kind = .mismatch)

include hnever

omit [Scalar R] in
lemma ensures_node : Action.Ensures never (node id) a fun _ _ => True := by
  refine (Action.ensures_lift fun f hf hn => ?_).mono fun _ _ _ => trivial
  rw [node?] at hf
  cases hfind : a.find? id with
  | some n => simp [hfind] at hf
  | none =>
    rw [hfind, Except.error.injEq] at hf
    subst hf
    rcases hnever _ hn with h | h <;> cases h

lemma ensures_propagate : Action.Ensures never (propagate id utility) a fun _ a' => Revalued a a' := by
  have hruns : Action.Ensures never (propagate id utility) a fun _ _ => True := by
    unfold propagate
    refine (ensures_node hnever).bind fun n a' _ => ?_
    cases n.valuation with
    | some v => exact Action.ensures_of_ok rfl trivial
    | none =>
      refine (Action.ensures_lift fun f hf hn => ?_).bind fun v a'' _ => Action.ensures_of_ok rfl trivial
      unfold Valuation.ofUtility? Valuation.ofMean? at hf
      split at hf
      · cases hf
        rcases hnever _ hn with h | h <;> cases h
      · split at hf <;> cases hf
        rcases hnever _ hn with h | h <;> cases h
  exact hruns.adding fun _ _ hrun => revalued_propagate hrun

lemma ensures_propagateUp {fuel : Nat} {parent : Option Int} :
    Action.Ensures never (propagateUp utility fuel parent) a fun _ _ => True := by
  induction fuel generalizing a parent with
  | zero =>
    cases parent with
    | none => exact Action.ensures_of_ok rfl trivial
    | some number =>
      refine Action.ensures_of_error rfl fun hn => ?_
      rcases hnever _ hn with h | h <;> cases h
  | succ fuel ih =>
    cases parent with
    | none => exact Action.ensures_of_ok rfl trivial
    | some number =>
      rw [propagateUp]
      refine Action.ensures_bind_of_ok (Action.get_run a) ((Action.ensures_lift fun f hf hn => ?_).bind
        fun id a' _ => ?_)
      · unfold resolve? at hf
        split at hf
        · cases hf
          rcases hnever _ hn with h | h <;> cases h
        · rw [node?] at hf
          cases hfind : a.find? number.toNat with
          | some n => simp [hfind, Except.map] at hf
          | none =>
            rw [hfind] at hf
            cases hf
            rcases hnever _ hn with h | h <;> cases h
      · exact (ensures_propagate hnever).bind fun _ _ _ => (ensures_node hnever).bind fun _ _ _ => ih

lemma ensures_backpropagate :
    Action.Ensures never (backpropagate id utility) a fun _ a' => Revalued a a' := by
  have hruns : Action.Ensures never (backpropagate id utility) a fun _ _ => True :=
    Action.ensures_bind_of_ok rfl ((ensures_node hnever).bind fun _ _ _ => ensures_propagateUp hnever)
  exact hruns.adding fun _ _ hrun => revalued_backpropagate hrun

end Values

/-- What an agent has after a simulation: some world of its own root is expanded. -/
structure Searched (u : Upkeep) (own : Role) (course : Nat → State → Prop) (root : NodeId) (p : Place)
    (x : Hosted (TreeAgent MultiObserver R ε) ε) (joint : JointNode)
    (y : Hosted (TreeAgent MultiObserver R ε) ε) : Prop extends Sought u own course root p x joint y where
  begun : ∀ q, y.own.arena.place? root = some q → q.Begun

omit [Scalar R] [Dice ε] in
lemma Searched.revalued {a : Arena R} (h : Searched u own course root p x joint y)
    (hrevalued : Revalued y.own.arena a) : Searched u own course root p x joint (withTrees y ⟨a, y.host⟩) :=
  ⟨h.toSought.revalued hrevalued, fun q hq => h.begun q (by rw [← hrevalued.places]; exact hq)⟩

omit [Scalar R] [Dice ε] in
/-- A node is expanded that a simulation has reached. -/
lemma Sought.expand {z : Hosted (TreeAgent MultiObserver R ε) ε} (hz : Sought u own course root p x joint z)
    (hid : joint.nodes[role]? = some id) : ∃ a q, Arena.expand u.game id z.own.arena = .ok ⟨⟩ a ∧
      Sought u own course root p x joint (withTrees z ⟨a, z.host⟩) ∧
      (∀ k c, z.own.arena.place? k = some c → ∃ c', a.place? k = some c' ∧ c.Extends c') ∧
      a.place? id = some q ∧ q.Begun := by
  obtain ⟨r, q, hr, hleads, hq⟩ := hz.reached.node hid
  obtain ⟨p', hp', -⟩ := hz.stays
  obtain ⟨a, q', hexpand, hgrown, -, hdeepens, -⟩ :=
    hp'.grove.expandBelief (hz.deeper.trees.symm ▸ hr) hleads hq
  obtain ⟨w, hw⟩ := StateSet.isEmpty_eq_false_iff.1 q.belief.nonempty
  exact ⟨a, q', (expand_eq u.game hq).trans hexpand, hz.deepens hdeepens hgrown.sound z.host,
    hdeepens.places, hgrown.place, w, (hgrown.expanded w).2 (.inr hw)⟩

omit [Scalar R] [Dice ε] in
/-- Once the agent's own node is expanded, so is some world of its own root. -/
lemma Sought.searched (h : Sought u own course root p x joint y) (hx : At u own course x root p)
    (hbegun : ∀ (role : Role) id, joint.nodes[role]? = some id →
      ∃ q, y.own.arena.place? id = some q ∧ q.Begun) : Searched u own course root p x joint y := by
  obtain ⟨n, hstep, -⟩ := h.reached.inStep
  have hown : own ∈ joint.nodes :=
    (hstep.roles own).2 (Std.ExtTreeMap.mem_iff_isSome_getElem?.2 (by rw [hx.planted]; rfl))
  obtain ⟨id, hid⟩ := Option.isSome_iff_exists.1 (Std.ExtTreeMap.mem_iff_isSome_getElem?.1 hown)
  obtain ⟨q, hq, hbegun⟩ := hbegun own id hid
  obtain ⟨p', hp', -⟩ := h.stays
  refine ⟨h, fun q' hq' => ?_⟩
  exact hp'.grove.sound.begun_above (hstep.node own root id hx.planted hid).leads hq' hq hbegun

/-- A simulation keeps what the agent has, and some world of the agent's own root is expanded after it. -/
theorem simulate_ensures (h : At u own course x root p) (hle : p.depth ≤ 2147483647)
    (harguments : (controlOf own).arguments? = .ok [own]) (hspares : x.own.selector.Spares never)
    (hevaluates : x.own.evaluator.Spares u.game u.states never)
    (hlocatable : ∀ w host, Dice.choose p.belief.worlds.toList x.host = .ok w host →
      (∃ f, never f ∧ f.kind = .mismatch) → Locatable u.game own p.depth w x) :
    Action.Ensures never (simulate : Deliberation MultiObserver R ε Unit) x fun _ y =>
      ∃ joint, Searched u own course root p x joint y := by
  have hgame : x.own.seat.game? label = .ok u.game := by rw [Seat.game?, h.game]
  unfold simulate
  refine Action.ensures_bind_of_ok Hosted.read_run ?_
  refine Action.ensures_bind_of_ok (Action.lift_of_ok hgame x) ?_
  refine (wander_ensures h hle harguments hspares hlocatable).bind fun joint y hy => ?_
  refine (Action.ensures_forIn (I := fun before z => Sought u own course root p x joint z ∧
    ∀ node ∈ before, ∃ q, z.own.arena.place? node.2 = some q ∧ q.Begun) ?_ ⟨hy, by simp⟩).bind fun _ z hz => ?_
  · rintro before ⟨role, id⟩ after z hl ⟨hz, hbegun⟩
    have hid : joint.nodes[role]? = some id :=
      Std.ExtTreeMap.mem_toList_iff_getElem?_eq_some.1 (by simp [hl])
    obtain ⟨a, q, hexpand, hz', hplaces, hq, hq'⟩ := hz.expand hid
    refine Action.ensures_bind_of_ok (onArena_of_ok hexpand) (Action.ensures_of_ok rfl ⟨rfl, hz', ?_⟩)
    intro node hnode
    rcases List.mem_append.1 hnode with hnode | hnode
    · obtain ⟨c, hc, hc'⟩ := hbegun node hnode
      exact (hplaces node.2 c hc).imp fun _ hd => ⟨hd.1, hd.2.begun hc'⟩
    · rw [List.mem_singleton.1 hnode]
      exact ⟨q, hq, hq'⟩
  have hz : Searched u own course root p x joint z := hz.1.searched h fun role id hid =>
    hz.2 (role, id) (Std.ExtTreeMap.mem_toList_iff_getElem?_eq_some.2 hid)
  refine Action.ensures_bind_of_ok (a := z.own.evaluator) (t := z) rfl ?_
  rw [hz.deeper.evaluator]
  refine (Hosted.ensures_onHost (P := fun _ z => Searched u own course root p x joint z) ?_).bind
    fun utilities z hz => ?_
  · unfold Action.Ensures
    cases hrun : x.own.evaluator.evaluateAll u.game joint.world joint.nodes.keys z.host with
    | ok utilities host => exact ⟨hz.toSought.unchanged host, hz.begun⟩
    | error f host => exact hevaluates _ _ _ _ _ hz.reached.state hrun
  · refine (Action.ensures_forIn (I := fun _ z => Searched u own course root p x joint z) ?_ hz).bind
      fun _ z hz => Action.ensures_of_ok (t := z) rfl ⟨joint, hz⟩
    rintro before ⟨role, id⟩ after z - hz
    simp only
    cases utilities[role]? with
    | none =>
      have hnever : ¬never .outOfRange := hspares.not_never not_false Fault.Kind.noConfusion
      exact Action.ensures_of_error (Action.bind_of_error rfl) hnever
    | some utility =>
      refine (ensures_onArena (P := fun _ z => Searched u own course root p x joint z) ?_).bind fun _ z hz => ?_
      · exact (ensures_propagate hspares.only).mono fun _ a hrevalued => hz.revalued hrevalued
      refine (ensures_onArena (P := fun _ z => Searched u own course root p x joint z) ?_).bind fun _ z hz => ?_
      · exact (ensures_backpropagate hspares.only).mono fun _ a hrevalued => hz.revalued hrevalued
      exact Action.ensures_of_ok rfl ⟨rfl, hz⟩

end MultiObserver

end GameSearch
