import GameSearch.Proofs.Agent.Grove
import GameSearch.Proofs.Options
import GameSearch.Proofs.Outcome
import GameSearch.Proofs.Playing

/-!
# Descending in step

A joint turn that the roles choose at their own nodes is one of the transitions out of the world that all
nodes describe, so every tree has an edge for it, and the nodes that the edges lead to describe the next
world.  `InStep` is the invariant of the descent, `advance_ensures` its step.
-/

namespace GameSearch

/-- A node at which nobody is committed has an edge for each transition out of its worlds, once these are
expanded. -/
lemma Place.Fits.out_of_free {u : Upkeep} {T : Forest} {id : NodeId} {p : Place} {w : State}
    {step : Turn × State} (h : p.Sound u T id) (hfree : p.move = none) (hw : w ∈ p.belief.expanded)
    (hstep : step ∈ u.game.transitions w) : step ∈ p.out w := by
  rcases h.out w with hout | ⟨⟨-, hmoves, -⟩, -⟩
  · rw [hout, List.mem_filter, Place.mem_done]
    exact ⟨⟨hw, hstep⟩, by simp [Place.accepts, hfree]⟩
  · exact absurd hfree hmoves

namespace Arena

variable {R : Type} {u : Upkeep} {but : NodeId → Prop} {own role : Role} {course : Nat → State → Prop}
  {depth : Nat} {trees : ByRole NodeId} {a a' : Arena R} {root id : NodeId} {p q : Place} {w next : State}
  {turn : Turn}

/-- A node that edges lead to from a root is for a ply and holds a world. -/
structure Describes (a : Arena R) (root : NodeId) (role : Role) (depth : Nat) (w : State) (id : NodeId) :
    Prop where
  leads : a.Leads root id
  place : ∃ q, a.place? id = some q ∧ q.role = role ∧ q.depth = depth ∧ w ∈ q.belief.worlds

lemma Describes.deepens (h : a.Describes root role depth w id) (hsane : a.Sane)
    (hdeepens : Deepens trees a a') : a'.Describes root role depth w id := by
  obtain ⟨q, hq, hrole, hdepth, hw⟩ := h.place
  obtain ⟨q', hq', hextends⟩ := hdeepens.places id q hq
  exact ⟨hdeepens.leads hsane h.leads, q', hq', hextends.role.trans hrole, hextends.depth.trans hdepth,
    hextends.worlds w hw⟩

/-! ## The edge of a joint turn -/

/-- The edge for a turn out of a world is found if there is one. -/
lemma turnIndex?_run {edges : Array Edge} {T : Forest} (h : p.Sound u T id) (hedges : p.edges = some edges)
    (hw : u.states w) (hout : (turn, next) ∈ p.out w) :
    ∃ e ∈ p.edgeList, ((turnIndex? edges (some w) turn).bind fun i => edges[i]?) = some e ∧
      e.turn = turn ∧ e.next = next := by
  have hlist := Place.edgeList_of_some hedges
  have hstep : ∀ step ∈ p.out w, step ∈ u.game.transitions w := by
    intro step hstep
    rcases h.out w with hlisted | ⟨-, -, hnone⟩
    · rw [hlisted, List.mem_filter, Place.mem_done] at hstep
      exact hstep.1.2
    · rw [hnone] at hstep
      cases hstep
  rw [turnIndex?, ← Array.find?_eq_bind_findIdx?_getElem?]
  cases hfind : edges.find? fun e =>
      e.turn = turn && !((some w).any fun w => e.key.world.any (· ≠ w)) with
  | none =>
    obtain ⟨e, he, hworld, hturn, -⟩ := Place.mem_out.1 hout
    rw [hlist, Array.mem_toList_iff] at he
    have hnot := Array.find?_eq_none.1 hfind e he
    simp [hturn, hworld] at hnot
  | some e =>
    have he : e ∈ p.edgeList := by
      rw [hlist, Array.mem_toList_iff]
      exact Array.mem_of_find?_eq_some hfind
    have htest := Array.find?_some hfind
    obtain ⟨w', hkey⟩ := h.keyed e he
    have hworld : e.key.world = some w' := by rw [hkey]; rfl
    simp only [hworld, Option.any_some, Bool.and_eq_true, decide_eq_true_eq, Bool.not_eq_true',
      decide_eq_false_iff_not, not_not] at htest
    obtain ⟨hturn, rfl⟩ := htest
    refine ⟨e, he, rfl, hturn, ?_⟩
    have hin := hstep (turn, e.next) (Place.mem_out.2 ⟨e, he, hworld, hturn, rfl⟩)
    exact u.answers.next_unique hw hin (hstep _ hout)

/-- The edge for a turn leads to a node that describes the next world. -/
lemma Describes.step {e : Edge} (h : a.Describes root role depth w id) (hp : a.place? id = some p)
    (hsound : p.Sound u a.place? id) (he : e ∈ p.edgeList) :
    a.Describes root role (depth + 1) e.next e.child := by
  obtain ⟨p', hp', hrole, hdepth, -⟩ := h.place
  rw [hp, Option.some.injEq] at hp'
  subst hp'
  obtain ⟨c, hc, hof⟩ := hsound.child e he
  exact ⟨h.leads.step (edgesOf_of_place? hp ▸ he), c, hc, hof.role.trans hrole, by rw [hof.depth, hdepth],
    (hof.worlds _).2 ⟨e, he, rfl, rfl⟩⟩

/-! ## Options -/

section Options

variable [Scalar R]

/-- The options in a world are the keys of edges out of it, all of them. -/
lemma options?_yields {edges : Array Edge} (hedges : a.edges? id = .ok edges)
    (hchildren : ∀ e ∈ edges.toList, ∃ c, a.place? e.child = some c) (hid : a.place? id = some p)
    (w : State) : ∃ options, a.options? id (some w) = .ok options ∧
      (∀ c ∈ options, ∃ e ∈ edges.toList, c.key = e.key ∧ ∀ w', e.key.world = some w' → w' = w) ∧
      ∀ e ∈ edges.toList, e.key.world = some w → ∃ c ∈ options, c.key = e.key := by
  obtain ⟨v, hn⟩ := find?_of_place? hid
  obtain ⟨options, hrun, hkeys⟩ := group?_yields hedges (fun e he => by
    obtain ⟨c, hc⟩ := hchildren e he
    obtain ⟨v', hfind⟩ := find?_of_place? hc
    exact ⟨_, hfind⟩) (some w) Edge.key
  refine ⟨options, ?_, fun c hc => ?_, fun e he hworld => ?_⟩
  · rw [options?, node?, hn]
    simp only [Option.isSome_some, Bool.true_or, bind, Except.bind, if_true]
    exact hrun
  · obtain ⟨e, he, hcounts, hkey⟩ := (hkeys c.key).1 ⟨c, hc, rfl⟩
    refine ⟨e, he, hkey.symm, fun w' hw' => ?_⟩
    simpa [Elsewhere, hw'] using hcounts
  · exact (hkeys e.key).2 ⟨e, he, by simp [Elsewhere, hworld], rfl⟩

/-- A selector picks the key of an edge out of the world, of which it is asked only if there is one. -/
theorem select_picks {ε : Type} {selector : Selector R ε} {never : Fault → Prop} {host : ε}
    (hp : a.place? id = some p) (hsound : p.Sound u a.place? id) (hedges : p.edges ≠ none)
    (hpick : ∀ options h f t, a.options? id (some w) = .ok options →
      selector.pick w p.role options h host = .error f t → ¬never f)
    (hnone : (∀ e ∈ p.edgeList, e.key.world ≠ some w) → ¬never (.noChild id)) :
    Action.Ensures never (a.select selector id (some w)) host fun key _ =>
      ∃ e ∈ p.edgeList, key = e.key ∧ e.key.world = some w := by
  obtain ⟨edges, hedges⟩ := Option.ne_none_iff_exists'.1 hedges
  have hlist := Place.edgeList_of_some hedges
  obtain ⟨options, hrun, hoptions, hall⟩ := options?_yields (edges?_of_place? hp hedges)
    (fun e he => by
      obtain ⟨c, hc, -⟩ := hsound.child e (hlist ▸ he)
      exact ⟨c, hc⟩) hp w
  obtain ⟨v, hn⟩ := find?_of_place? hp
  have hnode : a.node? id = .ok (p.toNode v) := by rw [node?, hn]
  unfold Arena.select
  refine Action.ensures_bind_of_ok (Action.lift_of_ok hrun host) ?_
  refine Action.ensures_bind_of_ok (Action.lift_of_ok hnode host) ?_
  unfold pickOf
  split
  · rename_i hpos
    refine Action.Ensures.bind (P := fun c _ => c ∈ options) ?_ fun c t hc => ?_
    · refine Action.Ensures.bind (P := fun _ _ => True) ?_ fun i t _ =>
        Action.ensures_of_ok rfl (Array.getElem_mem _)
      unfold Action.Ensures
      cases hrun' : selector.pick ((some w).getD (p.toNode v).firstWorld) (p.toNode v).role options hpos host with
      | ok i t => trivial
      | error f t => exact hpick options hpos f t hrun hrun'
    · obtain ⟨e, he, hkey, hworld⟩ := hoptions c hc
      rw [← hlist] at he
      obtain ⟨w', hkey'⟩ := hsound.keyed e he
      have hw' : e.key.world = some w' := by rw [hkey']; rfl
      exact Action.ensures_of_ok rfl ⟨e, he, hkey, by rw [hw', hworld w' hw']⟩
  · rename_i hpos
    refine Action.ensures_of_error (Action.bind_of_error rfl) (hnone fun e he hworld => hpos ?_)
    obtain ⟨c, hc, -⟩ := hall e (hlist ▸ he) hworld
    exact Array.size_pos_of_mem hc

end Options

end Arena

/-- A failure for the reason that a tree lacks an edge for a turn. -/
def Fault.LacksEdge : Fault → Prop
  | .noEntryInWorld _ _ _ _ => True
  | .noEntryAtPly _ _ _ _ => True
  | _ => False

/-- The failures that trees in step are to rule out, none of which is the selector's own. -/
structure Selector.Spares {R ε : Type} (selector : Selector R ε) (never : Fault → Prop) : Prop where
  only : ∀ f, never f → f.LacksEdge ∨ f.kind = .mismatch
  pick : ∀ world role options (h : 0 < options.size) s f t,
    selector.pick world role options h s = .error f t → ¬never f

lemma Selector.Spares.not_never {R ε : Type} {selector : Selector R ε} {never : Fault → Prop} {f : Fault}
    (h : selector.Spares never) (hlacks : ¬f.LacksEdge) (hkind : f.kind ≠ .mismatch) : ¬never f :=
  fun hf => (h.only f hf).elim hlacks hkind

namespace MultiObserver

open Arena

variable {R ε : Type} {u : Upkeep} {own role : Role} {course : Nat → State → Prop}
  {base depth : Nat} {trees : ByRole NodeId} {a : Arena R} {root id : NodeId} {p q : Place} {w : State}
  {never : Fault → Prop} {selector : Selector R ε} {joint : JointNode} {s : Hosted (Arena R) ε}
  {control : SortedSet Role} {legal : ByRole (List Move)} {plays : List Play}

/-- The nodes of all trees describe the same world at the same ply. -/
structure InStep (a : Arena R) (trees : ByRole NodeId) (depth : Nat) (joint : JointNode) : Prop where
  roles : ∀ role : Role, role ∈ joint.nodes ↔ role ∈ trees
  node : ∀ (role : Role) (root id : NodeId), trees[role]? = some root → joint.nodes[role]? = some id →
    a.Describes root role depth joint.world id

/-- The nodes of some trees are in step at a world of the game. -/
structure Poised (u : Upkeep) (own : Role) (course : Nat → State → Prop) (trees : ByRole NodeId)
    (base depth : Nat) (a : Arena R) (joint : JointNode) : Prop where
  grove : Grove u (fun _ => False) own course trees base a
  inStep : InStep a trees depth joint
  state : u.states joint.world

lemma Poised.node (h : Poised u own course trees base depth a joint)
    (hid : joint.nodes[role]? = some id) : ∃ root q, trees[role]? = some root ∧
      a.Describes root role depth joint.world id ∧ a.place? id = some q ∧ q.role = role ∧
      joint.world ∈ q.belief.worlds ∧ q.Sound u a.place? id := by
  obtain ⟨root, hroot⟩ : ∃ root, trees[role]? = some root := by
    rw [← Option.isSome_iff_exists, ← Std.ExtTreeMap.mem_iff_isSome_getElem?, ← h.inStep.roles,
      Std.ExtTreeMap.mem_iff_isSome_getElem?, hid]
    rfl
  have hdescribes := h.inStep.node role root id hroot hid
  obtain ⟨q, hq, hrole, -, hw⟩ := hdescribes.place
  exact ⟨root, q, hroot, hdescribes, hq, hrole, hw, h.grove.sound.kept id q hq (by simp)⟩

def Expanded (a : Arena R) (joint : JointNode) : Prop :=
  ∀ (role : Role) id q, joint.nodes[role]? = some id → a.place? id = some q →
    q.edges ≠ none ∧ ∀ w ∈ q.belief.worlds, w ∈ q.belief.expanded

/-- A legal move of a role in control, which is that of an edge out of the world if the role has a
node. -/
structure Chosen (a : Arena R) (joint : JointNode) (legal : ByRole (List Move)) (role : Role) (p : Play) :
    Prop where
  owner : p.role = role
  move : p.move ∈ legal.getD role []
  edge : ∀ id q, joint.nodes[role]? = some id → a.place? id = some q →
    ∃ e ∈ q.edgeList, e.key.world = some joint.world ∧ e.turn.find? role = some p.move

/-- What the referee says of a world in which the play goes on. -/
structure Refereed (u : Upkeep) (w : State) (control : SortedSet Role) (legal : ByRole (List Move)) :
    Prop where
  asked : w.control? = .ok control
  moves : u.game.legal w = .ok legal
  ne : ∀ role ∈ control.toList, legal.getD role [] ≠ []
  iff : ∀ turn t, (turn, t) ∈ u.game.transitions w ↔
    ∃ plays, Game.Legal legal control.toList plays ∧ turn = .ofList plays ∧ u.game.play w turn = .ok t
  next : ∀ plays, Game.Legal legal control.toList plays →
    ∃ t, (.ofList plays, t) ∈ u.game.transitions w

lemma exists_refereed (hw : u.states w) (hterminal : u.game.isTerminal w = .ok false) :
    ∃ control legal, Refereed u w control legal := by
  have hnext := u.answers.successors? hw
  obtain ⟨control, legal, hcontrol, hlegal, hne, hplay⟩ := Game.exists_legal_of_successors? hnext hterminal
  obtain ⟨control', legal', hcontrol', hlegal', hiff⟩ := Game.mem_transitions_iff hnext hterminal
  rw [hcontrol, Except.ok.injEq] at hcontrol'
  rw [hlegal, Except.ok.injEq] at hlegal'
  subst hcontrol' hlegal'
  exact ⟨control, legal, hcontrol, hlegal, hne, hiff, fun plays hplays => (hplay plays hplays).imp fun _ h => h.2⟩

lemma nodup_toList (control : SortedSet Role) : control.toList.Nodup :=
  control.sorted.imp fun hlt heq => by simp [heq] at hlt

/-- In a transition each role in control makes a legal move. -/
lemma Refereed.find? (h : Refereed u w control legal) {step : Turn × State}
    (hstep : step ∈ u.game.transitions w) (hrole : role ∈ control.toList) :
    ∃ move ∈ legal.getD role [], step.1.find? role = some move := by
  obtain ⟨plays, hplays, hturn, -⟩ := (h.iff step.1 step.2).1 hstep
  obtain ⟨p, hp, rfl⟩ := List.mem_map.1 (hplays.roles ▸ hrole)
  refine ⟨p.move, (hplays.accepts hp).2, ?_⟩
  rw [hturn]
  exact Turn.find?_ofList_of_mem (hplays.roles ▸ nodup_toList control) hp

lemma legal_of_chosen (h : List.Forall₂ (Chosen a joint legal) control.toList plays) :
    Game.Legal legal control.toList plays :=
  h.imp fun _ _ hchosen => ⟨hchosen.owner, hchosen.move⟩

lemma exists_chosen {roles : List Role} (h : List.Forall₂ (Chosen a joint legal) roles plays)
    (hrole : role ∈ roles) : ∃ p ∈ plays, Chosen a joint legal role p := by
  induction h with
  | nil => cases hrole
  | @cons role' p roles plays hp _ ih =>
    rcases List.mem_cons.1 hrole with rfl | hrole
    · exact ⟨p, List.mem_cons_self, hp⟩
    · obtain ⟨p', hp', hchosen⟩ := ih hrole
      exact ⟨p', List.mem_cons_of_mem _ hp', hchosen⟩

/-! ## The turn -/

/-- A turn that the roles choose agrees with the move to which the owner of a node is committed. -/
lemma accepts_chosen (hplays : List.Forall₂ (Chosen a joint legal) control.toList plays)
    (hrole : role ∈ control.toList) (hid : joint.nodes[role]? = some id) (hp : a.place? id = some p)
    (howner : p.role = role) (hsound : p.Sound u a.place? id) :
    p.accepts (.ofList plays) = true ∧ p.out joint.world ≠ [] := by
  obtain ⟨play, hplay, hchosen⟩ := exists_chosen hplays hrole
  obtain ⟨e, he, hworld, hfind⟩ := hchosen.edge id p hid hp
  refine ⟨?_, List.ne_nil_of_mem (a := (e.turn, e.next)) (Place.mem_out.2 ⟨e, he, hworld, rfl, rfl⟩)⟩
  obtain ⟨-, -, -, -, haccepts⟩ := hsound.edge he
  have hsame : (Turn.ofList plays).find? role = e.turn.find? role := by
    rw [hfind, ← hchosen.owner]
    exact Turn.find?_ofList_of_mem ((legal_of_chosen hplays).roles ▸ nodup_toList control) hplay
  rw [← haccepts, Place.accepts, Place.accepts, howner]
  simp only [Turn.contains, hsame]

/-- Each tree has an edge for a turn that the roles choose at their own nodes. -/
lemma Poised.out (h : Poised u own course trees base depth a joint) (hexpanded : Expanded a joint)
    (hreferee : Refereed u joint.world control legal)
    (harguments : (controlOf own).arguments? = .ok [own])
    (hplays : List.Forall₂ (Chosen a joint legal) control.toList plays) {next : State}
    (hnext : (Turn.ofList plays, next) ∈ u.game.transitions joint.world)
    (hid : joint.nodes[role]? = some id) (hq : a.place? id = some q) :
    (Turn.ofList plays, next) ∈ q.out joint.world := by
  obtain ⟨root, q', hroot, hdescribes, hq', howner, hw, hsound⟩ := h.node hid
  rw [hq, Option.some.injEq] at hq'
  subst hq'
  have hin := (hexpanded role id q hid hq).2 _ hw
  have hdone : (Turn.ofList plays, next) ∈ q.done u joint.world := Place.mem_done.2 ⟨hin, hnext⟩
  rcases h.grove.root_or_free hroot hdescribes.leads hq with rfl | hfree
  · obtain ⟨p, hp⟩ := h.grove.root role id hroot
    rw [hp.place, Option.some.injEq] at hq
    subst hq
    -- Only the agent's own root can be committed to a move, and then its owner chooses at it.
    cases hmove : p.move with
    | none => exact hsound.out_of_free hmove hin hnext
    | some move =>
      have hown : role = own := by
        by_contra hne
        rw [hp.move hne] at hmove
        cases hmove
      cases hvisible : p.belief.isVisible with
      | false =>
        rcases hsound.out joint.world with hout | ⟨⟨-, -, hnot⟩, -⟩
        · rw [hout, List.mem_filter]
          exact ⟨hdone, by simp [Place.accepts, hmove, hvisible]⟩
        · rw [hvisible] at hnot
          cases hnot
      | true =>
        have hcontrol : role ∈ control.toList := by
          refine State.mem_control?_of_isInControl hreferee.asked ?_ (hown ▸ harguments)
          rw [← howner]
          exact (hp.inCharge hown _ hw).trans hvisible
        obtain ⟨haccepts, hne⟩ := accepts_chosen hplays hcontrol hid hp.place howner hsound
        rcases hsound.out joint.world with hout | ⟨-, -, hnone⟩
        · rw [hout, List.mem_filter]
          exact ⟨hdone, haccepts⟩
        · exact absurd hnone hne
  · exact hsound.out_of_free hfree hin hnext

/-- Where all nodes are said to be expanded, they are. -/
lemma allM_isExpanded (h : Poised u own course trees base depth s.own joint) :
    Action.Ensures never (joint.nodes.toList.allM fun x : Role × NodeId =>
        (do return (← s.own.node? x.2).isExpanded : Action (Hosted (Arena R) ε) Bool)) s fun b t =>
      t = s ∧ (b = true → Expanded s.own joint) := by
  refine (Action.ensures_allM (P := fun x => ∀ q, s.own.place? x.2 = some q → q.edges ≠ none ∧
    ∀ w ∈ q.belief.worlds, w ∈ q.belief.expanded) ?_).mono fun b t hall => ⟨hall.1, fun hb => ?_⟩
  · rintro ⟨role, id⟩ hin
    obtain ⟨-, q, -, -, hq, -, -, hsound⟩ := h.node (Std.ExtTreeMap.mem_toList_iff_getElem?_eq_some.1 hin)
    obtain ⟨v, hn⟩ := find?_of_place? hq
    have hnode : s.own.node? id = .ok (q.toNode v) := by rw [node?, hn]
    refine Action.ensures_bind_of_ok (Action.lift_of_ok hnode s) (Action.ensures_of_ok rfl ⟨rfl, ?_⟩)
    intro hexpanded q' hq'
    rw [hq, Option.some.injEq] at hq'
    subst hq'
    rw [Node.isExpanded_toNode, Bool.and_eq_true] at hexpanded
    refine ⟨Option.isSome_iff_ne_none.1 hexpanded.1, ?_⟩
    rw [StateSet.eq_of_subset_of_size_eq hsound.expanded (of_decide_eq_true hexpanded.2)]
    exact fun _ hw => hw
  · exact fun role id q hid hq =>
      hall.2 hb (role, id) (Std.ExtTreeMap.mem_toList_iff_getElem?_eq_some.2 hid) q hq

/-- Edges for one turn lead to nodes that are in step. -/
lemma Poised.follow (h : Poised u own course trees base depth a joint) {next : State} {turn : Turn}
    (hnext : (turn, next) ∈ u.game.transitions joint.world) {edges : List (Role × Edge)}
    (hroles : edges.map Prod.fst = joint.nodes.toList.map Prod.fst)
    (hedges : ∀ x ∈ edges, ∃ id q, joint.nodes[x.1]? = some id ∧ a.place? id = some q ∧
      x.2 ∈ q.edgeList ∧ x.2.next = next) :
    Poised u own course trees base (depth + 1) a
      ⟨.ofList (edges.map fun x => (x.1, x.2.child)), next⟩ := by
  have hkeys : (edges.map fun x => (x.1, x.2.child)).map Prod.fst = joint.nodes.toList.map Prod.fst := by
    rw [List.map_map, ← hroles]
    rfl
  have hnodup : (joint.nodes.toList.map Prod.fst).Nodup := by
    rw [Std.ExtTreeMap.map_fst_toList_eq_keys]
    exact Std.ExtTreeMap.nodup_keys
  refine ⟨h.grove, ⟨fun role => ?_, fun role root id hroot hid => ?_⟩, u.answers.closed _ h.state _ hnext⟩
  · rw [← h.inStep.roles, Std.ExtTreeMap.mem_ofList, List.contains_iff_mem, hkeys,
      Std.ExtTreeMap.map_fst_toList_eq_keys, Std.ExtTreeMap.mem_keys]
  · rw [ByRole.getElem?_ofList (hkeys ▸ hnodup), List.mem_map] at hid
    obtain ⟨⟨role', e⟩, hin, heq⟩ := hid
    rw [Prod.mk.injEq] at heq
    obtain ⟨rfl, rfl⟩ := heq
    obtain ⟨id, q, hid, hq, he, hto⟩ := hedges _ hin
    have hsound := h.grove.sound.kept id q hq (by simp)
    have hstep := (h.inStep.node role' root id hroot hid).step hq hsound he
    rw [hto] at hstep
    exact hstep

/-- Every tree has an edge for the turn that was chosen, and they all lead to the same state. -/
lemma edgesFor_ensures {a : Arena R} {next : State}
    (h : Poised u own course trees base depth a joint) (hexpanded : Expanded a joint)
    (hreferee : Refereed u joint.world control legal)
    (harguments : (controlOf own).arguments? = .ok [own])
    (hplays : List.Forall₂ (Chosen a joint legal) control.toList plays)
    (hnext : (Turn.ofList plays, next) ∈ u.game.transitions joint.world) :
    Action.Ensures never (joint.nodes.toList.mapM fun x : Role × NodeId => (do
        return (x.1, ← edgeFor? a joint.world (.ofList plays) x.1 x.2) :
        Action (Hosted (Arena R) ε) (Role × Edge))) s fun edges t => t = s ∧
      edges.map Prod.fst = joint.nodes.toList.map Prod.fst ∧ ∀ x ∈ edges, ∃ id q,
        joint.nodes[x.1]? = some id ∧ a.place? id = some q ∧ x.2 ∈ q.edgeList ∧ x.2.next = next := by
  refine Action.ensures_mapM (I := fun (before : List (Role × NodeId)) (edges : List (Role × Edge)) t => t = s ∧
    edges.map Prod.fst = before.map Prod.fst ∧ ∀ x ∈ edges, ∃ id q, joint.nodes[x.1]? = some id ∧
      a.place? id = some q ∧ x.2 ∈ q.edgeList ∧ x.2.next = next) ?_ ⟨rfl, rfl, by simp⟩
  rintro before ⟨role, id⟩ after edges t hl ⟨rfl, hroles, hedges⟩
  have hid : joint.nodes[role]? = some id :=
    Std.ExtTreeMap.mem_toList_iff_getElem?_eq_some.1 (by simp [hl])
  obtain ⟨-, q, -, -, hq, -, -, hsound⟩ := h.node hid
  have hout := h.out hexpanded hreferee harguments hplays hnext hid hq
  obtain ⟨listed, hlisted⟩ := Option.ne_none_iff_exists'.1 (hexpanded role id q hid hq).1
  obtain ⟨e, he, hfind, -, hto⟩ := turnIndex?_run hsound hlisted h.state hout
  have hrun : edgeFor? a joint.world (.ofList plays) role id = .ok e := by
    simp only [edgeFor?, edges?_of_place? hq hlisted, bind, Except.bind, hfind]
    rfl
  refine Action.ensures_bind_of_ok (Action.lift_of_ok hrun t) (Action.ensures_of_ok rfl ?_)
  refine ⟨rfl, by rw [List.map_append, List.map_append, hroles]; rfl, fun x hx => ?_⟩
  rcases List.mem_append.1 hx with hx | hx
  · exact hedges x hx
  · rw [List.mem_singleton.1 hx]
    exact ⟨id, q, hid, hq, he, hto⟩

variable [Scalar R]

/-- A selector picks the key of an edge out of the world. -/
lemma select_ensures {host : ε} (hspares : selector.Spares never) (hp : a.place? id = some p)
    (hsound : p.Sound u a.place? id) (hedges : p.edges ≠ none) :
    Action.Ensures never (a.select selector id (some w)) host fun key _ =>
      ∃ e ∈ p.edgeList, key = e.key ∧ e.key.world = some w :=
  select_picks hp hsound hedges (fun _ _ _ _ _ => hspares.pick _ _ _ _ _ _ _) fun _ =>
    hspares.not_never not_false Fault.Kind.noConfusion

variable [Dice ε]

lemma selectMove_ensures (hspares : selector.Spares never)
    (h : Poised u own course trees base depth s.own joint) (hexpanded : Expanded s.own joint)
    (hreferee : Refereed u joint.world control legal) (hrole : role ∈ control.toList) :
    Action.Ensures never (selectMove u.game selector joint role) s fun p t =>
      t.own = s.own ∧ Chosen s.own joint legal role p := by
  unfold selectMove
  cases hid : joint.nodes[role]? with
  | none =>
    have hmoves : u.game.moves? joint.world role = .ok (legal.getD role []) := by
      rw [Game.moves?, hreferee.moves]
      rfl
    obtain ⟨move, host, hchoose, hmove⟩ := Dice.choose_run (hreferee.ne role hrole) s.host
    refine Action.ensures_bind_of_ok (Action.lift_of_ok hmoves s) ?_
    refine Action.ensures_bind_of_ok (Hosted.onHost_eq_ok.2 ⟨host, hchoose, rfl⟩) ?_
    exact Action.ensures_of_ok rfl ⟨rfl, rfl, hmove, fun id q hid' => by rw [hid] at hid'; cases hid'⟩
  | some id =>
    obtain ⟨root, q, -, -, hq, howner, -, hsound⟩ := h.node hid
    refine Action.ensures_bind_of_ok (Hosted.onOwn_eq_ok.2 ⟨s.own, rfl, rfl⟩) ?_
    refine (Hosted.ensures_onHost (P := fun key t => t.own = s.own ∧ ∃ e ∈ q.edgeList, key = e.key ∧
      e.key.world = some joint.world) ?_).bind fun key t hkey => ?_
    · exact (select_ensures hspares hq hsound (hexpanded role id q hid hq).1).mono fun _ _ hkey => ⟨rfl, hkey⟩
    · obtain ⟨hown, e, he, rfl, hworld⟩ := hkey
      obtain ⟨w', -, hkey, hstep, -⟩ := hsound.edge he
      have hworld' : w' = joint.world := by
        rw [hkey] at hworld
        exact Option.some.inj hworld
      subst hworld'
      obtain ⟨move, hmove, hfind⟩ := hreferee.find? hstep hrole
      have hat : e.key.turn.at? role = .ok move := by
        have hsame : e.key.turn.find? role = some move := by
          rw [hkey, Place.keyOf]
          simp only
          split
          · rw [howner, Turn.find?_restrict, hfind]
          · exact hfind
        rw [Turn.at?, hsame]
      refine Action.ensures_bind_of_ok (Action.lift_of_ok hat t) ?_
      refine Action.ensures_of_ok rfl ⟨hown, rfl, hmove, fun id' q' hid' hq' => ?_⟩
      rw [hid, Option.some.injEq] at hid'
      subst hid'
      rw [hq, Option.some.injEq] at hq'
      subst hq'
      exact ⟨e, he, hworld, hfind⟩

/-- The roles in control choose their moves, one after another. -/
lemma selectMoves_ensures (hspares : selector.Spares never)
    (h : Poised u own course trees base depth s.own joint) (hexpanded : Expanded s.own joint)
    (hreferee : Refereed u joint.world control legal) :
    Action.Ensures never (control.toList.mapM (selectMove u.game selector joint)) s fun plays t =>
      t.own = s.own ∧ List.Forall₂ (Chosen s.own joint legal) control.toList plays := by
  refine Action.ensures_mapM (I := fun before plays (t : Hosted (Arena R) ε) => t.own = s.own ∧
    List.Forall₂ (Chosen s.own joint legal) before plays) ?_ ⟨rfl, .nil⟩
  rintro before role after plays t hl ⟨hsame, hplays⟩
  have hrole : role ∈ control.toList := by simp [hl]
  refine (selectMove_ensures hspares (hsame ▸ h) (hsame ▸ hexpanded) hreferee hrole).mono ?_
  rw [hsame]
  exact fun p t' hp => ⟨hp.1, List.rel_append hplays (.cons hp.2 .nil)⟩

/-- A simulation goes no further if some tree ends. -/
lemma advance_unexpanded (h : Poised u own course trees base depth s.own joint)
    (hid : joint.nodes[role]? = some id) (hq : s.own.place? id = some q) (hedges : q.edges = none) :
    advance u.game selector joint s = .ok none s := by
  obtain ⟨ended, hended⟩ := u.answers.isTerminal _ h.state
  have hends : Action.Ensures (fun _ => True) (advance u.game selector joint) s fun found t =>
      found = none ∧ t = s := by
    unfold advance
    refine Action.ensures_bind_of_ok (Action.lift_of_ok hended s) ?_
    cases ended with
    | true => exact Action.ensures_of_ok rfl ⟨rfl, rfl⟩
    | false =>
      refine Action.ensures_bind_of_ok (Hosted.onOwn_eq_ok.2 ⟨s.own, rfl, rfl⟩) ?_
      refine (allM_isExpanded h).bind fun expanded t hexpanded => ?_
      obtain ⟨rfl, hexpanded⟩ := hexpanded
      cases expanded with
      | false => exact Action.ensures_of_ok rfl ⟨rfl, rfl⟩
      | true => exact absurd hedges (hexpanded rfl role id q hid hq).1
  obtain ⟨found, t, hrun, rfl, rfl⟩ := hends.yields
  exact hrun

/-- One joint turn keeps the trees in step, and no tree lacks an edge for it. -/
theorem advance_ensures (hspares : selector.Spares never)
    (h : Poised u own course trees base depth s.own joint) (hown : own ∈ trees)
    (harguments : (controlOf own).arguments? = .ok [own]) :
    Action.Ensures never (advance u.game selector joint) s fun found t => t.own = s.own ∧
      ∀ next, found = some next → Poised u own course trees base (depth + 1) s.own next ∧
        ∃ turn, (turn, next.world) ∈ u.game.transitions joint.world := by
  obtain ⟨ended, hended⟩ := u.answers.isTerminal _ h.state
  unfold advance
  refine Action.ensures_bind_of_ok (Action.lift_of_ok hended s) ?_
  cases ended with
  | true => exact Action.ensures_of_ok rfl ⟨rfl, by simp⟩
  | false =>
    obtain ⟨control, legal, hreferee⟩ := exists_refereed h.state hended
    refine Action.ensures_bind_of_ok (Hosted.onOwn_eq_ok.2 ⟨s.own, rfl, rfl⟩) ?_
    refine (allM_isExpanded h).bind fun expanded t hexpanded => ?_
    obtain ⟨rfl, hexpanded⟩ := hexpanded
    cases expanded with
    | false => exact Action.ensures_of_ok rfl ⟨rfl, by simp⟩
    | true =>
      have hexpanded := hexpanded rfl
      refine Action.ensures_bind_of_ok (Action.lift_of_ok hreferee.asked t) ?_
      refine (selectMoves_ensures hspares h hexpanded hreferee).bind fun plays t' hplays => ?_
      obtain ⟨hsame, hplays⟩ := hplays
      obtain ⟨next, hnext⟩ := hreferee.next plays (legal_of_chosen hplays)
      refine (edgesFor_ensures h hexpanded hreferee harguments hplays hnext).bind fun edges t'' hedges => ?_
      obtain ⟨rfl, hroles, hedges⟩ := hedges
      have hfollow := h.follow hnext hroles hedges
      cases hlast : edges.getLast? with
      | none =>
        -- There is an edge in each tree, and the agent has a tree of its own.
        rw [List.getLast?_eq_none_iff] at hlast
        have hin := (h.inStep.roles own).2 hown
        rw [hlast, List.map_nil, eq_comm, List.map_eq_nil_iff, Std.ExtTreeMap.toList_eq_nil_iff] at hroles
        rw [hroles] at hin
        exact absurd hin Std.ExtTreeMap.not_mem_empty
      | some x =>
        obtain ⟨-, -, -, -, -, hto⟩ := hedges x (List.mem_of_getLast? hlast)
        refine Action.ensures_of_ok rfl ⟨hsame, fun found hfound => ?_⟩
        rw [Option.some.injEq] at hfound
        rw [← hfound, hto]
        exact ⟨hfollow, _, hnext⟩

/-- Descending keeps the trees in step. -/
theorem descend_ensures {fuel : Nat} (hspares : selector.Spares never)
    (h : Poised u own course trees base depth s.own joint) (hown : own ∈ trees)
    (harguments : (controlOf own).arguments? = .ok [own]) :
    Action.Ensures never (descend u.game selector fuel joint) s fun reached t => t.own = s.own ∧
      ∃ n, Poised u own course trees base (depth + n) s.own reached ∧
        u.game.After n joint.world reached.world := by
  induction fuel generalizing depth joint s with
  | zero => exact Action.ensures_of_error rfl (hspares.not_never not_false (by decide))
  | succ fuel ih =>
    rw [descend]
    refine (advance_ensures hspares h hown harguments).bind fun found t hfound => ?_
    obtain ⟨hsame, hfound⟩ := hfound
    cases found with
    | none => exact Action.ensures_of_ok rfl ⟨hsame, 0, h, rfl⟩
    | some next =>
      obtain ⟨hnext, turn, hturn⟩ := hfound next rfl
      refine (ih (hsame ▸ hnext)).mono fun reached t' hreached => ?_
      obtain ⟨hsame', n, hpoised, hafter⟩ := hreached
      rw [hsame] at hsame' hpoised
      exact ⟨hsame', 1 + n, by rw [← Nat.add_assoc]; exact hpoised,
        (Game.after_one hturn).trans hafter⟩

end MultiObserver

end GameSearch
