import GameSearch.Proofs.Agent.Accounting
import GameSearch.Proofs.Agent.Simulation

/-!
# The way of a simulation

A simulation of an agent with one tree carries a world down the tree.  `SingleObserver.descendBy` is the
descent that tells its way as well, and `SingleObserver.Follows` is what makes a way one of the world that is
carried along: it is among the worlds of each node, and only edges out of it are followed.  The descent ends
as depths increase along edges, and it fails only as the selector does.
-/

namespace GameSearch

/-! ## Worlds that are expanded -/

namespace Arena

variable {R : Type} {a a' a'' : Arena R} {id k : NodeId} {n : Node R} {game : Game} {w world next : State} {turn : Turn}

/-- A world of a node is expanded. -/
def HasExpanded (a : Arena R) (id : NodeId) (w : State) : Prop := ∃ b, a.belief? id = .ok b ∧ w ∈ b.expanded

/-- No world has been expanded, but perhaps one of a certain node. -/
def ExpandsOnly (id : NodeId) (w : State) (a a' : Arena R) : Prop :=
  ∀ k x, a'.HasExpanded k x → a.HasExpanded k x ∨ k = id ∧ x = w

instance : IsPreorder (Arena R) (ExpandsOnly id w) where
  refl _ _ _ h := .inl h
  trans _ _ _ h h' k x hx := (h' k x hx).elim (h k x) .inr

lemma hasExpanded_iff : a.HasExpanded k w ↔ ∃ n b, a.find? k = some n ∧ n.knowledge = .belief b ∧ w ∈ b.expanded := by
  simp only [HasExpanded, belief?_eq_ok]
  constructor
  · rintro ⟨b, ⟨n, hn, hb⟩, hw⟩
    exact ⟨n, b, hn, hb, hw⟩
  · rintro ⟨n, b, hn, hb, hw⟩
    exact ⟨b, ⟨n, hn, hb⟩, hw⟩

lemma expandsOnly_update {f : Node R → Node R}
    (hf : ∀ n b x, (f n).knowledge = .belief b → x ∈ b.expanded →
      (∃ b', n.knowledge = .belief b' ∧ x ∈ b'.expanded) ∨ k = id ∧ x = w) :
    ExpandsOnly id w a (a.update k f) := by
  intro y x hx
  obtain ⟨m, b, hm, hb, hxb⟩ := hasExpanded_iff.1 hx
  rw [find?_update] at hm
  split at hm
  · rename_i hy
    obtain ⟨n, hn, rfl⟩ := Option.map_eq_some_iff.1 hm
    rcases hf n b x hb hxb with ⟨b', hb', hx'⟩ | ⟨rfl, rfl⟩
    · exact .inl (hasExpanded_iff.2 ⟨n, b', hy ▸ hn, hb', hx'⟩)
    · exact .inr ⟨hy, rfl⟩
  · exact .inl (hasExpanded_iff.2 ⟨m, b, hm, hb, hxb⟩)

lemma expandsOnly_change {f : Node R → Node R} (hf : ∀ n, (f n).knowledge = n.knowledge) :
    Action.Respects (ExpandsOnly id w) (change k f) :=
  Action.respects_modify fun _ => expandsOnly_update fun n b _ hb hx => .inl ⟨b, hf n ▸ hb, hx⟩

lemma expandsOnly_changeBelief {f : Belief → Belief}
    (hf : ∀ b x, x ∈ (f b).expanded → x ∈ b.expanded ∨ k = id ∧ x = w) :
    Action.Respects (ExpandsOnly id w) (changeBelief k f : Action (Arena R) Unit) := by
  refine Action.respects_modify fun _ => expandsOnly_update fun n b x hb hx => ?_
  obtain ⟨parent, depth, role, knowledge, edges, valuation, move⟩ := n
  cases knowledge with
  | perfect s turn => cases hb
  | belief b' =>
    cases hb
    exact (hf b' x hx).imp_left fun h => ⟨b', rfl, h⟩

lemma eq_or_find?_of_add {m : Node R} {c : NodeId} (hadd : add (.ok n) a = .ok c a')
    (hm : a'.find? k = some m) : m = n ∨ a.find? k = some m := by
  have hrun : add (.ok n) a = .ok a.reserve.1 (a.reserve.2.fillSlot a.reserve.1 n) := rfl
  obtain ⟨-, rfl⟩ := EStateM.Result.ok.inj (hrun.symm.trans hadd)
  rw [← a.find?_reserve]
  simp only [find?, fillSlot, Array.getElem?_setIfInBounds] at hm ⊢
  split at hm
  · split at hm
    · exact .inl (Option.some.inj hm).symm
    · cases hm
  · exact .inr hm

lemma expandsOnly_add {q : Except Fault (Node R)}
    (hq : ∀ n b, q = .ok n → n.knowledge = .belief b → b.expanded = ∅) :
    Action.Respects (ExpandsOnly id w) (add q) := by
  intro a c a' hrun k x hx
  cases q with
  | error f => cases hrun
  | ok n =>
    obtain ⟨m, b, hm, hb, hxb⟩ := hasExpanded_iff.1 hx
    rcases eq_or_find?_of_add hrun hm with rfl | hm
    · rw [hq m b rfl hb] at hxb
      exact absurd hxb Std.ExtTreeSet.not_mem_empty
    · exact .inl (hasExpanded_iff.2 ⟨m, b, hm, hb, hxb⟩)

lemma expandsOnly_node : Action.Respects (ExpandsOnly id w) (node k : Action (Arena R) (Node R)) :=
  Action.respects_get_bind fun _ => Action.respects_lift _

lemma expandsOnly_belief : Action.Respects (ExpandsOnly id w) (belief k : Action (Arena R) Belief) :=
  Action.respects_get_bind fun _ => Action.respects_lift _

lemma expandsOnly_childFor {b : Belief} {o : Observation} :
    Action.Respects (ExpandsOnly id w) (childFor k n b o next : Action (Arena R) NodeId) := by
  unfold childFor
  split
  · unfold addBeliefChild
    refine (expandsOnly_add fun n b hn hb => ?_).bind fun child => ?_
    · unfold Node.belief? at hn
      obtain ⟨depth, -, hn⟩ := bind_eq_ok.1 hn
      split at hn
      · cases hn
        cases hb
        rfl
      · cases hn
    · refine Action.Respects.bind ?_ fun _ => Action.Respects.bind ?_ fun _ => Action.respects_pure _
      · exact expandsOnly_changeBelief fun _ _ hx => .inl hx
      · exact expandsOnly_changeBelief fun _ _ hx => .inl hx
  · refine expandsOnly_belief.bind fun _ => Action.Respects.bind ?_ fun _ => Action.respects_pure _
    exact expandsOnly_changeBelief fun _ _ hx => .inl hx

lemma expandsOnly_addTransition :
    Action.Respects (ExpandsOnly id w) (addTransition game id w turn next : Action (Arena R) Unit) := by
  refine expandsOnly_node.bind fun n => expandsOnly_belief.bind fun b => ?_
  refine .ite (fun _ => Action.respects_pure _) fun _ => ?_
  exact Action.respects_lift_bind fun o => expandsOnly_childFor.bind fun child => expandsOnly_change fun _ => rfl

/-- The expansion of a world of a node expands no other. -/
lemma expandsOnly_expandWorld :
    Action.Respects (ExpandsOnly id w) (expandWorld game id w : Action (Arena R) Unit) := by
  refine expandsOnly_belief.bind fun b => .ite (fun _ => Action.respects_pure _) fun _ => ?_
  have hadds : Action.Respects (ExpandsOnly id w) (addTransitions game id w : Action (Arena R) Unit) := by
    refine Action.Respects.bind (expandsOnly_change fun _ => rfl) fun _ => Action.respects_lift_bind fun steps => ?_
    refine Action.Respects.bind (Action.respects_forIn fun step _ _ => ?_) fun _ => ?_
    · exact expandsOnly_addTransition.bind fun _ => Action.respects_pure _
    · refine expandsOnly_changeBelief fun b x hx => ?_
      exact (StateSet.mem_insert.1 hx).symm.imp_right fun h => ⟨rfl, h⟩
  exact .ite (fun _ => (Action.respects_throw _).bind fun _ => hadds) fun _ => hadds

lemma Revalued.hasExpanded (h : Revalued a a') (hx : a'.HasExpanded k w) : a.HasExpanded k w := by
  obtain ⟨n', b, hn', hb, hw⟩ := hasExpanded_iff.1 hx
  obtain ⟨n, hn, hsame⟩ := h.exists_find? hn'
  have hknowledge : n'.knowledge = n.knowledge :=
    (by rw [hsame] : n'.unvalued.knowledge = n.unvalued.knowledge)
  exact hasExpanded_iff.2 ⟨n, b, hn, hknowledge ▸ hb, hw⟩

lemma Sane.place_of_belief? {b : Belief} (h : a.Sane) (hb : a.belief? k = .ok b) :
    ∃ p, a.place? k = some p ∧ p.belief = b := by
  obtain ⟨n, hn, hknowledge⟩ := belief?_eq_ok.1 hb
  obtain ⟨p, hp⟩ := Option.isSome_iff_exists.1 (h.beliefs k n hn)
  refine ⟨p, by rw [place?_of_find? hn, hp], ?_⟩
  rw [Node.place?_eq_some.1 hp, Place.toNode_knowledge] at hknowledge
  exact Knowledge.belief.inj hknowledge

/-- The arena of a sound forest is shaped. -/
lemma Sound.shaped {u : Upkeep} (h : a.AllSound u) : a.Shaped := by
  refine ⟨h.sane.orderly, fun id n hn => ?_⟩
  obtain ⟨p, hp⟩ := Option.isSome_iff_exists.1 (h.sane.beliefs id n hn)
  have hplace : a.place? id = some p := by rw [place?_of_find? hn, hp]
  have hsound := h.kept id p hplace not_false
  obtain ⟨v, hv⟩ := find?_of_place? hplace
  obtain rfl := Option.some.inj (hn.symm.trans hv)
  refine ⟨fun e he => ?_, fun k hk => ?_⟩
  · obtain ⟨c, hc, hof⟩ := hsound.child e he
    obtain ⟨v, hv⟩ := find?_of_place? hc
    rw [station?_of_find? hv]
    simp only [Node.station, Station.child, Place.toNode, hof.parent, hof.depth, hof.role]
  · obtain ⟨b, hb, o, ho⟩ := hk
    cases hb
    obtain ⟨e, he, -, hchild⟩ := hsound.edge_of_bucket ho
    exact ⟨e, he, hchild⟩

end Arena

namespace SingleObserver

open TreeAgent

variable {R ε : Type} {u : Upkeep} {game : Game} {a a' : Arena R} {root id leaf : NodeId} {p : Place}
  {w last : State} {f : Fault}

/-! ## The way down -/

/-- One level of the way of a simulation: a node, the world there, and the edge that was followed. -/
structure Stage where
  node : NodeId
  world : State
  edge : Edge

/-- A way down from a node in a world: at each level the world is among the worlds of the node and is
expanded, and the edge that is followed stands for a transition out of it.  The way ends where the world
has no edge. -/
inductive Follows (game : Game) (a : Arena R) : NodeId → State → List Stage → NodeId → State → Prop
  | stop {id : NodeId} {w : State} {b : Belief} (hb : a.belief? id = .ok b) (hw : w ∈ b.worlds)
      (hend : w ∉ b.expanded ∨ ∀ e ∈ a.edgesOf id, e.key.world ≠ some w) : Follows game a id w [] id w
  | step {id leaf : NodeId} {w last : State} {b : Belief} {e : Edge} {way : List Stage}
      (hb : a.belief? id = .ok b) (hw : w ∈ b.worlds) (hexpanded : w ∈ b.expanded) (he : e ∈ a.edgesOf id)
      (hkey : e.key.world = some w) (hnext : (e.turn, e.next) ∈ game.transitions w)
      (hrest : Follows game a e.child e.next way leaf last) :
      Follows game a id w (⟨id, w, e⟩ :: way) leaf last

lemma Follows.leads {way : List Stage} (h : Follows game a id w way leaf last) : a.Leads id leaf := by
  induction h with
  | stop => exact .refl
  | step _ _ _ he _ _ _ ih => exact .trans (.step .refl he) ih

lemma Follows.ends {way : List Stage} (h : Follows game a id w way leaf last) :
    ∃ b, a.belief? leaf = .ok b ∧ last ∈ b.worlds := by
  induction h with
  | stop hb hw => exact ⟨_, hb, hw⟩
  | step _ _ _ _ _ _ _ ih => exact ih

lemma Follows.begins {way : List Stage} (h : Follows game a id w way leaf last) :
    ∃ b, a.belief? id = .ok b ∧ w ∈ b.worlds := by
  cases h with
  | stop hb hw => exact ⟨_, hb, hw⟩
  | step hb hw => exact ⟨_, hb, hw⟩

/-- A world that is expanded and has an edge is followed. -/
lemma Follows.way_ne_nil {way : List Stage} {e : Edge} (h : Follows game a id w way leaf last)
    (hexpanded : a.HasExpanded id w) (he : e ∈ a.edgesOf id) (hkey : e.key.world = some w) : way ≠ [] := by
  rintro rfl
  obtain ⟨b, hb, hw⟩ := hexpanded
  cases h with
  | stop hb' _ hend =>
    cases hb.symm.trans hb'
    rcases hend with hnot | hnone
    · exact hnot hw
    · exact hnone e he hkey

variable [Scalar R]

/-- Why a simulation may fail: the selector does, when asked about some options in one of the worlds of a
node, or the evaluator does in one of the worlds of a node, or the utility it finds is none. -/
inductive Refuses (game : Game) (selector : Selector R ε) (evaluator : Evaluator R ε) (a : Arena R)
    (root : NodeId) (f : Fault) : Prop
  | selector {id : NodeId} {w : State} {b : Belief} {role : Role} {options : Array (Candidate R)}
      {h : 0 < options.size} {host host' : ε} (hleads : a.Leads root id) (hb : a.belief? id = .ok b)
      (hw : w ∈ b.worlds) (hoptions : a.options? id (some w) = .ok options)
      (hpick : selector.pick w role options h host = .error f host')
  | evaluator {id : NodeId} {w : State} {b : Belief} {role : Role} {host host' : ε} (hleads : a.Leads root id)
      (hb : a.belief? id = .ok b) (hw : w ∈ b.worlds)
      (hevaluate : evaluator.evaluate game w role host = .error f host')
  | utility {id : NodeId} {w : State} {b : Belief} {role : Role} {utility : R} {host host' : ε}
      (hleads : a.Leads root id) (hb : a.belief? id = .ok b) (hw : w ∈ b.worlds)
      (hevaluate : evaluator.evaluate game w role host = .ok utility host')
      (hvalue : Valuation.ofUtility? utility = .error f)

variable [Dice ε] {selector : Selector R ε} {evaluator : Evaluator R ε} {fuel : Nat} {s : Hosted (Arena R) ε}

/-- The descent, together with the way taken. -/
def descendBy (selector : Selector R ε) :
    (fuel : Nat) → NodeId → (world : State) → Action (Hosted (Arena R) ε) (List Stage × NodeId × State)
  | 0, _, _ => throw .outOfSteps
  | fuel + 1, id, world => do
    let a ← Hosted.onOwn get
    let b ← a.belief? id
    if !b.expanded.contains world then return ([], id, world)
    let edges ← a.edges? id
    if !(edges.any fun e => e.key.world = some world) then return ([], id, world)
    let key ← Hosted.onHost (a.select selector id (some world))
    let e ← Hosted.onHost (Dice.choose (edges.filter (·.key = key)).toList)
    let (way, last) ← descendBy selector fuel e.child e.next
    return (⟨id, world, e⟩ :: way, last)

lemma descend_eq : descend selector fuel id w = descendBy selector fuel id w >>= fun found => pure found.2 := by
  induction fuel generalizing id w with
  | zero => rfl
  | succ fuel ih =>
    simp only [descend, descendBy, ih, bind_assoc]
    refine bind_congr fun a => bind_congr fun b => ?_
    split
    · simp only [pure_bind]
    · simp only [bind_assoc]
      refine bind_congr fun edges => ?_
      split
      · simp only [pure_bind]
      · simp only [bind_assoc, pure_bind]

/-- The edge that is followed out of an expanded world is one of that world, and none is found only if the
selector fails. -/
lemma chooseEdge_ensures {edges : Array Edge} (hsound : s.own.AllSound u) (hp : s.own.place? id = some p)
    (hedges : p.edges = some edges) (hw : w ∈ p.belief.worlds) (hleads : s.own.Leads root id)
    (hsome : (edges.any fun e => e.key.world = some w) = true) :
    Action.Ensures (fun f => ¬Refuses u.game selector evaluator s.own root f)
      (Hosted.onHost (s.own.select selector id (some w)) >>= fun key =>
        Hosted.onHost (Dice.choose (edges.filter (·.key = key)).toList)) s
      fun e t => t.own = s.own ∧ e ∈ p.edgeList ∧ e.key.world = some w := by
  have hlist := Place.edgeList_of_some hedges
  refine (Hosted.ensures_onHost (P := fun key t => t.own = s.own ∧
    ∃ e ∈ p.edgeList, key = e.key ∧ e.key.world = some w) ?_).bind fun key t hkey => ?_
  · refine (Arena.select_picks hp (hsound.kept id p hp not_false) (by simp [hedges]) ?_ ?_).mono
      fun _ _ h => ⟨rfl, h⟩
    · exact fun options h f t hoptions hpick =>
        not_not.2 (.selector hleads (Arena.belief?_of_place? hp) hw hoptions hpick)
    · intro hnone
      simp only [Array.any_eq_true', decide_eq_true_eq] at hsome
      obtain ⟨e, he, hkey⟩ := hsome
      exact absurd hkey (hnone e (hlist ▸ Array.mem_toList_iff.2 he))
  · obtain ⟨hown, e₀, he₀, rfl, hworld⟩ := hkey
    have hne : (edges.filter (·.key = e₀.key)).toList ≠ [] := by
      refine List.ne_nil_of_mem (a := e₀) ?_
      rw [Array.toList_filter, List.mem_filter, ← hlist]
      exact ⟨he₀, by simp⟩
    obtain ⟨e, host, hchoose, he⟩ := Dice.choose_run hne t.host
    rw [Array.toList_filter, List.mem_filter, ← hlist] at he
    exact Action.ensures_of_ok (Hosted.onHost_eq_ok.2 ⟨host, hchoose, rfl⟩)
      ⟨hown, he.1, by rw [of_decide_eq_true he.2, hworld]⟩

/-- The descent follows the world, and fails only if the selector does. -/
theorem descendBy_ensures (hsound : s.own.AllSound u) (hp : s.own.place? id = some p)
    (hw : w ∈ p.belief.worlds) (hheight : Forest.HeightBelow s.own.place? fuel id)
    (hleads : s.own.Leads root id) :
    Action.Ensures (fun f => ¬Refuses u.game selector evaluator s.own root f) (descendBy selector fuel id w) s
      fun found t => t.own = s.own ∧ Follows u.game s.own id w found.1 found.2.1 found.2.2 ∧
        found.1.length < fuel := by
  induction fuel generalizing id p w s with
  | zero => exact hheight.elim
  | succ fuel ih =>
    have hb := Arena.belief?_of_place? hp
    have hfits := hsound.kept id p hp not_false
    rw [descendBy]
    refine Action.ensures_bind_of_ok (Hosted.onOwn_eq_ok.2 ⟨s.own, rfl, rfl⟩) ?_
    refine Action.ensures_bind_of_ok (Action.lift_of_ok hb s) ?_
    split
    · rename_i hidle
      have hidle : w ∉ p.belief.expanded := fun hin => by
        rw [Std.ExtTreeSet.mem_iff_contains.1 hin] at hidle
        cases hidle
      exact Action.ensures_of_ok rfl ⟨rfl, .stop hb hw (.inl hidle), Nat.succ_pos fuel⟩
    · rename_i hexpanded
      have hexpanded : w ∈ p.belief.expanded := by
        rw [Std.ExtTreeSet.mem_iff_contains]
        simpa using hexpanded
      obtain ⟨edges, hedges⟩ :=
        Option.ne_none_iff_exists'.1 fun hnone => hfits.pristine hnone w hexpanded
      have hof : s.own.edgesOf id = p.edgeList := Arena.edgesOf_of_place? hp
      refine Action.ensures_bind_of_ok (Action.lift_of_ok (Arena.edges?_of_place? hp hedges) s) ?_
      split
      · rename_i hnone
        refine Action.ensures_of_ok rfl ⟨rfl, .stop hb hw (.inr fun e he hkey => ?_), Nat.succ_pos fuel⟩
        rw [hof, Place.edgeList_of_some hedges, Array.mem_toList_iff] at he
        simp only [Bool.not_eq_true', Array.any_eq_false', decide_eq_true_eq] at hnone
        exact hnone e he hkey
      · rename_i hsome
        rw [Bool.not_eq_true', Bool.not_eq_false] at hsome
        rw [← bind_assoc]
        refine (chooseEdge_ensures hsound hp hedges hw hleads hsome).bind fun e t hchosen => ?_
        obtain ⟨own, host⟩ := t
        obtain ⟨hown, he, hkey⟩ := hchosen
        obtain rfl : own = s.own := hown
        -- the edge stands for a transition out of the world, to a world of the child
        obtain ⟨w', -, hkeyed, hnext, -⟩ := hfits.edge he
        obtain rfl : w' = w := Option.some.inj ((congrArg Edge.Key.world hkeyed).symm.trans hkey)
        obtain ⟨c, hc, hchild⟩ := hfits.child e he
        have hin : e.next ∈ c.belief.worlds := (hchild.worlds _).2 ⟨e, he, rfl, rfl⟩
        refine (ih (s := ⟨s.own, host⟩) hsound hc hin (hheight p hp e he)
          (hleads.step (hof ▸ he))).bind fun found t hfound => ?_
        obtain ⟨hown, hfollows, hlength⟩ := hfound
        refine Action.ensures_of_ok rfl ⟨hown, ?_, Nat.succ_lt_succ hlength⟩
        exact .step hb hw hexpanded (hof ▸ he) hkey hnext hfollows

/-! ## Simulations -/

/-- What happened in a simulation: the world that was drawn, its way down, the node and the world where it
ended, and the utility that was found there. -/
structure Simulation (R : Type) where
  world : State
  way : List Stage
  leaf : NodeId
  last : State
  utility : R

/-- A simulation that tells what happened. -/
def simulateBy (game : Game) (selector : Selector R ε) (evaluator : Evaluator R ε) (root : NodeId) :
    Action (Hosted (Arena R) ε) (Simulation R) := do
  let world ← Hosted.onHost (Arena.drawWorld (← Hosted.onOwn (Arena.node root)))
  let (way, leaf, last) ← descendBy selector (← Hosted.onOwn Arena.heightBound) root world
  Hosted.onOwn (Arena.expandWorld game leaf last)
  let utility ← Arena.evaluate game evaluator leaf (some last)
  Hosted.onOwn (Arena.backpropagate leaf utility)
  return ⟨world, way, leaf, last, utility⟩

lemma simulate_eq_simulateBy : simulate game selector evaluator root =
    simulateBy game selector evaluator root >>= fun _ => pure ⟨⟩ := by
  unfold simulate simulateBy
  simp only [descend_eq, bind_assoc, pure_bind, bind_pure_unit]

/-- What a simulation of an agent does to its tree: its way is one of a world of the root, no world is
expanded but the last one at the node where the way ends, and that node and those above it have one more
playout each. -/
structure Determinized (game : Game) (a : Arena R) (root : NodeId) (sim : Simulation R) (a' : Arena R) : Prop where
  follows : Follows game a root sim.world sim.way sim.leaf sim.last
  levels : sim.way.length ≤ a.slots.size
  expands : a.ExpandsOnly sim.leaf sim.last a'
  counts : ∀ id, (a'.Leads id sim.leaf → a'.playouts id = a.playouts id + 1) ∧
    (¬a'.Leads id sim.leaf → a'.playouts id = a.playouts id)

/-- The evaluation of a world of a node fails only if the evaluator does, or finds no utility. -/
lemma evaluate_ensures {never : Fault → Prop} (hp : s.own.place? id = some p) (hw : w ∈ p.belief.worlds)
    (hevaluate : ∀ f host', evaluator.evaluate game w p.role s.host = .error f host' → ¬never f)
    (hvalue : ∀ utility host' f, evaluator.evaluate game w p.role s.host = .ok utility host' →
      (Valuation.ofUtility? utility : Except Fault (Valuation R)) = .error f → ¬never f) :
    Action.Ensures never (Arena.evaluate game evaluator id (some w)) s fun utility t =>
      (∃ host', evaluator.evaluate game w p.role s.host = .ok utility host') ∧
        Arena.propagate id utility s.own = .ok ⟨⟩ t.own := by
  obtain ⟨v, hn⟩ := Arena.find?_of_place? hp
  have hworld : (p.toNode v).hasWorld w = true := hw
  have hruns : Action.Ensures never (Arena.evaluate game evaluator id (some w)) s fun utility _ =>
      ∃ host', evaluator.evaluate game w p.role s.host = .ok utility host' := by
    unfold Arena.evaluate
    refine Action.ensures_bind_of_ok (Hosted.onOwn_eq_ok.2 ⟨s.own, Arena.node_of_find? hn, rfl⟩) ?_
    simp only [hworld, if_true]
    refine Action.ensures_bind_of_ok (a := w) (t := s) rfl ?_
    refine (Hosted.ensures_onHost (P := fun utility t => t.own = s.own ∧
      evaluator.evaluate game w p.role s.host = .ok utility t.host) ?_).bind fun utility t hvalued => ?_
    · exact (Action.ensures_run hevaluate).mono fun _ _ hrun => ⟨rfl, hrun⟩
    · obtain ⟨hown, hrun⟩ := hvalued
      have hpropagate : Action.Ensures never (Arena.propagate id utility) t.own fun _ a =>
          Arena.Credits (· = id) utility t.own a :=
        (Arena.propagate_ensures utility (hown.symm ▸ hn)).sparing fun f hf hfault =>
          hvalue utility t.host f hrun hfault hf
      refine (Hosted.ensures_onOwn (P := fun _ _ => True) (hpropagate.mono fun _ _ _ => trivial)).bind
        fun _ t' _ => Action.ensures_of_ok (t := t') rfl ⟨t.host, hrun⟩
  cases hrun : Arena.evaluate game evaluator id (some w) s with
  | ok utility t => exact Action.ensures_of_ok hrun ⟨hruns.of_ok hrun, Arena.evaluate_propagates hrun⟩
  | error f t => exact Action.ensures_of_error hrun (hruns.of_error hrun)

/-- A simulation keeps to a world, and fails only if the selector or the evaluator does. -/
theorem simulateBy_ensures (h : Arena.Rooted u s.own root p) :
    Action.Ensures (fun f => ¬Refuses u.game selector evaluator s.own root f)
      (simulateBy u.game selector evaluator root) s fun sim t => Determinized u.game s.own root sim t.own := by
  obtain ⟨v, hnode⟩ := Arena.node_run h.place
  obtain ⟨w, host, hchoose, hw⟩ := p.draw_run s.host
  unfold simulateBy
  refine Action.ensures_bind_of_ok (Hosted.onOwn_eq_ok.2 ⟨s.own, hnode, rfl⟩) ?_
  refine Action.ensures_bind_of_ok (Hosted.onHost_eq_ok.2 ⟨host, hchoose, rfl⟩) ?_
  refine Action.ensures_bind_of_ok (Hosted.onOwn_eq_ok.2 ⟨s.own, rfl, rfl⟩) ?_
  refine (descendBy_ensures (s := ⟨s.own, host⟩) h.sound h.place hw
    (h.sound.heightBelow h.place) .refl).bind fun found t hfound => ?_
  obtain ⟨way, leaf, last⟩ := found
  obtain ⟨own, host'⟩ := t
  obtain ⟨hown, hfollows, hlevels⟩ := hfound
  obtain rfl : own = s.own := hown
  -- the last world is expanded
  obtain ⟨b, hb, hlast⟩ := hfollows.ends
  obtain ⟨q, hq, rfl⟩ := h.sound.sane.place_of_belief? hb
  obtain ⟨a, q', hexpand, hgrown⟩ := Arena.expandWorld_yields h.sound hq hlast
  have hexpanded := Arena.respects_expandWorld _ _ _ hexpand h.sound.shaped
  have halike := (hgrown.extended hq).2
  refine Action.ensures_bind_of_ok (Hosted.onOwn_eq_ok.2 ⟨a, hexpand, rfl⟩) ?_
  -- it is evaluated, and the nodes above the last one take in the utility
  refine (evaluate_ensures (s := ⟨a, host'⟩) hgrown.place (halike.worlds ▸ hlast) ?_ ?_).bind
    fun utility t hvalued => ?_
  · exact fun f host'' hrun => not_not.2 (.evaluator hfollows.leads hb hlast hrun)
  · exact fun utility host'' f hrun hvalue => not_not.2 (.utility hfollows.leads hb hlast hrun hvalue)
  obtain ⟨⟨host'', hvalued⟩, hself⟩ := hvalued
  have hroot := hexpanded.station root _ (Arena.station?_of_find? (Arena.node_eq_ok.1 hnode).1)
  have hleads := hexpanded.leads hfollows.leads
  have hfirst := Arena.propagate_credits hself
  refine (Hosted.ensures_onOwn ?_).bind (P := fun _ t' => Arena.backpropagate leaf utility t.own = .ok ⟨⟩ t'.own)
    fun _ t' hup => ?_
  · refine ((Arena.backpropagate_ensures hgrown.sound.shaped hroot h.parent hleads hfirst.toRevalued).sparing
      fun f hf hvalue => hf (.utility hfollows.leads hb hlast hvalued hvalue)).adding fun _ _ hrun => hrun
  have hcredits := Arena.backpropagate_credits hgrown.sound.shaped hroot h.parent hleads hself hup
  refine Action.ensures_of_ok rfl ⟨hfollows, Nat.lt_succ_iff.1 hlevels, ?_, fun id => ?_⟩
  · exact fun k x hx => Arena.expandsOnly_expandWorld _ _ _ hexpand k x (hcredits.hasExpanded hx)
  · have hcount := hcredits.playouts id
    rw [hexpanded.playouts] at hcount
    rw [hcredits.leads_iff]
    exact ⟨fun hid => by rw [hcount, if_pos hid], fun hid => by rw [hcount, if_neg hid, Nat.add_zero]⟩

end SingleObserver

end GameSearch
