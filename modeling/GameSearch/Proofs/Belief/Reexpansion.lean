import GameSearch.Proofs.Alike
import GameSearch.Proofs.Belief.Expansion

/-!
# Worlds that are expanded anew

A transition may be added although there is an edge for it already.  Then the child is there and has the next
state among its worlds, so nothing happens but that the edge is there twice.  What the expansion of a belief adds
after that does not depend on the edges of the node: `Arena.Interposed` relates the arenas with and without the
repeated edges, and the steps of an expansion keep to it.
-/

namespace GameSearch

/-- A node with the given edges. -/
def Node.withEdges {R : Type} (n : Node R) (edges : List Edge) : Node R := { n with edges := some edges.toArray }

/-- The edges of a place out of a world. -/
def Place.edgesFrom (p : Place) (w : State) : List Edge := p.edgeList.filter fun e => e.key.world = some w

lemma Place.mem_edgesFrom {p : Place} {w : State} {e : Edge} :
    e ∈ p.edgesFrom w ↔ e ∈ p.edgeList ∧ e.key.world = some w := by
  simp [edgesFrom]

lemma Place.withEdges_toNode {R : Type} {p : Place} (hpristine : p.edges ≠ none) (v : Option (Valuation R)) :
    (p.toNode v).withEdges p.edgeList = p.toNode v := by
  obtain ⟨edges, hedges⟩ := Option.ne_none_iff_exists'.1 hpristine
  simp [Node.withEdges, Place.toNode, Place.edgeList, hedges]

namespace Arena

variable {R : Type} {u : Upkeep} {game : Game} {a a' : Arena R} {id x child : NodeId} {p : Place} {n : Node R}
  {w next : State} {before : List (Turn × State)} {front more edges : List Edge}

/-! ## More edges at one node -/

/-- One arena is another with more edges at some node, after the first ones that this node has. -/
structure Interposed (front more : List Edge) (id : NodeId) (a a' : Arena R) : Prop where
  orderly : a.Orderly
  differs : ∃ n rest, a.find? id = some n ∧ n.edges = some (front ++ rest).toArray ∧
    a' = a.update id fun n => n.withEdges (front ++ more ++ rest)

lemma Interposed.find?_of_ne (h : Interposed front more id a a') (hx : x ≠ id) : a'.find? x = a.find? x := by
  obtain ⟨n, rest, -, -, rfl⟩ := h.differs
  rw [find?_update, if_neg hx]

/-- The nodes of the two are told apart by their edges only. -/
lemma Interposed.find? (h : Interposed front more id a a') (x : NodeId) :
    a'.find? x = a.find? x ∨ ∃ n edges, a.find? x = some n ∧ a'.find? x = some (n.withEdges edges) := by
  by_cases hx : x = id
  · obtain ⟨n, rest, hn, -, rfl⟩ := h.differs
    refine .inr ⟨n, front ++ more ++ rest, hx ▸ hn, ?_⟩
    rw [find?_update, if_pos hx, hn]
    rfl
  · exact .inl (h.find?_of_ne hx)

lemma edgesOf_withEdges (hn : a.find? id = some n) : (a.update id fun n => n.withEdges edges).edgesOf id = edges := by
  simp [edgesOf, hn, Node.withEdges]

lemma Interposed.edgesOf (h : Interposed front more id a a') :
    ∃ rest, a.edgesOf id = front ++ rest ∧ a'.edgesOf id = front ++ more ++ rest ∧
      a' = a.update id fun n => n.withEdges (a'.edgesOf id) := by
  obtain ⟨n, rest, hn, hedges, rfl⟩ := h.differs
  rw [edgesOf_withEdges hn]
  exact ⟨rest, by simp [Arena.edgesOf, hn, hedges], rfl, rfl⟩

lemma Interposed.eq_of_nil (h : Interposed front [] id a a') : a' = a := by
  obtain ⟨n, rest, hn, hedges, rfl⟩ := h.differs
  refine update_eq_self fun m hm => ?_
  rw [hn, Option.some.injEq] at hm
  rw [← hm, Node.withEdges, List.append_nil, ← hedges]

/-- It is enough that a change of the node goes along with its having more edges. -/
lemma Interposed.update {f : Node R → Node R} (h : Interposed front more id a a')
    (hf : x = id → ∀ n rest, n.edges = some (front ++ rest).toArray →
      ∃ rest', (f n).edges = some (front ++ rest').toArray ∧
        f (n.withEdges (front ++ more ++ rest)) = (f n).withEdges (front ++ more ++ rest')) :
    Interposed front more id (a.update x f) (a'.update x f) := by
  obtain ⟨n, rest, hn, hedges, rfl⟩ := h.differs
  refine ⟨h.orderly.update f, ?_⟩
  by_cases hx : x = id
  · subst hx
    obtain ⟨rest', hedges', hsame⟩ := hf rfl n rest hedges
    refine ⟨f n, rest', by rw [find?_update, if_pos rfl, hn]; rfl, hedges', ?_⟩
    rw [update_update, update_update]
    refine update_congr fun m hm => ?_
    rw [hn, Option.some.injEq] at hm
    rw [← hm, hsame]
  · exact ⟨n, rest, by rw [find?_update, if_neg (Ne.symm hx), hn], hedges, update_comm hx _ _⟩

/-- The number set aside does not depend on the nodes. -/
lemma reserve_update (hid : id < a.slots.size) (f : Node R → Node R) :
    (a.update id f).reserve = (a.reserve.1, a.reserve.2.update id f) := by
  obtain ⟨slots, free, size⟩ := a
  cases free with
  | nil =>
    have hne : id ≠ slots.size := Nat.ne_of_lt hid
    have hslots : (slots.modify id (Option.map f)).push none = (slots.push none).modify id (Option.map f) := by
      refine Array.ext_getElem? fun y => ?_
      simp only [Array.getElem?_push, Array.getElem?_modify, Array.size_modify]
      by_cases hy : y = slots.size
      · rw [if_pos hy, if_neg fun heq => hne (heq.trans hy), if_pos hy]
      · rw [if_neg hy, if_neg hy]
    simp only [Arena.reserve, Arena.update, Array.size_modify, hslots]
  | cons first free => rfl

lemma fillSlot_update (hx : x ≠ id) (f : Node R → Node R) :
    (a.update id f).fillSlot x n = (a.fillSlot x n).update id f := by
  have hslots : (a.slots.modify id (Option.map f)).setIfInBounds x (some n) =
      (a.slots.setIfInBounds x (some n)).modify id (Option.map f) := by
    refine Array.ext_getElem? fun y => ?_
    simp only [Array.getElem?_setIfInBounds, Array.getElem?_modify, Array.size_modify]
    by_cases hy : x = y
    · have hne : ¬id = y := fun heq => hx (hy.trans heq.symm)
      simp only [if_pos hy, if_neg hne]
    · simp only [if_neg hy]
  simp only [fillSlot, Arena.update, hslots]

/-! ## Steps of an expansion -/

variable {β : Type}

lemma node_of_find?_eq_none (h : a.find? id = none) : node id a = .error (.noNode id) a := by
  rw [node, Action.bind_of_ok (Action.get_run a), node?, h]
  rfl

/-- A node may be read if nothing is made of its edges. -/
lemma Interposed.alike_node_bind {f : Node R → Action (Arena R) β} (hf : ∀ n edges, f (n.withEdges edges) = f n)
    (h : ∀ n, Action.Alike (Interposed front more id) (Interposed front more id) (f n)) :
    Action.Alike (Interposed front more id) (Interposed front more id) (node x >>= f) := by
  intro a a' hdiffers
  rcases hdiffers.find? x with hsame | ⟨n, edges, hn, hn'⟩
  · cases hn : a.find? x with
    | none =>
      rw [Action.bind_of_error (node_of_find?_eq_none hn),
        Action.bind_of_error (node_of_find?_eq_none (hsame.trans hn))]
      exact .error hdiffers
    | some n =>
      rw [Action.bind_of_ok (node_of_find? hn), Action.bind_of_ok (node_of_find? (hsame.trans hn))]
      exact h n hdiffers
  · rw [Action.bind_of_ok (node_of_find? hn), Action.bind_of_ok (node_of_find? hn'), hf]
    exact h n hdiffers

lemma Interposed.belief?_eq (h : Interposed front more id a a') (x : NodeId) : a'.belief? x = a.belief? x := by
  rcases h.find? x with hsame | ⟨n, edges, hn, hn'⟩
  · rw [belief?, belief?, node?, node?, hsame]
  · rw [belief?, belief?, node?, node?, hn, hn']
    rfl

lemma Interposed.alike_belief :
    Action.Alike (Interposed front more id) (Interposed front more id) (belief x : Action (Arena R) Belief) :=
  Action.alike_get_bind (fun _ _ h => by rw [h.belief?_eq]) fun _ => Action.alike_lift _

lemma Interposed.alike_changeBelief (f : Belief → Belief) :
    Action.Alike (Interposed front more id) (Interposed front more id)
      (changeBelief x f : Action (Arena R) Unit) := by
  refine Action.alike_modify fun a a' h => h.update fun _ n rest hedges => ⟨rest, ?_⟩
  obtain ⟨parent, depth, role, knowledge, edges, valuation, move⟩ := n
  cases knowledge with
  | belief b => exact ⟨hedges, rfl⟩
  | perfect s turn => exact ⟨hedges, rfl⟩

lemma Interposed.alike_pushEdge (e : Edge) :
    Action.Alike (Interposed front more id) (Interposed front more id)
      (change x fun n => { n with edges := n.edges.map (·.push e) } : Action (Arena R) Unit) := by
  refine Action.alike_modify fun a a' h => h.update fun _ n rest hedges => ⟨rest ++ [e], ?_⟩
  simp [Node.withEdges, hedges]

lemma Interposed.alike_openEdges :
    Action.Alike (Interposed front more id) (Interposed front more id)
      (change x fun n => { n with edges := n.edges.or (some #[]) } : Action (Arena R) Unit) := by
  refine Action.alike_modify fun a a' h => h.update fun _ n rest hedges => ⟨rest, ?_⟩
  simp [Node.withEdges, hedges]

lemma Interposed.alike_add (n : Except Fault (Node R)) :
    Action.Alike (Interposed front more id) (Interposed front more id) (add n) := by
  intro a a' h
  obtain ⟨m, rest, hm, hedges, rfl⟩ := h.differs
  have hlt := lt_size_of_find? hm
  obtain ⟨hnone, hlt', -, -, hfind⟩ := h.orderly.reserve
  cases n with
  | error e =>
    rw [add_error, add_error, reserve_update hlt]
    obtain ⟨-, -, -, horderly, -⟩ := h.orderly.reserve
    exact .error ⟨horderly, m, rest, (hfind id).trans hm, hedges, rfl⟩
  | ok n =>
    have hne : a.reserve.1 ≠ id := fun heq => by
      rw [heq, hm] at hnone
      cases hnone
    obtain ⟨c, a₁, hrun, -, horderly, hfind'⟩ := add_yields h.orderly n
    rw [add_ok, EStateM.Result.ok.injEq] at hrun
    obtain ⟨rfl, rfl⟩ := hrun
    rw [add_ok, add_ok, reserve_update hlt, fillSlot_update hne]
    exact .ok ⟨horderly, m, rest, by rw [hfind', if_neg (Ne.symm hne), hm], hedges, rfl⟩

lemma Interposed.alike_addTransition (turn : Turn) (next : State) :
    Action.Alike (Interposed front more id) (Interposed front more id)
      (addTransition game x w turn next : Action (Arena R) Unit) := by
  refine alike_node_bind (fun n edges => rfl) fun n => alike_belief.bind fun b => ?_
  refine Action.Alike.ite (fun _ => Action.alike_pure _) fun _ => ?_
  refine (Action.alike_lift _).bind fun o => Action.Alike.bind ?_ fun child => alike_pushEdge _
  unfold childFor
  split
  · exact (alike_add _).bind fun child => (alike_changeBelief _).bind fun _ =>
      (alike_changeBelief _).bind fun _ => Action.alike_pure _
  · exact alike_belief.bind fun _ => (alike_changeBelief _).bind fun _ => Action.alike_pure _

/-! ## One world -/

/-- The arena in which a node has edges, if only none. -/
def opened (a : Arena R) (id : NodeId) : Arena R := a.update id fun n => { n with edges := n.edges.or (some #[]) }

lemma open_run : change id (fun n => { n with edges := n.edges.or (some #[]) }) a = .ok ⟨⟩ (a.opened id) := rfl

lemma opened_eq_self (hp : a.place? id = some p) (hpristine : p.edges ≠ none) : a.opened id = a := by
  obtain ⟨v, hn⟩ := find?_of_place? hp
  obtain ⟨edges, hedges⟩ := Option.ne_none_iff_exists'.1 hpristine
  refine update_eq_self fun n hn' => ?_
  rw [hn, Option.some.injEq] at hn'
  rw [← hn']
  simp [Place.toNode, hedges]

/-- A round of the expansion of a world. -/
def addStep (game : Game) (id : NodeId) (w : State) (step : Turn × State) (_ : PUnit) :
    Action (Arena R) (ForInStep PUnit) := do
  addTransition game id w step.1 step.2
  return .yield ⟨⟩

lemma addStep_of_ok {step : Turn × State} (h : addTransition game id w step.1 step.2 a = .ok ⟨⟩ a') :
    addStep game id w step ⟨⟩ a = .ok (.yield ⟨⟩) a' := by
  rw [addStep, Action.bind_of_ok h]
  rfl

lemma addStep_of_error {f : Fault} {step : Turn × State} (h : addTransition game id w step.1 step.2 a = .error f a') :
    addStep game id w step ⟨⟩ a = .error f a' :=
  Action.bind_of_error h

lemma addStep_yields (step : Turn × State) (c : PUnit) (a : Arena R) (r : ForInStep PUnit) (b : Arena R)
    (h : addStep game id w step c a = .ok r b) : ∃ c', r = .yield c' := by
  obtain ⟨_, _, -, hpure⟩ := Action.bind_eq_ok.1 h
  cases hpure
  exact ⟨_, rfl⟩

lemma addTransitions_of_ok {next : List (Turn × State)} (h : game.successors? w = .ok next) :
    addTransitions game id w a = ((forIn next ⟨⟩ (addStep game id w) : Action (Arena R) PUnit) >>= fun _ =>
      changeBelief id fun b => { b with expanded := b.expanded.insert w }) (a.opened id) := by
  unfold addTransitions
  rw [Action.bind_of_ok open_run, Action.bind_of_ok (Action.lift_of_ok h _)]
  rfl

lemma addTransitions_of_error {f : Fault} (h : game.successors? w = .error f) :
    addTransitions game id w a = .error f (a.opened id) := by
  unfold addTransitions
  rw [Action.bind_of_ok open_run, h]
  rfl

lemma Interposed.alike_addStep (step : Turn × State) (c : PUnit) :
    Action.Alike (Interposed front more id) (Interposed front more id)
      (addStep game x w step c : Action (Arena R) (ForInStep PUnit)) :=
  (alike_addTransition _ _).bind fun _ => Action.alike_pure _

lemma Interposed.alike_addTransitions :
    Action.Alike (Interposed front more id) (Interposed front more id)
      (addTransitions game x w : Action (Arena R) Unit) := by
  refine alike_openEdges.bind fun _ => (Action.alike_lift _).bind fun next => ?_
  exact (Action.alike_forIn fun step c => alike_addStep step c).bind fun _ => alike_changeBelief _

/-! ## The same transitions once more -/

variable {e : Edge}

lemma Expanding.key_eq (h : Expanding u id w before a p) (he : e ∈ p.edgeList) (hworld : e.key.world = some w) :
    e.key = p.keyOf w e.turn := by
  obtain ⟨x, hkey⟩ := h.fits.keyed e he
  rw [hkey] at hworld
  cases hworld
  exact hkey

/-- The edges out of the world in question are those of the transitions that have been added. -/
lemma Expanding.out_eq (h : Expanding u id w before a p) : p.out w = before.filter fun step => p.accepts step.1 := by
  rcases h.fits.out w with hout | ⟨-, hin, -⟩
  · rwa [Function.update_self] at hout
  · exact absurd hin h.fresh

lemma Expanding.accepts (h : Expanding u id w before a p) (he : e ∈ p.edgeList) (hworld : e.key.world = some w) :
    p.accepts e.turn = true := by
  have hmem : (e.turn, e.next) ∈ p.out w := Place.mem_out.2 ⟨e, he, hworld, rfl, rfl⟩
  rw [h.out_eq] at hmem
  exact (List.mem_filter.1 hmem).2

/-- The child for an observation that was made before is there, and the next state is one of its worlds. -/
lemma Expanding.childFor_again (h : Expanding u id w before a p) (he : e ∈ p.edgeList) (v : Option (Valuation R)) :
    childFor id (p.toNode v) p.belief (p.seen u e) e.next a = .ok e.child a := by
  obtain ⟨c, hc, hof⟩ := h.fits.child e he
  have hin : e.next ∈ c.belief.worlds := (hof.worlds _).2 ⟨e, he, rfl, rfl⟩
  have hsame : c.belief.addWorld e.next = c.belief := by
    have hworlds : c.belief.worlds.insert e.next = c.belief.worlds :=
      StateSet.ext_iff_mem.2 fun s => by
        rw [StateSet.mem_insert]
        exact or_iff_right_of_imp fun heq => heq ▸ hin
    simp only [Belief.addWorld, hworlds]
  unfold childFor
  rw [h.fits.bucket e he]
  simp only
  rw [Action.bind_of_ok (belief_run hc), Action.bind_of_ok (changeBelief_eq_self hc hsame)]
  rfl

/-- If there is an edge for a transition, adding it again repeats the edge and does nothing else. -/
theorem Expanding.addTransition_again (h : Expanding u id w before a p) (he : e ∈ p.edgeList)
    (hworld : e.key.world = some w) :
    addTransition u.game id w e.turn e.next a =
      .ok ⟨⟩ (a.update id fun n => n.withEdges (p.edgeList ++ [e])) := by
  obtain ⟨v, hn⟩ := find?_of_place? h.place
  obtain ⟨edges, hedges⟩ := Option.ne_none_iff_exists'.1 h.pristine
  obtain ⟨c, hc, hof⟩ := h.fits.child e he
  have hstate : u.states e.next := (h.sound.known _ c hc).worlds _ ((hof.worlds _).2 ⟨e, he, rfl, rfl⟩)
  have hkey := h.key_eq he hworld
  have hobservation : observation? u.game p.role e.turn e.next = .ok (p.seen u e) :=
    u.answers.observation? hstate p.role e.turn
  unfold addTransition
  rw [Action.bind_of_ok (node_of_find? hn), Action.bind_of_ok (belief_run h.place)]
  simp only [Node.keyOf_toNode, Node.isCommitted_toNode (p := p) (e := ⟨p.keyOf w e.turn, e.turn, e.next, id⟩) rfl v,
    h.accepts he hworld, Place.toNode_role, Bool.not_true, Bool.false_eq_true, if_false]
  rw [Action.bind_of_ok (Action.lift_of_ok hobservation a), Action.bind_of_ok (h.childFor_again he v), change_run]
  rw [update_congr fun n hn' => ?_]
  rw [hn, Option.some.injEq] at hn'
  have hpush : (edges.toList ++ [e]).toArray = edges.push e := by rw [← Array.toList_push, Array.toArray_toList]
  rw [← hn', ← hkey, Node.withEdges, Place.edgeList_of_some hedges, hpush]
  simp only [Place.toNode, hedges, Option.map_some]

lemma addTransition_of_rejects {turn : Turn} (hp : a.place? id = some p) (hrejects : p.accepts turn = false) :
    addTransition game id w turn next a = .ok ⟨⟩ a := by
  obtain ⟨v, hnode⟩ := node_run hp
  unfold addTransition
  rw [Action.bind_of_ok hnode, Action.bind_of_ok (belief_run hp)]
  simp only [Node.keyOf_toNode, Node.isCommitted_toNode (p := p) (e := ⟨p.keyOf w turn, turn, next, id⟩) rfl v,
    hrejects]
  rfl

/-- A node of which the edges are at hand. -/
lemma Expanding.interposed (h : Expanding u id w before a p) (more : List Edge) :
    Interposed p.edgeList more id a (a.update id fun n => n.withEdges (p.edgeList ++ more)) := by
  obtain ⟨v, hn⟩ := find?_of_place? h.place
  refine ⟨h.sound.sane.orderly, p.toNode v, [], hn, ?_, by rw [List.append_nil]⟩
  rw [List.append_nil]
  exact (congrArg Node.edges (Place.withEdges_toNode h.pristine v)).symm

/-- Going through the transitions of a world again repeats the edges that there are for them. -/
theorem Expanding.forIn_addStep_again (h : Expanding u id w before a p) {steps : List (Turn × State)}
    (hedges : ∀ e ∈ edges, e ∈ p.edgeList ∧ e.key.world = some w)
    (hsteps : (steps.filter fun step => p.accepts step.1) = edges.map fun e => (e.turn, e.next)) :
    forIn steps ⟨⟩ (addStep u.game id w) a =
      .ok ⟨⟩ (a.update id fun n => n.withEdges (p.edgeList ++ edges)) := by
  obtain ⟨v, hn⟩ := find?_of_place? h.place
  induction steps generalizing edges with
  | nil =>
    obtain rfl : edges = [] := by simpa using hsteps.symm
    rw [update_eq_self fun n hn' => ?_]
    · rfl
    · rw [hn, Option.some.injEq] at hn'
      rw [← hn', List.append_nil, Place.withEdges_toNode h.pristine]
  | cons step steps ih =>
    cases haccepts : p.accepts step.1 with
    | false =>
      rw [List.filter_cons_of_neg (by simp [haccepts])] at hsteps
      rw [List.forIn_cons, Action.bind_of_ok (addStep_of_ok (addTransition_of_rejects h.place haccepts))]
      exact ih hedges hsteps
    | true =>
      rw [List.filter_cons_of_pos (by simp [haccepts])] at hsteps
      cases edges with
      | nil => cases hsteps
      | cons e edges =>
        rw [List.map_cons, List.cons.injEq] at hsteps
        obtain ⟨rfl, hrest⟩ := hsteps
        obtain ⟨he, hworld⟩ := hedges e List.mem_cons_self
        have hfirst : addStep u.game id w (e.turn, e.next) ⟨⟩ a =
            .ok (.yield ⟨⟩) (a.update id fun n => n.withEdges (p.edgeList ++ [e])) :=
          addStep_of_ok (h.addTransition_again he hworld)
        have hlater := ih (fun e he => hedges e (List.mem_cons_of_mem _ he)) hrest
        -- the other steps do the same as if the edge were there once
        have halike : Action.Alike (Interposed p.edgeList [e] id) (Interposed p.edgeList [e] id)
            (forIn steps ⟨⟩ (addStep u.game id w) : Action (Arena R) PUnit) :=
          Action.alike_forIn fun step c => Interposed.alike_addStep step c
        obtain ⟨b, hrun, hdiffers⟩ := (halike (h.interposed [e])).of_ok hlater
        obtain ⟨rest, hedges₁, hedges₂, hsame⟩ := hdiffers.edgesOf
        rw [edgesOf_withEdges hn] at hedges₁
        rw [hedges₂, ← List.append_cancel_left hedges₁, List.append_assoc, update_update] at hsame
        rw [List.forIn_cons, Action.bind_of_ok hfirst]
        exact hsame ▸ hrun

/-- If the expansion of a world is taken up again after some of its transitions, the edges for them are there
twice in the end. -/
theorem Expanding.addTransitions_again {a₁ : Arena R} {after : List (Turn × State)}
    (h : Expanding u id w before a p) (hnext : u.game.successors? w = .ok (before ++ after))
    (hbefore : forIn before ⟨⟩ (addStep u.game id w) (a'.opened id) = .ok ⟨⟩ a)
    (hrun : addTransitions u.game id w a' = .ok ⟨⟩ a₁) :
    ∃ a₂, addTransitions u.game id w a = .ok ⟨⟩ a₂ ∧ Interposed p.edgeList (p.edgesFrom w) id a₁ a₂ := by
  have hagain := h.forIn_addStep_again (fun e he => Place.mem_edgesFrom.1 he) h.out_eq.symm
  have halike : Action.Alike (Interposed p.edgeList (p.edgesFrom w) id) (Interposed p.edgeList (p.edgesFrom w) id)
      ((forIn after ⟨⟩ (addStep u.game id w) : Action (Arena R) PUnit) >>= fun _ =>
        changeBelief id fun b => { b with expanded := b.expanded.insert w }) :=
    (Action.alike_forIn fun step c => Interposed.alike_addStep step c).bind fun _ => Interposed.alike_changeBelief _
  rw [addTransitions_of_ok hnext, Action.bind_congr_run (Action.forIn_append_of_ok addStep_yields hbefore)] at hrun
  obtain ⟨a₂, hrun₂, hdiffers⟩ := (halike (h.interposed _)).of_ok hrun
  refine ⟨a₂, ?_, hdiffers⟩
  rw [addTransitions_of_ok hnext, opened_eq_self h.place h.pristine,
    Action.bind_congr_run (Action.forIn_append_of_ok addStep_yields hagain)]
  exact hrun₂

end Arena

end GameSearch
